import ArgumentMap.Proofs.Alike
import ArgumentMap.Proofs.Graph.Outline
import ArgumentMap.Proofs.Pass.Run

/-!
# Passes that run alike

A pass looks only at the card that it enters and at the ends of edges from there
on, and never at the content of a card. So on two stores that say the same of some
cards, among them all their neighbours, a pass that starts from one of these cards
runs alike, whether it succeeds or fails.
-/

namespace ArgumentMap

variable {σ τ : Type} [Store σ] [Store τ]

/-- Pairs of stores that say the same of the cards of `S`, among them all their
neighbours, and that still do when a role is written or an edge is cut there in
both of them. -/
structure Store.Matching (S : NodeId → Prop) (R : σ → τ → Prop) : Prop where
  node : ∀ {s : σ} {t : τ} {x : NodeId}, R s t → S x →
    Agrees (fun n m => n.outline = m.outline ∧ S n.id ∧ (∀ c ∈ n.children, S c) ∧
      ∀ p ∈ n.parents, S p) (Store.node s x) (Store.node t x)
  hasEdge : ∀ {s : σ} {t : τ} {x : NodeId} (c : NodeId), R s t → S x →
    Store.hasEdge s x c = Store.hasEdge t x c
  setRole : ∀ {s : σ} {t : τ} {x : NodeId} (role : Role), R s t → S x →
    R (Store.setRole s x role) (Store.setRole t x role)
  disconnect : ∀ {s : σ} {t : τ} {p c : NodeId}, R s t → S p → S c →
    Agrees (fun a b => a.1 = b.1 ∧ R a.2 b.2) (Store.disconnect s p c) (Store.disconnect t p c)

def Task.Within (S : NodeId → Prop) : Task → Prop
  | .enter id _ _ _ => S id
  | .raise parent child _ _ | .lower parent child _ _ => S parent ∧ S child

namespace Pass

def Matched (R : σ → τ → Prop) (p : Pass σ) (q : Pass τ) : Prop :=
  R p.graph q.graph ∧ p.stats = q.stats

def SameTasks (S : NodeId → Prop) (tasks tasks' : List Task) : Prop :=
  tasks = tasks' ∧ ∀ t ∈ tasks, t.Within S

section
variable {S : NodeId → Prop} {R : σ → τ → Prop} (hM : Store.Matching S R)

theorem within_demands {n : Node} {children : List NodeId} {role : Role} (hid : S n.id)
    (hcs : ∀ c ∈ children, S c) (hps : ∀ p ∈ n.parents, S p) :
    ∀ t ∈ demands n children role, t.Within S := by
  cases role with
  | interpretation | assertion =>
    refine List.forall_mem_append.2 ⟨?_, ?_⟩
    · exact List.forall_mem_map.2 fun c hc => ⟨hid, hcs c hc⟩
    · exact List.forall_mem_map.2 fun p hp => ⟨hps p hp, hid⟩
  | source | unset => exact List.forall_mem_nil _

include hM

theorem alike_disconnect {parent c : NodeId} (hp : S parent) (hc : S c) :
    Edit.Alike (Matched R) Eq (Edit.attempt (disconnect parent c))
      (Edit.attempt (disconnect parent c)) := by
  refine .attempt fun p q hpq => ?_
  obtain ⟨hr, hstats⟩ := hpq
  have hboth := hM.disconnect hr hp hc
  rw [disconnect, disconnect]
  generalize Store.disconnect p.graph parent c = x at hboth ⊢
  generalize Store.disconnect q.graph parent c = y at hboth ⊢
  cases hboth with
  | error e => exact .error e
  | ok hab => exact .ok ⟨hab.1, hab.2, hstats⟩

theorem alike_detachEach {parent : NodeId} (hp : S parent) {cs : List NodeId}
    (hcs : ∀ c ∈ cs, S c) :
    Edit.Alike (Matched R) Eq (detachEach parent cs) (detachEach parent cs) := by
  induction cs with
  | nil => exact .pure rfl
  | cons c cs ih =>
    obtain ⟨hc, hrest⟩ := List.forall_mem_cons.1 hcs
    refine .bind_same (alike_disconnect hM hp hc) fun removed => ?_
    split_ifs
    · refine .bind_same (.change fun p q hpq => ⟨hpq.1, ?_⟩) fun _ => ?_
      · simp only [countDetached, hpq.2]
      · exact .bind_same (.announce _) fun _ => .bind_same (ih hrest) fun _ => .pure rfl
    · exact ih hrest

theorem alike_assign {n : Node} (hid : S n.id) (role : Role) :
    Edit.Alike (Matched R) Eq (assign n role) (assign n role) := by
  have hwrite : Edit.Alike (Matched R) Eq (Edit.change (writeRole n.id role))
      (Edit.change (writeRole n.id role)) :=
    .change fun p q hpq => ⟨hM.setRole role hpq.1 hid, by simp only [writeRole, hpq.2]⟩
  rw [assign, assign]
  split_ifs
  · exact .bind_same (.announce _) fun _ => hwrite
  · exact hwrite

theorem alike_reduce {n : Node} (hid : S n.id) (hcs : ∀ c ∈ n.children, S c)
    (origin : Option NodeId) : Edit.Alike (Matched R) (fun keep keep' => keep = keep' ∧
      ∀ c ∈ keep, S c) (reduce n origin) (reduce n origin) := by
  have hkeep : ∀ c ∈ kept origin n.children, S c := fun c hc => hcs c (mem_of_mem_kept hc)
  have hcut : ∀ c ∈ n.children.filter (· ∉ kept origin n.children), S c := fun c hc =>
    hcs c (List.mem_filter.1 hc).1
  refine .bind_same (alike_detachEach hM hid hcut) fun detached => ?_
  split_ifs
  · exact .bind_same (.announce _) fun _ => .pure ⟨rfl, hkeep⟩
  · exact .pure ⟨rfl, hkeep⟩

theorem alike_spread {n : Node} (hid : S n.id) (hcs : ∀ c ∈ n.children, S c)
    (hps : ∀ p ∈ n.parents, S p) (role : Role) (origin : Option NodeId) (repair : Bool) :
    Edit.Alike (Matched R) (SameTasks S) (spread n role origin repair)
      (spread n role origin repair) := by
  rw [spread, spread]
  split_ifs
  · exact .pure ⟨rfl, List.forall_mem_map.2 fun p hp => ⟨hps p hp, hid⟩⟩
  · exact .bind (alike_reduce hM hid hcs origin) fun keep keep' hkeep =>
      .pure ⟨by rw [hkeep.1], within_demands hid hkeep.2 hps⟩
  · exact .pure ⟨rfl, within_demands hid hcs hps⟩

theorem alike_ask_node {α : Type} {A : α → α → Prop} {f : Node → Edit (Pass σ) α}
    {f' : Node → Edit (Pass τ) α} {id : NodeId} (hid : S id) (hf : ∀ n, f' n.outline = f' n)
    (halike : ∀ n, S n.id → (∀ c ∈ n.children, S c) → (∀ p ∈ n.parents, S p) →
      Edit.Alike (Matched R) A (f n) (f' n)) :
    Edit.Alike (Matched R) A (Edit.ask (Store.node ·.graph id) >>= f)
      (Edit.ask (Store.node ·.graph id) >>= f') := by
  refine .bind (.ask fun p q hpq => hM.node hpq.1 hid) fun n m hnm => ?_
  obtain ⟨houtline, hn, hcs, hps⟩ := hnm
  rw [← Node.congr_outline hf houtline]
  exact halike n hn hcs hps

theorem alike_enter {id : NodeId} (hid : S id) (role : Role) (origin : Option NodeId)
    (force : Bool) : Edit.Alike (Matched R) (SameTasks S) (enter id role origin force)
      (enter id role origin force) := by
  have hnone : SameTasks S [] [] := ⟨rfl, List.forall_mem_nil _⟩
  refine .bind_same (.change fun p q hpq => ⟨hpq.1, by simp only [countCall, hpq.2]⟩) fun _ => ?_
  refine alike_ask_node hM hid (fun _ => rfl) fun n hn hcs hps => ?_
  split_ifs
  · exact alike_spread hM hn hcs hps n.legalRole origin false
  · exact .pure hnone
  · exact alike_spread hM hn hcs hps role origin true
  · exact .pure hnone
  · refine .bind_same (alike_assign hM hn role) fun _ => ?_
    exact alike_spread hM hn hcs hps role origin true

theorem alike_hasEdge {x : NodeId} (hx : S x) (c : NodeId) :
    Edit.Alike (Matched R) Eq (Edit.view (Store.hasEdge ·.graph x c))
      (Edit.view (Store.hasEdge ·.graph x c)) :=
  .view fun _ _ hpq => hM.hasEdge c hpq.1 hx

theorem alike_perform {t : Task} (ht : t.Within S) :
    Edit.Alike (Matched R) (SameTasks S) (perform t) (perform t) := by
  have hnone : SameTasks S [] [] := ⟨rfl, List.forall_mem_nil _⟩
  have hone : ∀ {t : Task}, t.Within S → SameTasks S [t] [t] := fun ht =>
    ⟨rfl, List.forall_mem_singleton.2 ht⟩
  cases t with
  | enter id role origin force => exact alike_enter hM ht role origin force
  | raise parent child role force =>
    refine .bind_same (alike_hasEdge hM ht.1 child) fun present => ?_
    split_ifs
    · refine alike_ask_node hM ht.1 (fun _ => rfl) fun n _ _ _ => .pure ?_
      split_ifs
      · exact hnone
      · exact hone ht.1
    · exact .pure hnone
  | lower parent child role leaf =>
    refine .bind_same (alike_hasEdge hM ht.1 child) fun present => ?_
    split_ifs
    · refine alike_ask_node hM ht.2 (fun _ => rfl) fun n _ _ _ => .pure ?_
      split_ifs
      · exact hnone
      · exact hone ht.2
    · exact .pure hnone

theorem alike_work (steps : Nat) {agenda : List Task} (ha : ∀ t ∈ agenda, t.Within S) :
    Edit.Alike (Matched R) Eq (work steps agenda) (work steps agenda) := by
  induction steps generalizing agenda with
  | zero => cases agenda <;> exact .pure rfl
  | succ steps ih =>
    cases agenda with
    | nil => exact .pure rfl
    | cons t rest =>
      obtain ⟨ht, hrest⟩ := List.forall_mem_cons.1 ha
      refine .bind (alike_perform hM ht) fun more more' hmore => ?_
      obtain ⟨rfl, hwithin⟩ := hmore
      exact ih (List.forall_mem_append.2 ⟨hwithin, hrest⟩)

end

end Pass

namespace Store.Matching

variable {S : NodeId → Prop}

theorem alike_propagate_of_bound {R : σ → τ → Prop} (hM : Store.Matching S R)
    (hbound : ∀ s t, R s t → passBound (Store.nodes s) = passBound (Store.nodes t)) {id : NodeId}
    (hid : S id) (role : Role) (origin : Option NodeId) (force : Bool) :
    Edit.Alike R Eq (Graph.propagate id role origin force)
      (Graph.propagate id role origin force) := by
  intro s t hr
  have hrun : Edit.Alike (Pass.Matched R) Eq (Pass.run id role origin force)
      (Pass.run id role origin force) := by
    refine .bind_same (.view fun p q hpq => hbound _ _ hpq.1) fun bound => ?_
    exact .bind_same (Pass.alike_work hM bound (List.forall_mem_singleton.2 hid)) fun _ => .pure rfl
  obtain ⟨⟨hgraph, hstats⟩, hevents, hresult⟩ := hrun { graph := s } { graph := t } ⟨hr, rfl⟩
  refine ⟨hgraph, hevents, ?_⟩
  simp only [Graph.propagate, hresult.eq, hstats]
  exact agrees_refl _

theorem alike_propagate {R : Graph → Graph → Prop} (hM : Store.Matching S R) {id : NodeId}
    (hid : S id) (role : Role) (origin : Option NodeId) (force : Bool) :
    Edit.Alike R Eq (Graph.propagate id role origin force)
      (Graph.propagate id role origin force) := by
  intro g h hr
  have hwithin : ∀ t ∈ [Task.enter id role origin force], t.Within S :=
    List.forall_mem_singleton.2 hid
  -- The bound depends on the whole graph, so both are compared at one that is enough for either.
  obtain ⟨⟨hgraph, hstats⟩, hevents, hresult⟩ := Pass.alike_work hM (max g.passBound h.passBound)
    hwithin { graph := g } { graph := h } ⟨hr, rfl⟩
  rw [Graph.propagate_of_steps (Nat.le_max_left _ _),
    Graph.propagate_of_steps (Nat.le_max_right _ _)]
  refine ⟨hgraph, hevents, ?_⟩
  simp only [hresult.eq, hstats]
  exact agrees_refl _

end Store.Matching

end ArgumentMap
