import ArgumentMap.Proofs.Graph.Growth
import ArgumentMap.Proofs.Keeps

/-!
# Changes and their announcements

Short of a load, whatever happens to a graph is a chain of small changes, and
the edges and cards that come and go are announced one by one. Chains keep a
graph well-formed and leave alone what persisted cards are supported by.
-/

namespace ArgumentMap

namespace Graph

def reword (g : Graph) (id : NodeId) (text : String) : Graph :=
  g.modify id fun n => { n with body := n.body.setText text }

/-- One change with what is announced of it. An edge comes or goes below a card
of the user's own only, and no edge comes that would run against another. -/
inductive Change (g : Graph) : List Event → Graph → Prop where
  | remark {e : Event} : e.topic = .notice ∨ e.topic = .nodeHighlighted → Change g [e] g
  | recast (id : NodeId) (role : Role) : g.persists id = false → Change g [] (g.setRole id role)
  | reword (id : NodeId) (text : String) : Change g [] (g.reword id text)
  | mint (u : Uuid) : Change g [.nodeAdded none (g.mint u).1] (g.mint u).2
  | cut {p c : NodeId} : c ∈ g.children p → g.persists p = false →
      Change g [.edgeRemoved p c] (g.shed p [c])
  | join {p c : NodeId} : g.contains p = true → g.contains c = true → p ≠ c →
      c ∉ g.children p → p ∉ g.children c → g.persists p = false →
      Change g [.edgeAdded p c] (g.link p c)

inductive Changes : Graph → List Event → Graph → Prop where
  | refl (g : Graph) : Changes g [] g
  | head {g h k : Graph} {log log' : List Event} :
      Change g log h → Changes h log' k → Changes g (log ++ log') k

section
variable {g h k : Graph} {log log' : List Event} {id x c : NodeId} {text : String}

theorem Change.changes (hc : Change g log h) : Changes g log h := by
  rw [← List.append_nil log]
  exact .head hc (.refl h)

theorem Changes.trans (h₁ : Changes g log h) (h₂ : Changes h log' k) :
    Changes g (log ++ log') k := by
  induction h₁ with
  | refl => exact h₂
  | head hc _ ih =>
    rw [List.append_assoc]
    exact .head hc (ih h₂)

theorem setText_eq_ok (hs : g.setText id text = .ok h) : h = g.reword id text := by
  rw [setText] at hs
  cases hn : g.node id with
  | error e =>
    rw [hn] at hs
    cases hs
  | ok n =>
    rw [hn] at hs
    exact (Except.ok.inj hs).symm

@[simp] theorem ids_reword : (g.reword id text).ids = g.ids := ids_modify fun _ => rfl

@[simp] theorem children_reword : (g.reword id text).children x = g.children x := by
  rw [reword, children_modify] <;> exact fun _ => rfl

@[simp] theorem parents_reword : (g.reword id text).parents x = g.parents x := by
  rw [reword, parents_modify] <;> exact fun _ => rfl

@[simp] theorem role_reword : (g.reword id text).role x = g.role x := by
  rw [reword, role_modify] <;> exact fun _ => rfl

@[simp] theorem persists_reword : (g.reword id text).persists x = g.persists x := by
  rw [reword, persists_modify] <;> exact fun _ => rfl

theorem WellFormed.reword (hg : g.WellFormed) (id : NodeId) (text : String) :
    (g.reword id text).WellFormed :=
  hg.congr (by simp) (by simp) (by simp)

theorem Change.wellFormed (hc : Change g log h) (hg : g.WellFormed) : h.WellFormed := by
  cases hc with
  | remark => exact hg
  | recast id role => exact hg.setRole id role
  | reword id text => exact hg.reword id text
  | mint u => exact hg.mint u
  | cut => exact hg.shed _ _
  | join hp hc hne hnew => exact hg.link hp hc hne hnew

theorem Change.persists (hc : Change g log h) (x : NodeId) : h.persists x = g.persists x := by
  cases hc <;> simp

theorem Change.children_of_persists (hc : Change g log h) (hx : g.persists x = true) :
    h.children x = g.children x := by
  cases hc with
  | @cut p c _ hp =>
    have hne : x ≠ p := fun he => by simp [← he, hx] at hp
    rw [children_shed, if_neg hne]
  | @join p c hk _ _ _ _ hp =>
    have hne : x ≠ p := fun he => by simp [← he, hx] at hp
    rw [children_link hk, if_neg hne]
  | _ => simp

theorem Change.edgeRemoved_notMem (hc : Change g log h) (hx : g.persists x = true) :
    .edgeRemoved x c ∉ log := by
  cases hc with
  | remark hr =>
    intro hm
    rw [← List.mem_singleton.1 hm] at hr
    simp [Event.topic] at hr
  | cut _ hp =>
    intro hm
    have hxp := (Event.edgeRemoved.inj (List.mem_singleton.1 hm)).1
    rw [hxp, hp] at hx
    cases hx
  | _ => simp

theorem Changes.wellFormed (hc : Changes g log h) (hg : g.WellFormed) : h.WellFormed := by
  induction hc with
  | refl => exact hg
  | head hc _ ih => exact ih (hc.wellFormed hg)

theorem Changes.persists (hc : Changes g log h) (x : NodeId) : h.persists x = g.persists x := by
  induction hc with
  | refl => rfl
  | head hc _ ih => exact ih.trans (hc.persists x)

theorem Changes.children_of_persists (hc : Changes g log h) (hx : g.persists x = true) :
    h.children x = g.children x := by
  induction hc with
  | refl => rfl
  | head hc _ ih => exact (ih ((hc.persists x).trans hx)).trans (hc.children_of_persists hx)

theorem Changes.edgeRemoved_notMem (hc : Changes g log h) (hx : g.persists x = true) :
    .edgeRemoved x c ∉ log := by
  induction hc with
  | refl => simp
  | head hc _ ih =>
    rw [List.mem_append, not_or]
    exact ⟨hc.edgeRemoved_notMem hx, ih ((hc.persists x).trans hx)⟩

theorem Change.edgeRemoved_mem (hc : Change g log h) (hx : c ∈ g.children x)
    (hcut : c ∉ h.children x) : .edgeRemoved x c ∈ log := by
  cases hc with
  | @cut p d hd hp =>
    rw [children_shed] at hcut
    split_ifs at hcut with he
    · have hcd : c = d := by simpa [hx] using hcut
      rw [he, hcd]
      exact List.mem_singleton_self _
    · exact absurd hx hcut
  | @join p d hk =>
    rw [children_link hk] at hcut
    split_ifs at hcut with he
    · exact absurd (List.mem_append_left _ hx) hcut
    · exact absurd hx hcut
  | _ => simp [hx] at hcut

theorem Changes.edgeRemoved_mem (hc : Changes g log h) (hx : c ∈ g.children x)
    (hcut : c ∉ h.children x) : .edgeRemoved x c ∈ log := by
  induction hc with
  | refl => exact absurd hx hcut
  | @head g mid h log log' hc _ ih =>
    rw [List.mem_append]
    by_cases hmid : c ∈ mid.children x
    · exact .inr (ih hmid hcut)
    · exact .inl (hc.edgeRemoved_mem hx hmid)

theorem shed_of_notMem (hg : g.WellFormed) (hx : c ∉ g.children x) : g.shed x [c] = g := by
  have hsame : ∀ n ∈ g.nodes, n.release x [c] = n := by
    intro n hn
    have hf := find?_of_mem hg.nodup_ids hn
    have hchildren : n.id = x → c ∉ n.children := by
      intro he
      rwa [← children_of_find? hf, he]
    have hparents : n.id = c → x ∉ n.parents := by
      intro he
      rwa [← parents_of_find? hf, he, ← hg.mem_children_iff]
    cases n with
    | mk id stableId role persisted body parents children =>
      simp only [Node.release, List.mem_singleton, Node.mk.injEq, true_and]
      refine ⟨?_, ?_⟩
      · split_ifs with he
        · refine List.filter_eq_self.2 fun p hp => decide_eq_true fun hpx : p = x => ?_
          exact hparents he (hpx ▸ hp)
        · rfl
      · split_ifs with he
        · refine List.filter_eq_self.2 fun d hd => decide_eq_true fun hdc : d = c => ?_
          exact hchildren he (hdc ▸ hd)
        · rfl
  cases g with
  | mk stem counter nodes =>
    simp only [shed, mk.injEq, true_and]
    exact (List.map_congr_left hsame).trans (List.map_id nodes)

theorem changes_of_disconnect (hg : g.WellFormed) (hx : g.persists x = false) {removed : Bool}
    (hd : g.disconnect x c = .ok (removed, h)) :
    Changes g (if removed then [.edgeRemoved x c] else []) h := by
  obtain ⟨-, -, hr⟩ := disconnect_eq_ok_iff.1 hd
  obtain ⟨rfl, rfl⟩ := Prod.mk.inj hr
  by_cases hc : c ∈ g.children x
  · simpa [hc] using (Change.cut hc hx).changes
  · have hp : x ∉ g.parents c := mt hg.mem_children_iff.2 hc
    simpa [hc, hp, shed_of_notMem hg hc] using Changes.refl g

end

def unlink (g : Graph) : Option (NodeId × NodeId) → Graph
  | some (p, c) => g.shed p [c]
  | none => g

def unlinkEvents : Option (NodeId × NodeId) → List Event
  | some (p, c) => [.edgeRemoved p c]
  | none => []

section
variable {g : Graph}

@[simp] theorem contains_unlink (e : Option (NodeId × NodeId)) (x : NodeId) :
    (g.unlink e).contains x = g.contains x := by
  cases e <;> simp [unlink]

@[simp] theorem persists_unlink (e : Option (NodeId × NodeId)) (x : NodeId) :
    (g.unlink e).persists x = g.persists x := by
  cases e <;> simp [unlink]

@[simp] theorem role_unlink (e : Option (NodeId × NodeId)) (x : NodeId) :
    (g.unlink e).role x = g.role x := by
  cases e <;> simp [unlink]

theorem children_unlink (e : Option (NodeId × NodeId)) (x : NodeId) :
    (g.unlink e).children x = (g.children x).filter fun c => e ≠ some (x, c) := by
  cases e with
  | none => simp [unlink]
  | some e =>
    obtain ⟨p, c⟩ := e
    rw [unlink, children_shed]
    split_ifs with hx
    · simp [hx, eq_comm]
    · simp [Ne.symm hx]

theorem notMem_children_unlink (e : Option (NodeId × NodeId)) {x c : NodeId}
    (h : c ∉ g.children x) : c ∉ (g.unlink e).children x := by
  rw [children_unlink]
  exact fun hc => h (List.mem_filter.1 hc).1

theorem edgeRemoved_mem_unlinkEvents {e : Option (NodeId × NodeId)} {x c : NodeId} :
    .edgeRemoved x c ∈ unlinkEvents e ↔ e = some (x, c) := by
  cases e <;> simp [unlinkEvents, Prod.ext_iff, eq_comm]

theorem WellFormed.unlink (hg : g.WellFormed) (e : Option (NodeId × NodeId)) :
    (g.unlink e).WellFormed := by
  cases e with
  | none => exact hg
  | some e => exact hg.shed e.1 [e.2]

end

end Graph

namespace Edit

variable {σ τ α β : Type} {graph : σ → Graph}

/-- What an edit does to a well-formed graph is just what it announces, also if
it fails. -/
def Honest (graph : σ → Graph) (m : Edit σ α) : Prop :=
  ∀ s, (graph s).WellFormed → (graph s).Changes (m s).events (graph (m s).state)

namespace Honest

theorem pure (a : α) : Honest graph (Pure.pure a : Edit σ α) := fun _ _ => .refl _

theorem bind {m : Edit σ α} {f : α → Edit σ β} (hm : Honest graph m)
    (hf : ∀ a, Honest graph (f a)) : Honest graph (m >>= f) := by
  intro s hs
  have hfirst := hm s hs
  cases hr : (m s).result with
  | error e =>
    rw [bind_apply_of_error s hr]
    exact hfirst
  | ok a =>
    rw [bind_apply_of_ok s hr]
    exact hfirst.trans (hf a (m s).state (hfirst.wellFormed hs))

theorem map {m : Edit σ α} (hm : Honest graph m) (f : α → β) : Honest graph (f <$> m) :=
  bind hm fun a => pure (f a)

theorem view (f : σ → α) : Honest graph (Edit.view f) := fun _ _ => .refl _

theorem ask (f : σ → Except Failure α) : Honest graph (Edit.ask f) := fun _ _ => .refl _

theorem composable (graph : σ → Graph) : Composable (Honest graph) := ⟨pure, bind, view, ask⟩

theorem remark {e : Event} (he : e.topic = .notice ∨ e.topic = .nodeHighlighted) :
    Honest graph (Edit.announce e) :=
  fun _ _ => (Graph.Change.remark he).changes

theorem zoom {get : σ → τ} {put : τ → σ → σ} {part : τ → Graph} {m : Edit τ α}
    (hget : ∀ s, part (get s) = graph s) (hput : ∀ t s, graph (put t s) = part t)
    (hm : Honest part m) : Honest graph (Edit.zoom get put m) := by
  intro s hs
  rw [← hget] at hs ⊢
  have hpart := hm (get s) hs
  rw [Edit.zoom, hput]
  exact hpart

end Honest

end Edit

end ArgumentMap
