import ArgumentMap.Proofs.Graph.Listing
import ArgumentMap.Proofs.Pass.Honesty
import ArgumentMap.Proofs.Pass.Run

/-!
# What a pass says accounts for what it did

The announcements of a pass come in groups: one for each role that changed, and one for
each card that shed support, which names the edges and then the cards it lost. They
account for the counters, for the edges that went, and for the roles of each card in
turn. Only a first role is written without a word.
-/

open Finset

namespace ArgumentMap

/-- The steps lead from one role to another, each from where the one before it led. -/
def Role.Path : Role → List (Role × Role) → Role → Prop
  | r, [], s => r = s
  | r, (before, after) :: steps, s => before = r ∧ Path after steps s

theorem Role.Path.append {r s t : Role} {steps more : List (Role × Role)} (h : r.Path steps s)
    (h' : s.Path more t) : r.Path (steps ++ more) t := by
  induction steps generalizing r with
  | nil =>
    obtain rfl : r = s := h
    exact h'
  | cons step steps ih => exact ⟨h.1, ih h.2⟩

namespace Event

/-- The change of the role of a card that an announcement tells of. -/
def retyping? (x : NodeId) : Event → Option (Role × Role)
  | notice (.typeChanged y before after) => if y = x then some (before, after) else none
  | _ => none

def isRetyping : Event → Bool
  | notice (.typeChanged ..) => true
  | _ => false

/-- The card that an announcement says lost support, and what it lost. -/
def detaching? : Event → Option (NodeId × List NodeId)
  | notice (.nodesDetached x detached) => some (x, detached)
  | _ => none

end Event

def sheddingEvents (x : NodeId) (ds : List NodeId) : List Event :=
  ds.map (.edgeRemoved x) ++ [.notice (.nodesDetached x ds)]

section
variable (x : NodeId) (ds : List NodeId)

theorem mem_sheddingEvents {e : Event} : e ∈ sheddingEvents x ds ↔
    (∃ d ∈ ds, e = .edgeRemoved x d) ∨ e = .notice (.nodesDetached x ds) := by
  simp [sheddingEvents, eq_comm]

theorem countP_edgeRemoved_shedding :
    (sheddingEvents x ds).countP (·.topic = .edgeRemoved) = ds.length := by
  have hall : (ds.map (Event.edgeRemoved x)).countP (·.topic = .edgeRemoved) = ds.length := by
    simp [List.countP_map, Function.comp_def, Event.topic]
  rw [sheddingEvents, List.countP_append, hall, List.countP_cons_of_neg (by simp [Event.topic]),
    List.countP_nil, Nat.add_zero]

theorem countP_isRetyping_shedding : (sheddingEvents x ds).countP Event.isRetyping = 0 := by
  refine List.countP_eq_zero.2 fun e he => ?_
  rcases (mem_sheddingEvents x ds).1 he with ⟨d, -, rfl⟩ | rfl <;> simp [Event.isRetyping]

theorem filterMap_retyping?_shedding (y : NodeId) :
    (sheddingEvents x ds).filterMap (Event.retyping? y) = [] := by
  refine List.filterMap_eq_nil_iff.2 fun e he => ?_
  rcases (mem_sheddingEvents x ds).1 he with ⟨d, -, rfl⟩ | rfl <;> rfl

theorem filterMap_detaching?_shedding :
    (sheddingEvents x ds).filterMap Event.detaching? = [(x, ds)] := by
  have hnone : (ds.map (Event.edgeRemoved x)).filterMap Event.detaching? = [] := by
    simp [List.filterMap_map, Function.comp_def, Event.detaching?]
  rw [sheddingEvents, List.filterMap_append, hnone]
  rfl

end

/-- Announcements of repairs: roles that changed, and cards that lost support. -/
inductive RepairLog : List Event → Prop where
  | nil : RepairLog []
  | retyped (x : NodeId) {before after : Role} {log : List Event} : before ≠ after →
      before ≠ .unset → RepairLog log → RepairLog (.notice (.typeChanged x before after) :: log)
  | detached (x : NodeId) {ds : List NodeId} {log : List Event} : ds ≠ [] → RepairLog log →
      RepairLog (sheddingEvents x ds ++ log)

namespace RepairLog

variable {log log' : List Event}

theorem append (h : RepairLog log) (h' : RepairLog log') : RepairLog (log ++ log') := by
  induction h with
  | nil => exact h'
  | retyped x hne hset _ ih => exact .retyped x hne hset ih
  | detached x hds _ ih =>
    rw [List.append_assoc]
    exact .detached x hds ih

theorem retyping_of_mem (h : RepairLog log) {x : NodeId} {before after : Role}
    (hmem : .notice (.typeChanged x before after) ∈ log) : before ≠ after ∧ before ≠ .unset := by
  induction h with
  | nil => cases hmem
  | retyped y hne hset _ ih =>
    rcases List.mem_cons.1 hmem with he | hmem
    · cases he
      exact ⟨hne, hset⟩
    · exact ih hmem
  | detached y _ _ ih =>
    rcases List.mem_append.1 hmem with hmem | hmem
    · simp [mem_sheddingEvents] at hmem
    · exact ih hmem

theorem detaching_of_mem (h : RepairLog log) {x c : NodeId} (hmem : .edgeRemoved x c ∈ log) :
    ∃ ds, (x, ds) ∈ log.filterMap Event.detaching? := by
  induction h with
  | nil => cases hmem
  | retyped y _ _ _ ih =>
    obtain ⟨ds, hds⟩ := ih ((List.mem_cons.1 hmem).resolve_left (by simp))
    exact ⟨ds, hds⟩
  | @detached y ds log _ _ ih =>
    rw [List.filterMap_append, filterMap_detaching?_shedding]
    rcases List.mem_append.1 hmem with hmem | hmem
    · rcases (mem_sheddingEvents y ds).1 hmem with ⟨d, -, he⟩ | he
      · cases he
        exact ⟨ds, List.mem_append_left _ (List.mem_singleton_self _)⟩
      · cases he
    · obtain ⟨ds', hds⟩ := ih hmem
      exact ⟨ds', List.mem_append_right _ hds⟩

theorem countP_edgeRemoved (h : RepairLog log) : log.countP (·.topic = .edgeRemoved) =
    ((log.filterMap Event.detaching?).map (·.2.length)).sum := by
  induction h with
  | nil => rfl
  | retyped x _ _ _ ih =>
    rw [List.countP_cons_of_neg (by simp [Event.topic]), List.filterMap_cons_none rfl, ih]
  | @detached x ds log _ _ ih =>
    rw [List.countP_append, countP_edgeRemoved_shedding, List.filterMap_append,
      filterMap_detaching?_shedding, List.map_append, List.sum_append, ih, List.map_singleton,
      List.sum_singleton]

end RepairLog

namespace Graph

def unsetCount (g : Graph) : Nat := #{x ∈ g.keys | g.role x = .unset}

section
variable {g h : Graph} {id : NodeId} {role : Role}

theorem unsetCount_congr (hids : h.ids = g.ids) (hrole : ∀ x, h.role x = g.role x) :
    h.unsetCount = g.unsetCount := by
  simp only [unsetCount, keys, hids, hrole]

theorem unsetCount_setRole (hk : g.contains id = true) (hrole : role ≠ .unset) :
    (g.setRole id role).unsetCount + (if g.role id = .unset then 1 else 0) = g.unsetCount := by
  have hkeys : (g.setRole id role).keys = g.keys := by simp [keys]
  have hother : {x ∈ g.keys | (g.setRole id role).role x = .unset} =
      {x ∈ g.keys | g.role x = .unset}.erase id := by
    ext x
    by_cases hx : x = id <;> simp [role_setRole, hx, hk, hrole]
  rw [unsetCount, unsetCount, hkeys, hother]
  split_ifs with hunset
  · exact card_erase_add_one (mem_filter.2 ⟨mem_keys.2 hk, hunset⟩)
  · rw [erase_eq_of_notMem (by simp [hunset]), Nat.add_zero]

theorem unsetCount_recast (hk : g.contains id = true) (hrole : role ≠ .unset) :
    (g.recast id role).unsetCount + (if g.role id = .unset then 1 else 0) = g.unsetCount := by
  by_cases hsame : g.role id = role
  · rw [recast, if_pos hsame, if_neg (hsame.trans_ne hrole), Nat.add_zero]
  · rw [recast, if_neg hsame]
    exact unsetCount_setRole hk hrole

theorem card_newly_set (hids : h.ids = g.ids)
    (hkept : ∀ x, h.role x = .unset → g.role x = .unset) :
    #{x ∈ g.keys | g.role x = .unset ∧ h.role x ≠ .unset} + h.unsetCount = g.unsetCount := by
  have hkeys : h.keys = g.keys := by simp only [keys, hids]
  have hstill : {x ∈ g.keys | h.role x = .unset} =
      {x ∈ {x ∈ g.keys | g.role x = .unset} | ¬ h.role x ≠ .unset} := by
    ext x
    simp only [mem_filter, not_not, and_assoc]
    exact ⟨fun hx => ⟨hx.1, hkept x hx.2, hx.2⟩, fun hx => ⟨hx.1, hx.2.2⟩⟩
  rw [unsetCount, hkeys, hstill, ← filter_filter, card_filter_add_card_filter_not, unsetCount]

end

end Graph

namespace Pass

/-- The announcements on the way from one state of a pass to another account for it. -/
structure Accounts (p : Pass Graph) (log : List Event) (q : Pass Graph) : Prop where
  repairs : RepairLog log
  /-- Every edge that was counted was announced. -/
  detached : q.stats.edgesDetached = p.stats.edgesDetached + log.countP (·.topic = .edgeRemoved)
  /-- Every role that was written was announced, or was the first one of its card. -/
  writes : q.stats.typeWrites + q.graph.unsetCount =
    p.stats.typeWrites + log.countP Event.isRetyping + p.graph.unsetCount
  /-- A card has its role as before, and nothing is said of it, or else a role to which the
  announced ones lead, from the role before if there was one. -/
  roles : ∀ x, q.graph.role x = p.graph.role x ∧ log.filterMap (Event.retyping? x) = [] ∨
    q.graph.role x ≠ .unset ∧ ∃ r, (p.graph.role x ≠ .unset → r = p.graph.role x) ∧
      r.Path (log.filterMap (Event.retyping? x)) (q.graph.role x)
  /-- A card sheds support at most once, since it has one card left then. -/
  once : ((log.filterMap Event.detaching?).map (·.1)).Nodup
  crowded : ∀ d ∈ log.filterMap Event.detaching?,
    1 < (p.graph.children d.1).length ∧ (q.graph.children d.1).length ≤ 1
  shrinks : ∀ x, (q.graph.children x).length ≤ (p.graph.children x).length

section
variable {p mid q : Pass Graph} {log log' : List Event} {id : NodeId} {role : Role}
  {origin : Option NodeId} {force : Bool}

theorem accounts_of_same (hgraph : q.graph = p.graph)
    (hwrites : q.stats.typeWrites = p.stats.typeWrites)
    (hdetached : q.stats.edgesDetached = p.stats.edgesDetached) : Accounts p [] q where
  repairs := .nil
  detached := hdetached
  writes := by rw [hgraph, hwrites, List.countP_nil, Nat.add_zero]
  roles x := .inl ⟨by rw [hgraph], rfl⟩
  once := List.nodup_nil
  crowded := by simp
  shrinks x := by rw [hgraph]

theorem Accounts.trans (h : Accounts p log mid) (h' : Accounts mid log' q) :
    Accounts p (log ++ log') q where
  repairs := h.repairs.append h'.repairs
  detached := by
    rw [List.countP_append, h'.detached, h.detached, Nat.add_assoc]
  writes := by
    have hfirst := h.writes
    have hthen := h'.writes
    rw [List.countP_append]
    omega
  roles x := by
    rw [List.filterMap_append]
    rcases h'.roles x with ⟨hsame, hnone⟩ | ⟨hset, r, hr, hpath⟩
    · rw [hsame, hnone, List.append_nil]
      exact h.roles x
    · right
      rcases h.roles x with ⟨hsame, hnone⟩ | ⟨hset', r', hr', hpath'⟩
      · rw [hnone, List.nil_append, ← hsame]
        exact ⟨hset, r, hr, hpath⟩
      · rw [hr hset'] at hpath
        exact ⟨hset, r', hr', hpath'.append hpath⟩
  once := by
    rw [List.filterMap_append, List.map_append, List.nodup_append]
    refine ⟨h.once, h'.once, fun x hx y hy => ?_⟩
    rintro rfl
    obtain ⟨d, hd, rfl⟩ := List.mem_map.1 hx
    obtain ⟨e, he, hsame⟩ := List.mem_map.1 hy
    have hone := (h.crowded d hd).2
    have hmany := (h'.crowded e he).1
    rw [hsame] at hmany
    omega
  crowded d hd := by
    rw [List.filterMap_append] at hd
    rcases List.mem_append.1 hd with hd | hd
    · exact ⟨(h.crowded d hd).1, le_trans (h'.shrinks d.1) (h.crowded d hd).2⟩
    · exact ⟨lt_of_lt_of_le (h'.crowded d hd).1 (h.shrinks d.1), (h'.crowded d hd).2⟩
  shrinks x := le_trans (h'.shrinks x) (h.shrinks x)

theorem Accounts.path (h : Accounts p log q) (x : NodeId) :
    ∃ r, (p.graph.role x ≠ .unset → r = p.graph.role x) ∧
      r.Path (log.filterMap (Event.retyping? x)) (q.graph.role x) := by
  rcases h.roles x with ⟨hsame, hnone⟩ | ⟨-, hpath⟩
  · rw [hnone, hsame]
    exact ⟨_, fun _ => rfl, rfl⟩
  · exact hpath

theorem Accounts.unset_before (h : Accounts p log q) {x : NodeId}
    (hx : q.graph.role x = .unset) : p.graph.role x = .unset := by
  rcases h.roles x with ⟨hsame, -⟩ | ⟨hset, -⟩
  · exact hsame.symm.trans hx
  · exact absurd hx hset

theorem filterMap_detaching?_recastEvents (before : Role) :
    (recastEvents id before role).filterMap Event.detaching? = [] := by
  rw [recastEvents]
  split_ifs <;> rfl

theorem accounts_recast (hk : p.graph.contains id = true) (hrole : role ≠ .unset) :
    Accounts p (recastEvents id (p.graph.role id) role) (p.recast id role) where
  repairs := by
    rw [recastEvents]
    split_ifs with h
    · exact .retyped id h.1 h.2 .nil
    · exact .nil
  detached := by
    rw [edgesDetached_recast, recastEvents]
    split_ifs <;> rfl
  writes := by
    have hcount := Graph.unsetCount_recast hk hrole
    have hretyping : (recastEvents id (p.graph.role id) role).countP Event.isRetyping =
        if p.graph.role id ≠ role ∧ p.graph.role id ≠ .unset then 1 else 0 := by
      rw [recastEvents]
      split_ifs <;> rfl
    rw [graph_recast, typeWrites_recast, hretyping]
    by_cases hsame : p.graph.role id = role
    · rw [if_neg (hsame.trans_ne hrole)] at hcount
      rw [if_pos hsame, if_neg fun h => h.1 hsame]
      omega
    · by_cases hunset : p.graph.role id = .unset
      · rw [if_pos hunset] at hcount
        rw [if_neg hsame, if_neg fun h => h.2 hunset]
        omega
      · rw [if_neg hunset] at hcount
        rw [if_neg hsame, if_pos ⟨hsame, hunset⟩]
        omega
  roles x := by
    rw [graph_recast]
    by_cases hx : x = id
    · subst hx
      rw [p.graph.role_recast_self x role hk, recastEvents]
      by_cases hsame : p.graph.role x = role
      · exact .inl ⟨hsame.symm, by rw [if_neg fun h => h.1 hsame]; rfl⟩
      · refine .inr ⟨hrole, ?_⟩
        by_cases hunset : p.graph.role x = .unset
        · rw [if_neg fun h => h.2 hunset]
          exact ⟨role, fun h => absurd hunset h, rfl⟩
        · rw [if_pos ⟨hsame, hunset⟩]
          refine ⟨p.graph.role x, fun _ => rfl, ?_⟩
          simp [Event.retyping?, Role.Path]
    · refine .inl ⟨p.graph.role_recast_of_ne id role x hx, ?_⟩
      rw [recastEvents]
      split_ifs
      · simp [Event.retyping?, Ne.symm hx]
      · rfl
  once := by
    rw [filterMap_detaching?_recastEvents]
    exact List.nodup_nil
  crowded := by
    rw [filterMap_detaching?_recastEvents]
    simp
  shrinks x := by rw [graph_recast, Graph.children_recast]

theorem accounts_shed {cut : List NodeId} (hgraph : q.graph = p.graph.shed id cut)
    (hwrites : q.stats.typeWrites = p.stats.typeWrites)
    (hdetached : q.stats.edgesDetached = p.stats.edgesDetached + cut.length)
    (hcut : cut ≠ [] → 1 < (p.graph.children id).length ∧ (q.graph.children id).length ≤ 1) :
    Accounts p (cut.map (.edgeRemoved id) ++ cutEvents id (.ok cut)) q := by
  cases cut with
  | nil => exact accounts_of_same (hgraph.trans (Graph.shed_nil _ _)) hwrites hdetached
  | cons c cs =>
    have hlog : (c :: cs).map (.edgeRemoved id) ++ cutEvents id (.ok (c :: cs)) =
        sheddingEvents id (c :: cs) := rfl
    have hunset : q.graph.unsetCount = p.graph.unsetCount :=
      Graph.unsetCount_congr (by rw [hgraph, Graph.ids_shed])
        fun x => by rw [hgraph, Graph.role_shed]
    rw [hlog]
    refine ⟨?_, ?_, ?_, fun x => .inl ⟨?_, filterMap_retyping?_shedding _ _ x⟩, ?_, ?_,
      fun x => ?_⟩
    · rw [← List.append_nil (sheddingEvents id (c :: cs))]
      exact .detached id (List.cons_ne_nil c cs) .nil
    · rw [countP_edgeRemoved_shedding, hdetached]
    · rw [countP_isRetyping_shedding, hwrites, hunset, Nat.add_zero]
    · rw [hgraph, Graph.role_shed]
    · rw [filterMap_detaching?_shedding]
      exact List.nodup_singleton id
    · rw [filterMap_detaching?_shedding]
      exact List.forall_mem_singleton.2 (hcut (List.cons_ne_nil c cs))
    · rw [hgraph, Graph.children_shed]
      split_ifs
      · exact List.length_filter_le _ _
      · exact le_rfl

theorem accounts_enter (hg : p.graph.WellFormed) (hrole : role ≠ .unset) {more : List Task}
    (h : enter id role origin force p = ⟨q, log, .ok more⟩) : Accounts p log q := by
  rcases enter_cases hg h with ⟨rfl, rfl⟩ | ⟨-, rfl, rfl⟩
  · exact accounts_of_same rfl rfl rfl
  · -- the role comes first, and then the support goes
    refine (accounts_recast (entered_of_enter h).1 hrole).trans (accounts_shed ?_ ?_ ?_ ?_)
    · rw [graph_recast, Graph.adopt]
    · rw [typeWrites_recast]
    · rw [edgesDetached_recast]
    · intro hcut
      have hmany : role = .interpretation ∧ 1 < (p.graph.children id).length := by
        by_contra hfit
        exact hcut (if_neg hfit)
      rw [graph_recast, Graph.children_recast]
      refine ⟨hmany.2, ?_⟩
      change ((p.graph.adopt id role origin).children id).length ≤ 1
      rw [hg.children_adopt_self, hmany.1]
      exact length_retained_interpretation_le origin _

theorem Clears.accounts {agenda : List Task} (h : Clears p agenda log q)
    (hg : p.graph.WellFormed) : Accounts p log q := by
  induction h with
  | done => exact accounts_of_same rfl rfl rfl
  | skip _ _ _ ih => exact ih hg
  | visit hdue _ hperform _ _ hturn _ ih =>
    refine Accounts.trans ?_ (ih (hturn.wellFormed hg))
    cases hdue with
    | read | claim | ground | settle => exact accounts_enter hg (by decide) hperform

end

end Pass

namespace Graph

/-- The counters and the announcements of a pass account for every change, also where the pass
fails. They are groups of repairs, at most one group of lost support for each card; the edges
detached are those that went, those announced and those named; the roles announced of a card lead
from the role it had, if any, to the role it has; and what else was written are first roles. -/
theorem propagate_accounts {g : Graph} (hg : g.WellFormed) (id : NodeId) {role : Role}
    (hrole : role ≠ .unset) (origin : Option NodeId) (force : Bool) :
    let o := propagate id role origin force g
    RepairLog o.events ∧
    ((o.events.filterMap Event.detaching?).map (·.1)).Nodup ∧
    (∀ x before after, .notice (.typeChanged x before after) ∈ o.events →
      before ≠ after ∧ before ≠ .unset) ∧
    (∀ x, ∃ r, (g.role x ≠ .unset → r = g.role x) ∧
      r.Path (o.events.filterMap (Event.retyping? x)) (o.state.role x)) ∧
    ∃ stats, o.result = (if g.contains id = true then .ok stats else .error (.nodeNotFound id)) ∧
      stats.edgesDetached + o.state.edgeCount = g.edgeCount ∧
      stats.edgesDetached = o.events.countP (·.topic = .edgeRemoved) ∧
      stats.edgesDetached = ((o.events.filterMap Event.detaching?).map (·.2.length)).sum ∧
      stats.typeWrites = o.events.countP Event.isRetyping +
        #{x ∈ g.keys | g.role x = .unset ∧ o.state.role x ≠ .unset} := by
  intro o
  cases hk : g.contains id with
  | false =>
    rw [show o = _ from propagate_unknown hk role origin force]
    exact ⟨.nil, List.nodup_nil, by simp, fun x => ⟨g.role x, fun _ => rfl, rfl⟩, {}, by simp⟩
  | true =>
    obtain ⟨stats, hok⟩ := propagate_succeeds hg hk role origin force
    have hchanges := honest_propagate id role origin force g hg
    have hannounced := announces_propagate id role origin force g
    obtain ⟨p, q, log₁, log₂, more, henter, hclears, -, heq⟩ := propagate_of_ok hok
    obtain ⟨-, -, writes, -, hentered⟩ := Pass.entered_of_enter henter
    have haccounts := (Pass.accounts_enter (p := { graph := g }) hg hrole henter).trans
      (hclears.accounts (hentered.wellFormed hg))
    have hids : q.graph.ids = g.ids := hclears.ids.trans hentered.ids
    rw [show o = _ from heq]
    rw [heq] at hchanges hannounced
    generalize log₁ ++ log₂ = log at hchanges hannounced haccounts
    have hdetached : q.stats.edgesDetached = log.countP (·.topic = .edgeRemoved) :=
      haccounts.detached.trans (Nat.zero_add _)
    have hadded : log.countP (·.topic = .edgeAdded) = 0 := by
      refine List.countP_eq_zero.2 fun e he => ?_
      have hrepair := hannounced e he
      cases e <;> simp [Event.IsRepair, Event.topic] at hrepair ⊢
    have hedges := hchanges.edgeCount hg
    rw [hadded, ← hdetached] at hedges
    have hnewly := card_newly_set hids fun x hx => haccounts.unset_before hx
    have hwrites := haccounts.writes
    refine ⟨haccounts.repairs, haccounts.once,
      fun x before after => haccounts.repairs.retyping_of_mem, haccounts.path, q.stats, rfl, ?_,
      hdetached, ?_, ?_⟩
    · rw [Nat.add_comm]
      exact hedges
    · rw [hdetached, haccounts.repairs.countP_edgeRemoved]
    · dsimp only at hwrites ⊢
      omega

theorem propagate_accounts_tangle :
    let o := propagate ⟨"q"⟩ .assertion none true tangle
    tangle.WellFormed ∧ Role.assertion ≠ .unset ∧
      o.result = .ok { calls := 7, typeWrites := 5, edgesDetached := 1 } ∧
      1 + o.state.edgeCount = tangle.edgeCount ∧
      o.events.countP (·.topic = .edgeRemoved) = 1 ∧
      o.events.countP Event.isRetyping +
        #{x ∈ tangle.keys | tangle.role x = .unset ∧ o.state.role x ≠ .unset} = 5 := by
  intro o
  have hok : o.result = .ok { calls := 7, typeWrites := 5, edgesDetached := 1 } := by decide
  obtain ⟨-, -, -, -, stats, hresult, hedges, hremoved, -, hwrites⟩ :=
    propagate_accounts tangle_wellFormed ⟨"q"⟩ (by decide : Role.assertion ≠ .unset) none true
  rw [if_pos (by decide), hok] at hresult
  cases hresult
  exact ⟨tangle_wellFormed, by decide, hok, hedges, hremoved.symm, hwrites.symm⟩

end Graph

end ArgumentMap
