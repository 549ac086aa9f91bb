import ArgumentMap.Proofs.Pass.Accounts
import ArgumentMap.Proofs.Pass.Frame

/-!
# The support that an interpretation keeps

A card that becomes an interpretation sheds all its support but one card in the first entry of the
pass. From then on it has one card below it, and whoever has only one card left sheds no more,
however often the pass comes back to it.
-/

namespace ArgumentMap

namespace Event

def shed? (x : NodeId) : Event → Option NodeId
  | edgeRemoved p c => if p = x then some c else none
  | _ => none

theorem shed?_eq_some_iff {x c : NodeId} {e : Event} :
    e.shed? x = some c ↔ e = .edgeRemoved x c := by
  cases e with
  | edgeRemoved p d => simp [shed?]
  | _ => simp [shed?]

theorem count_edgeRemoved (x c : NodeId) (log : List Event) :
    log.count (.edgeRemoved x c) = (log.filterMap (shed? x)).count c := by
  induction log with
  | nil => rfl
  | cons e log ih =>
    by_cases he : e = .edgeRemoved x c
    · have hshed : e.shed? x = some c := shed?_eq_some_iff.2 he
      rw [List.filterMap_cons_some hshed, he, List.count_cons_self, List.count_cons_self, ih]
    · rw [List.count_cons_of_ne he, ih]
      cases hshed : e.shed? x with
      | none => rw [List.filterMap_cons_none hshed]
      | some d =>
        have hd : d ≠ c := fun hdc => he (shed?_eq_some_iff.1 (hdc ▸ hshed))
        rw [List.filterMap_cons_some hshed, List.count_cons_of_ne hd]

end Event

namespace Pass

section
variable {p q : Pass Graph} {v keep : NodeId} {origin : Option NodeId} {force : Bool}

theorem filterMap_shed?_recastEvents (id : NodeId) (before role : Role) :
    (recastEvents id before role).filterMap (Event.shed? v) = [] := by
  rw [recastEvents]
  split_ifs <;> rfl

theorem filterMap_shed?_cut (v : NodeId) (cut : List NodeId) :
    (cut.map (Event.edgeRemoved v) ++ cutEvents v (.ok cut)).filterMap (Event.shed? v) = cut := by
  have hedges : (cut.map (Event.edgeRemoved v)).filterMap (Event.shed? v) = cut := by
    simp [List.filterMap_map, Function.comp_def, Event.shed?]
  have hnotice : (cutEvents v (.ok cut)).filterMap (Event.shed? v) = [] := by
    cases cut <;> rfl
  rw [List.filterMap_append, hedges, hnotice, List.append_nil]

theorem enter_keeping (hg : p.graph.WellFormed) (hv : p.graph.persists v = false)
    (hstart : p.graph.role v = .interpretation → force = true) (hkeep : keep ∈ p.graph.children v)
    (hkept : kept origin (p.graph.children v) = [keep]) {log : List Event} {more : List Task}
    (h : enter v .interpretation origin force p = ⟨q, log, .ok more⟩) :
    q.graph.children v = [keep] ∧
      log.filterMap (Event.shed? v) = (p.graph.children v).filter (· ≠ keep) := by
  have hsupport := List.ne_nil_of_mem hkeep
  rw [enter_taking_of_wellFormed hg (Graph.contains_of_mem_children hkeep) hv hstart] at h
  cases h
  refine ⟨?_, ?_⟩
  · rw [hg.children_adopt_self, retained_interpretation origin hsupport, hkept]
  · rw [List.filterMap_append, filterMap_shed?_recastEvents, List.nil_append,
      filterMap_shed?_cut, surplus_interpretation hkeep hkept]

theorem Clears.keeping {agenda : List Task} {log : List Event} (h : Clears p agenda log q)
    (hg : p.graph.WellFormed) (hone : p.graph.children v = [keep]) :
    q.graph.children v = [keep] ∧ log.filterMap (Event.shed? v) = [] := by
  refine ⟨?_, List.filterMap_eq_nil_iff.2 fun e he => ?_⟩
  · rcases (h.trims hg).children v with hsame | ⟨c, hc, hleft⟩
    · exact hsame.trans hone
    · rw [hone] at hc
      rw [hleft, List.mem_singleton.1 hc]
  · cases hshed : e.shed? v with
    | none => rfl
    | some c =>
      rw [Event.shed?_eq_some_iff.1 hshed] at he
      have haccounts := h.accounts hg
      obtain ⟨ds, hds⟩ := haccounts.repairs.detaching_of_mem he
      have hmany := (haccounts.crowded _ hds).1
      simp [hone] at hmany

end

end Pass

namespace Graph

/-- A card of the user's own with support that a pass makes an interpretation, or forces to be one,
has one card of it left at the end: the origin of the pass if it is among the support, and
otherwise the first. Each of the others is still in the graph, no longer knows the card, and was
announced to be taken away once, in the order in which they stood. -/
theorem propagate_keeps {g : Graph} (hg : g.WellFormed) {v : NodeId} (hv : g.persists v = false)
    (hsupport : g.children v ≠ []) {force : Bool}
    (hstart : g.role v = .interpretation → force = true) (origin : Option NodeId) :
    let o := propagate v .interpretation origin force g
    ∃ keep, (∀ c, origin = some c → c ∈ g.children v → keep = c) ∧
      ((∀ c, origin = some c → c ∉ g.children v) → (g.children v).head? = some keep) ∧
      (∃ stats, o.result = .ok stats) ∧ o.state.children v = [keep] ∧
      (∀ c ∈ g.children v, c ≠ keep → v ∉ o.state.parents c ∧ o.state.contains c = true ∧
        o.events.count (.edgeRemoved v c) = 1) ∧
      o.events.filterMap (Event.shed? v) = (g.children v).filter (· ≠ keep) := by
  intro o
  obtain ⟨keep, hkeep, hkept⟩ := Pass.kept_eq_singleton origin hsupport
  obtain ⟨stats, hok⟩ :=
    propagate_succeeds hg (contains_of_mem_children hkeep) .interpretation origin force
  have hw := propagate_wellFormed hg v .interpretation origin force
  have hcontains := propagate_contains hg v .interpretation origin force
  obtain ⟨p, q, log₁, log₂, more, henter, hclears, -, heq⟩ := propagate_of_ok hok
  obtain ⟨-, -, writes, -, hentered⟩ := Pass.entered_of_enter henter
  obtain ⟨hfirst, hcut⟩ :=
    Pass.enter_keeping (p := { graph := g }) hg hv hstart hkeep hkept henter
  obtain ⟨hlast, hquiet⟩ := hclears.keeping (hentered.wellFormed hg) hfirst
  rw [show o = _ from heq]
  rw [heq] at hw hcontains
  have hlog : (log₁ ++ log₂).filterMap (Event.shed? v) = (g.children v).filter (· ≠ keep) := by
    rw [List.filterMap_append, hcut, hquiet, List.append_nil]
  refine ⟨keep, fun c ho hc => ?_, fun hforeign => ?_, ⟨q.stats, rfl⟩, hlast,
    fun c hc hne => ⟨fun hup => ?_, ?_, ?_⟩, hlog⟩
  · rw [ho, Pass.kept_of_mem hc] at hkept
    exact (List.singleton_inj.1 hkept).symm
  · rw [Pass.kept_of_foreign hforeign] at hkept
    cases hhead : (g.children v).head? with
    | none => simp [hhead] at hkept
    | some c => simpa [hhead] using hkept
  · have hmem : c ∈ q.graph.children v := hw.mem_children_iff.2 hup
    rw [hlast] at hmem
    exact hne (List.mem_singleton.1 hmem)
  · exact (hcontains c).trans (hg.contains_child hc)
  · rw [Event.count_edgeRemoved, hlog]
    have hnodup := (hg.nodup_children_of v).filter (· ≠ keep)
    exact List.count_eq_one_of_mem hnodup (List.mem_filter.2 ⟨hc, by simpa using hne⟩)

theorem propagate_keeps_tangle :
    let o := propagate ⟨"p"⟩ .interpretation (some ⟨"b"⟩) false tangle
    tangle.WellFormed ∧ tangle.persists ⟨"p"⟩ = false ∧
      tangle.children ⟨"p"⟩ = [⟨"a"⟩, ⟨"b"⟩] ∧ tangle.role ⟨"p"⟩ = .unset ∧
      o.state.children ⟨"p"⟩ = [⟨"b"⟩] ∧ ⟨"p"⟩ ∉ o.state.parents ⟨"a"⟩ ∧
      o.events.count (.edgeRemoved ⟨"p"⟩ ⟨"a"⟩) = 1 := by
  intro o
  have hpers : tangle.persists ⟨"p"⟩ = false := by decide
  have hsupport : tangle.children ⟨"p"⟩ = [⟨"a"⟩, ⟨"b"⟩] := by decide
  have hrole : tangle.role ⟨"p"⟩ = .unset := by decide
  have hstart : tangle.role ⟨"p"⟩ = .interpretation → false = true := by simp [hrole]
  obtain ⟨keep, horigin, -, -, hone, hothers, -⟩ :=
    propagate_keeps tangle_wellFormed hpers (by simp [hsupport]) hstart (some ⟨"b"⟩)
  obtain rfl : keep = ⟨"b"⟩ := horigin ⟨"b"⟩ rfl (by simp [hsupport])
  obtain ⟨hup, -, hcount⟩ := hothers ⟨"a"⟩ (by simp [hsupport]) (by decide)
  exact ⟨tangle_wellFormed, hpers, hsupport, hrole, hone, hup, hcount⟩

end Graph

end ArgumentMap
