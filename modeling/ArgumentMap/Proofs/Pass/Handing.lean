import ArgumentMap.Proofs.Pass.Frame
import ArgumentMap.Proofs.Pass.Settled

/-!
# Handing on the role of a persisted card

A persisted card is not written, so a pass that starts from it only asks its neighbours to fit
the role that it ought to have. The role that it was to be given, and at whose instance, make no
difference. Though the pass may take dependents away from the card, what the card asked holds of
those that it has left.
-/

namespace ArgumentMap

namespace Pass

section
variable {p : Pass Graph} {id : NodeId} {role role' : Role} {origin origin' : Option NodeId}
  {force force' : Bool}

theorem enter_hands (hp : p.graph.persists id = true) (role : Role) (origin : Option NodeId)
    (force : Bool) : enter id role origin force p = ⟨p.countCall, [],
      .ok (if force then
        asks id (p.graph.children id) (p.graph.parents id) (p.graph.legalRole id) else [])⟩ := by
  obtain ⟨n, hf⟩ := Graph.contains_iff_find?.1 (Graph.contains_of_persists hp)
  rw [Graph.persists_of_find? hf] at hp
  rw [enter_persisted hf hp, Graph.children_of_find? hf, Graph.parents_of_find? hf,
    Graph.legalRole_of_find? hf]

theorem run_congr (h : enter id role origin force p = enter id role' origin' force' p) :
    run id role origin force p = run id role' origin' force' p := by
  obtain ⟨fewer, hfewer⟩ := Nat.exists_eq_add_of_le' (one_le_passBound p.graph)
  rw [run_apply, run_apply, hfewer]
  cases he : enter id role origin force p with
  | mk q log result =>
    rw [he] at h
    cases result with
    | error e => rw [work_enter_of_error fewer he, work_enter_of_error fewer h.symm]
    | ok more => rw [work_enter_of_ok fewer he, work_enter_of_ok fewer h.symm]

end

end Pass

namespace Graph

section
variable {g : Graph} {v : NodeId}

theorem propagate_unforced (hv : g.persists v = true) (role : Role) (origin : Option NodeId) :
    propagate v role origin false g = ⟨g, [], .ok { calls := 1 }⟩ := by
  have henter := Pass.enter_hands (p := { graph := g }) hv role origin false
  obtain ⟨fewer, hfewer⟩ := Nat.exists_eq_add_of_le' (Pass.one_le_passBound g)
  have hrun := Pass.run_apply { graph := g } v role origin false
  rw [hfewer, Pass.work_enter_of_ok fewer henter, if_neg (by decide), Pass.work_nil] at hrun
  exact propagate_of_run hrun

theorem propagate_handing_congr (hv : g.persists v = true) (role role' : Role)
    (origin origin' : Option NodeId) (force : Bool) :
    propagate v role origin force g = propagate v role' origin' force g := by
  have henter : Pass.enter v role origin force { graph := g } =
      Pass.enter v role' origin' force { graph := g } := by
    rw [Pass.enter_hands hv, Pass.enter_hands hv]
  rw [propagate_of_run (Pass.run_congr henter), propagate_of_run rfl]

theorem propagate_hands (hg : g.WellFormed) (hv : g.persists v = true) (role : Role)
    (origin : Option NodeId) :
    let h := (propagate v role origin true g).state
    ∃ T : NodeId → Prop, Pass.Follows T h [] ∧
      ∀ t ∈ Pass.asks v (g.children v) (g.parents v) (g.legalRole v),
        (∀ x c, t ≠ .lower x c .source false) → t.Open h → t.Met T h := by
  have hk := contains_of_persists hv
  obtain ⟨stats, hok⟩ := propagate_succeeds hg hk role origin true
  obtain ⟨p, q, log₁, log₂, more, henter, hclears, -, heq⟩ := propagate_of_ok hok
  obtain ⟨-, -, writes, -, hentered⟩ := Pass.entered_of_enter henter
  obtain ⟨T, -, -, hmet, hf⟩ := hentered.follows_to_end hg hk hclears
  rw [Pass.enter_hands (p := { graph := g }) hv, Outcome.mk.injEq] at henter
  obtain ⟨-, -, hmore⟩ := henter
  cases hmore
  rw [heq]
  exact ⟨T, hf, hmet⟩

end

/-- A forced pass from a persisted card spreads nothing but the role that the card ought to have:
the role it was to be given and its origin make no difference, and the card stays as it is. The
dependents of a leaf read that leaf alone, and theirs are assertions. The dependents of any other
card are assertions, and below a card that ought to be an assertion itself, leaves are
interpretations. Without force nothing happens. -/
theorem propagate_persisted {g : Graph} (hg : g.WellFormed) {v : NodeId}
    (hv : g.persists v = true) (role : Role) (origin : Option NodeId) :
    propagate v role origin false g = ⟨g, [], .ok { calls := 1 }⟩ ∧
    let o := propagate v role origin true g
    (∀ role' origin', propagate v role' origin' true g = o) ∧
    (∃ stats, o.result = .ok stats) ∧
    o.state.role v = g.role v ∧ o.state.children v = g.children v ∧
    (g.children v = [] → ∀ p ∈ o.state.parents v, o.state.persists p = false →
      o.state.role p = .interpretation ∧ o.state.children p = [v] ∧
        ∀ q ∈ o.state.parents p, o.state.persists q = false → o.state.role q = .assertion) ∧
    (g.children v ≠ [] →
      (∀ p ∈ o.state.parents v, o.state.persists p = false → o.state.role p = .assertion) ∧
      (g.legalRole v = .assertion → ∀ c ∈ o.state.children v, o.state.persists c = false →
        o.state.children c = [] → o.state.role c = .interpretation)) := by
  refine ⟨propagate_unforced hv role origin, ?_⟩
  intro o
  have hk := contains_of_persists hv
  have hchildren : o.state.children v = g.children v :=
    (honest_propagate v role origin true g hg).children_of_persists hv
  have hparents : ∀ {p}, p ∈ o.state.parents v → p ∈ g.parents v :=
    fun hp => ((propagate_trims hg v role origin true).parents v).subset hp
  have hw : o.state.WellFormed := propagate_wellFormed hg v role origin true
  obtain ⟨T, hf, hmet⟩ := propagate_hands hg hv role origin
  refine ⟨fun role' origin' => propagate_handing_congr hv role' role origin' origin true,
    propagate_succeeds hg hk role origin true,
    (propagate_lasts g v role origin true).role hv, hchildren, fun hl p hp hpers => ?_,
    fun hl => ⟨fun p hp hpers => ?_, fun hlegal c hc hpers hleaf => ?_⟩⟩
  · have hasked : .raise p v .interpretation true ∈
        Pass.asks v (g.children v) (g.parents v) (g.legalRole v) := by
      rw [hl]
      exact Pass.read_mem_asks v _ _ (hparents hp)
    have hopen : (Task.raise p v .interpretation true).Open o.state :=
      ⟨hw.mem_children_iff.2 hp, hpers⟩
    obtain ⟨hrole, hread⟩ := hmet _ hasked (by simp) hopen
    obtain ⟨hT, hone⟩ := hread rfl
    have hsupport : o.state.children p ≠ [] := List.ne_nil_of_mem hopen.1
    exact ⟨hrole, hone, ((hf.settled hw hT).interpretation hsupport hrole).2⟩
  · have hasked := Pass.claim_mem_asks v _ hl (legalRole_of_support hl) (hparents hp)
    exact (hmet _ hasked (by simp) ⟨hw.mem_children_iff.2 hp, hpers⟩).1
  · have hasked : .lower v c .interpretation true ∈
        Pass.asks v (g.children v) (g.parents v) (g.legalRole v) := by
      rw [hlegal]
      exact Pass.ground_mem_asks v _ (hchildren ▸ hc)
    have hopen : (Task.lower v c .interpretation true).Open o.state :=
      ⟨hc, hw.contains_child hc, hpers, fun _ => rfl, fun _ => hleaf⟩
    exact hmet _ hasked (by simp) hopen

def excerpt : Graph where
  nodes :=
    [{ id := ⟨"s"⟩, persisted := true, parents := [⟨"p"⟩] },
      { id := ⟨"a"⟩, role := .interpretation, parents := [⟨"p"⟩] },
      { id := ⟨"p"⟩, role := .assertion, children := [⟨"a"⟩, ⟨"s"⟩], parents := [⟨"q"⟩] },
      { id := ⟨"q"⟩, role := .interpretation, children := [⟨"p"⟩] }]

theorem excerpt_wellFormed : excerpt.WellFormed := by
  constructor <;> decide

theorem propagate_persisted_excerpt :
    let o := propagate ⟨"s"⟩ .assertion none true excerpt
    excerpt.WellFormed ∧ excerpt.persists ⟨"s"⟩ = true ∧
      propagate ⟨"s"⟩ .source (some ⟨"q"⟩) true excerpt = o ∧
      o.state.role ⟨"s"⟩ = .unset ∧ o.state.parents ⟨"s"⟩ = [⟨"p"⟩] ∧
      o.state.role ⟨"p"⟩ = .interpretation ∧ o.state.children ⟨"p"⟩ = [⟨"s"⟩] ∧
      o.state.parents ⟨"p"⟩ = [⟨"q"⟩] ∧ o.state.role ⟨"q"⟩ = .assertion := by
  intro o
  have hpers : excerpt.persists ⟨"s"⟩ = true := by decide
  obtain ⟨-, hsame, -, hrole, -, hleaf, -⟩ :=
    propagate_persisted excerpt_wellFormed hpers .assertion none
  have hp : o.state.parents ⟨"s"⟩ = [⟨"p"⟩] := by decide
  have hq : o.state.parents ⟨"p"⟩ = [⟨"q"⟩] := by decide
  obtain ⟨hread, hone, hclaim⟩ := hleaf (by decide) ⟨"p"⟩ (by decide) (by decide)
  exact ⟨excerpt_wellFormed, hpers, hsame _ _, hrole, hp, hread, hone, hq,
    hclaim ⟨"q"⟩ (by decide) (by decide)⟩

end Graph

end ArgumentMap
