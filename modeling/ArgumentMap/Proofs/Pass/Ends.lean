import ArgumentMap.Proofs.Pass.Counters

/-!
# Every pass ends

A pass ends on every graph, and on a well-formed one it succeeds within bounds
that are linear in its cards and edges.
-/

namespace ArgumentMap

namespace Pass

variable {g g' : Graph} {id : NodeId} {role : Role} {origin : Option NodeId} {force : Bool}
  {writes : Nat} {more : List Task}

theorem sum_taskEntries_asks_le (cs ps : List NodeId) :
    ((asks id cs ps role).map Task.taskEntries).sum ≤ ps.length + cs.length := by
  have hdown : ((cs.map (Task.lower id · .source false)).map Task.taskEntries).sum = 0 := by
    simp [Function.comp_def, Task.taskEntries]
  by_cases hl : cs = []
  · rw [hl, asks_leaf, sum_taskEntries_raise]
    exact Nat.le_add_right _ _
  · cases role with
    | interpretation =>
      simp only [asks_interpretation id ps hl, List.map_append, List.sum_append,
        sum_taskEntries_raise, hdown]
      omega
    | assertion =>
      simp only [asks_assertion id ps hl, List.map_append, List.sum_append, sum_taskEntries_raise,
        sum_taskEntries_ground]
      omega
    | source => simp [asks_source id ps hl]
    | unset => simp [asks_unset id ps hl]

theorem bounded_asks {cs ps : List NodeId} (hn : ps.Nodup) : Bounded g (asks id cs ps role) := by
  have hone : ∀ x c, (asks id cs ps role).count (.raise x c .interpretation true) ≤ 1 := by
    intro x c
    by_cases hl : cs = []
    · rw [hl, asks_leaf]
      by_cases hc : c = id
      · have hinj : Function.Injective (Task.raise · id .interpretation true) :=
          fun a b hab => (Task.raise.inj hab).1
        rw [hc, List.count_map_of_injective _ _ hinj]
        exact List.nodup_iff_count_le_one.1 hn x
      · rw [List.count_eq_zero.2 (by simpa using fun _ => Ne.symm hc)]
        exact Nat.zero_le _
    · rw [List.count_eq_zero.2]
      · exact Nat.zero_le _
      · cases role with
        | interpretation => simp [asks_interpretation id _ hl]
        | assertion => simp [asks_assertion id _ hl]
        | source => simp [asks_source id _ hl]
        | unset => simp [asks_unset id _ hl]
  intro x c _
  have hcount := hone x c
  rw [forcings]
  split_ifs <;> omega

theorem Entered.writes_le (h : Entered g id role origin force g' writes more) : writes ≤ 1 := by
  cases h with
  | taking => split_ifs <;> omega
  | _ => omega

section
variable {p q : Pass Graph} {log : List Event}

theorem Clears.counts_le_of_claims (hg : g.WellFormed) (hp : p.graph.WellFormed)
    (hids : p.graph.ids = g.ids)
    (hparents : ∀ x, (p.graph.parents x).length ≤ (g.parents x).length)
    (hchildren : ∀ x, (p.graph.children x).length ≤ (g.children x).length)
    (h : Clears p ((g.parents id).map (.raise · id .assertion false)) log q) :
    q.stats.typeWrites ≤ p.stats.typeWrites + 2 * g.nodeCount ∧
      q.stats.calls ≤ p.stats.calls + 5 * g.edgeCount := by
  have hbounded : Bounded p.graph ((g.parents id).map (Task.raise · id .assertion false)) := by
    intro x c _
    rw [forcings, List.count_eq_zero.2 (by simp)]
    split_ifs <;> omega
  obtain ⟨hwrites, hcalls⟩ := h.counts_le hg hp hids hparents hchildren
    (fun _ => Task.steady_of_mem_raises) hbounded
  have hlen := hg.length_parents_le id
  rw [sum_taskEntries_raise] at hcalls
  exact ⟨hwrites, by omega⟩

theorem Clears.counts_le_of_entered (hg : g.WellFormed)
    (he : Entered g id role origin force p.graph writes more) (h : Clears p more log q) :
    q.stats.typeWrites ≤ p.stats.typeWrites + 2 * g.nodeCount + 1 ∧
      q.stats.calls ≤ p.stats.calls + 8 * g.edgeCount := by
  have hp := he.wellFormed hg
  have hparents := fun x => (he.parents_sublist x).length_le
  have hchildren := fun x => (he.children_sublist x).length_le
  rcases he.steady_or_settle with hsteady | ⟨c, hc, hmore⟩
  · have hentries : (more.map Task.taskEntries).sum ≤
        (g.parents id).length + (g.children id).length := by
      rcases he.more_eq with rfl | ⟨cs, voice, rfl, -, hsub, -⟩
      · exact Nat.zero_le _
      · have hle := hsub.length_le
        exact le_trans (sum_taskEntries_asks_le cs _) (by omega)
    have hbounded : Bounded p.graph more := by
      rcases he.more_eq with rfl | ⟨cs, voice, rfl, -⟩
      · intro x c _
        rw [forcings, List.count_nil]
        split_ifs <;> omega
      · exact bounded_asks (hg.nodup_parents_of id)
    obtain ⟨hwrites, hcalls⟩ := h.counts_le hg hp he.ids hparents hchildren hsteady hbounded
    have hup := hg.length_parents_le id
    have hdown := g.length_children_le id
    exact ⟨by omega, by omega⟩
  · -- The card below the interpretation is entered first, or not at all.
    have hedge : 1 ≤ g.edgeCount := le_trans (List.length_pos_of_mem hc) (g.length_children_le id)
    subst hmore
    cases h with
    | skip _ _ h =>
      obtain ⟨hwrites, hcalls⟩ := h.counts_le_of_claims hg hp he.ids hparents hchildren
      exact ⟨by omega, by omega⟩
    | visit _ _ _ hcalls hwrites hturn h =>
      have hids := hturn.ids.trans he.ids
      have hparents' := fun x => le_trans (hturn.parents_sublist x).length_le (hparents x)
      have hchildren' := fun x => le_trans (hturn.children_sublist x).length_le (hchildren x)
      have hp' := hturn.wellFormed hp
      obtain ⟨rfl, hone⟩ := hturn.more_of_settle
      obtain ⟨hwrites', hcalls'⟩ := h.counts_le_of_claims hg hp' hids hparents' hchildren'
      exact ⟨by omega, by omega⟩

end

end Pass

namespace Graph

/-- Every pass ends: from the bound on the steps on, their number makes no
difference and no task is left, and that is what a pass comes to. On a well-formed
graph it succeeds from every card within the stated counts. -/
theorem propagate_ends (g : Graph) (id : NodeId) (role : Role) (origin : Option NodeId)
    (force : Bool) :
    (∃ o : Outcome (Pass Graph) (List Task),
      (∀ steps, g.passBound ≤ steps →
        Pass.work steps [.enter id role origin force] { graph := g } = o) ∧
      (∀ left, o.result = .ok left → left = []) ∧
      propagate id role origin force g =
        ⟨o.state.graph, o.events, o.result.map fun _ => o.state.stats⟩) ∧
    (g.WellFormed → g.contains id = true → ∃ stats,
      (propagate id role origin force g).result = .ok stats ∧
        stats.typeWrites ≤ 2 * g.nodeCount + 2 ∧ stats.calls ≤ 8 * g.edgeCount + 1) := by
  refine ⟨?_, ?_⟩
  · obtain ⟨o, hsame, hdone⟩ := Pass.work_enter_halts { graph := g } id role origin force
    refine ⟨o, hsame, hdone, ?_⟩
    have hrun := Pass.run_apply { graph := g } id role origin force
    rw [hsame _ (Nat.le_refl _)] at hrun
    rw [propagate_of_run hrun]
    obtain ⟨pass, log, result⟩ := o
    cases result <;> rfl
  · intro hg hc
    obtain ⟨stats, hok⟩ := propagate_succeeds hg hc role origin force
    obtain ⟨p, q, log₁, log₂, more, henter, hclears, rfl, -⟩ := propagate_of_ok hok
    obtain ⟨-, hcalls, writes, hwrites, hentered⟩ := Pass.entered_of_enter henter
    obtain ⟨hwrites', hcalls'⟩ := hclears.counts_le_of_entered hg hentered
    change p.stats.calls = 0 + 1 at hcalls
    change p.stats.typeWrites = 0 + writes at hwrites
    have hone := hentered.writes_le
    exact ⟨q.stats, hok, by omega, by omega⟩

theorem propagate_ends_tangle : tangle.WellFormed ∧ tangle.contains ⟨"q"⟩ = true ∧ ∃ stats,
    (propagate ⟨"q"⟩ .assertion none true tangle).result = .ok stats ∧
      stats.typeWrites ≤ 2 * 4 + 2 ∧ stats.calls ≤ 8 * 4 + 1 := by
  have hk : tangle.contains ⟨"q"⟩ = true := by decide
  have h := (propagate_ends tangle ⟨"q"⟩ .assertion none true).2 tangle_wellFormed hk
  exact ⟨tangle_wellFormed, hk, h⟩

end Graph

end ArgumentMap
