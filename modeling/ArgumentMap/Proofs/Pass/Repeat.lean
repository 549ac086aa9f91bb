import ArgumentMap.Proofs.Pass.Settled

/-!
# A pass repeated

Where everything asked was met, asking again changes nothing: each entry finds
its card in the role that it is to have, with no support to shed.
-/

namespace ArgumentMap

namespace Graph

theorem adopt_eq_self {g : Graph} {id : NodeId} {role : Role} {origin : Option NodeId}
    (hr : g.role id = role) (hs : Pass.surplus role origin (g.children id) = []) :
    g.adopt id role origin = g := by
  rw [adopt_of_surplus_eq_nil _ _ _ _ hs, recast, if_pos hr]

end Graph

namespace Pass

section
variable {p q : Pass Graph} {T : NodeId → Prop} {t : Task} {log : List Event}
  {more agenda : List Task}

theorem enter_again {id : NodeId} {role : Role} {origin : Option NodeId}
    (hg : p.graph.WellFormed) (hk : p.graph.contains id = true)
    (hp : p.graph.persists id = false) (hr : p.graph.role id = role)
    (hone : role = .interpretation → (p.graph.children id).length ≤ 1) :
    enter id role origin true p = ⟨p.countCall, [],
      .ok (asks id (p.graph.children id) (p.graph.parents id) (p.graph.role id))⟩ := by
  have hnone := surplus_of_fit hone origin
  have hsame := Graph.adopt_eq_self hr hnone
  rw [enter_taking_of_wellFormed hg hk hp fun _ => rfl, hnone, retained_of_fit hone, hsame, hr,
    if_pos rfl]
  simp [recastEvents, cutEvents, countCall]

theorem enter_idle_of_role {id : NodeId} {role : Role} {origin : Option NodeId}
    (hk : p.graph.contains id = true) (hp : p.graph.persists id = false)
    (hr : p.graph.role id = role) : enter id role origin false p = ⟨p.countCall, [], .ok []⟩ := by
  obtain ⟨n, hf⟩ := Graph.contains_iff_find?.1 hk
  rw [Graph.persists_of_find? hf] at hp
  rw [Graph.role_of_find? hf] at hr
  exact enter_idle hf hp hr origin

theorem perform_entry_of_met (hg : p.graph.WellFormed) (hf : Follows T p.graph [])
    (hd : t.Due p.graph) (ho : t.Open p.graph) (hm : t.Met T p.graph) :
    ∃ more, perform t.entry p = ⟨p.countCall, [], .ok more⟩ ∧
      ∀ s ∈ more, s.Open p.graph → s.Met T p.graph := by
  cases hd with
  | @read x c hc =>
    obtain ⟨hr, hone⟩ := hm
    obtain ⟨hT, hone⟩ := hone rfl
    have hk := Graph.contains_of_mem_children ho.1
    refine ⟨_, enter_again hg hk ho.2 hr fun _ => ?_, fun s hs => hf.met hT hs⟩
    rw [hone, List.length_singleton]
  | @claim x c hc =>
    exact ⟨[], enter_idle_of_role (Graph.contains_of_mem_children ho.1) ho.2 hm.1, by simp⟩
  | ground x c => exact ⟨[], enter_idle_of_role ho.2.1 ho.2.2.1 hm, by simp⟩
  | settle x c => exact ⟨[], enter_idle_of_role ho.2.1 ho.2.2.1 hm, by simp⟩

theorem Clears.quiet (h : Clears p agenda log q) (hg : p.graph.WellFormed)
    (hf : Follows T p.graph []) (hm : ∀ t ∈ agenda, t.Open p.graph → t.Met T p.graph) :
    log = [] ∧ q.graph = p.graph ∧ q.stats.typeWrites = p.stats.typeWrites ∧
      q.stats.edgesDetached = p.stats.edgesDetached ∧ p.stats.calls ≤ q.stats.calls := by
  induction h with
  | done p => exact ⟨rfl, rfl, rfl, rfl, Nat.le_refl _⟩
  | skip _ _ _ ih => exact ih hg hf fun t ht => hm t (List.mem_cons_of_mem _ ht)
  | @visit p p' q t rest more log log' writes hd ho hp _ _ _ _ ih =>
    obtain ⟨asked, hquiet, hasked⟩ :=
      perform_entry_of_met hg hf hd ho (hm t List.mem_cons_self ho)
    rw [hquiet, Outcome.mk.injEq] at hp
    obtain ⟨rfl, rfl, hmore⟩ := hp
    cases hmore
    obtain ⟨hlog, hgraph, hwrites, hdetached, hcalls⟩ := ih hg hf fun s hs => by
      rcases List.mem_append.1 hs with hs | hs
      · exact hasked s hs
      · exact hm s (List.mem_cons_of_mem t hs)
    change p.stats.calls + 1 ≤ q.stats.calls at hcalls
    exact ⟨hlog, hgraph, hwrites, hdetached, by omega⟩

end

end Pass

namespace Graph

/-- A forced pass that left its first card in the given role may be repeated without
any effect but its count of entries. -/
theorem propagate_again_quiet {g : Graph} (hg : g.WellFormed) {v : NodeId}
    (hk : g.contains v = true) (hv : g.persists v = false) {role : Role}
    {origin₁ : Option NodeId} (hr : (propagate v role origin₁ true g).state.role v = role)
    (origin₂ : Option NodeId) :
    ∃ stats, propagate v role origin₂ true (propagate v role origin₁ true g).state =
        ⟨(propagate v role origin₁ true g).state, [], .ok stats⟩ ∧
      stats.typeWrites = 0 ∧ stats.edgesDetached = 0 ∧ 0 < stats.calls := by
  obtain ⟨first, hfirst⟩ := propagate_succeeds hg hk role origin₁ true
  obtain ⟨T, hT, -, hf⟩ := propagate_follows hg hfirst
  have hTv := hT hv rfl
  have hw := propagate_wellFormed hg v role origin₁ true
  have hk' := propagate_contains hg v role origin₁ true v
  have hp := propagate_persists hg v role origin₁ true v
  rw [hk] at hk'
  rw [hv] at hp
  generalize (propagate v role origin₁ true g).state = h at hr hf hw hk' hp ⊢
  obtain ⟨second, hsecond⟩ := propagate_succeeds hw hk' role origin₂ true
  obtain ⟨p, q, log₁, log₂, more, henter, hclears, -, heq⟩ := propagate_of_ok hsecond
  rw [Pass.enter_again (p := { graph := h }) hw hk' hp hr fun hi => hf.single v hTv (hr.trans hi),
    Outcome.mk.injEq] at henter
  obtain ⟨rfl, rfl, hmore⟩ := henter
  cases hmore
  obtain ⟨rfl, hgraph, hwrites, hdetached, hcalls⟩ :=
    hclears.quiet hw hf fun t ht => hf.met hTv ht
  refine ⟨q.stats, ?_, hwrites, hdetached, hcalls⟩
  rw [heq, hgraph]
  rfl

theorem propagate_again_quiet_tangle :
    (propagate ⟨"q"⟩ .assertion none true tangle).state.role ⟨"q"⟩ = .assertion ∧
      ∃ stats, propagate ⟨"q"⟩ .assertion (some ⟨"p"⟩) true
          (propagate ⟨"q"⟩ .assertion none true tangle).state =
        ⟨(propagate ⟨"q"⟩ .assertion none true tangle).state, [], .ok stats⟩ ∧
      stats.typeWrites = 0 ∧ stats.edgesDetached = 0 ∧ 0 < stats.calls := by
  have hrole : (propagate ⟨"q"⟩ .assertion none true tangle).state.role ⟨"q"⟩ =
      .assertion := by decide
  exact ⟨hrole, propagate_again_quiet tangle_wellFormed (by decide) (by decide) hrole
    (some ⟨"p"⟩)⟩

end Graph

end ArgumentMap
