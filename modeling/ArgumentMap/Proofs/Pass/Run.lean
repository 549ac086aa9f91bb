import ArgumentMap.Proofs.Pass.Halting

/-!
# A whole pass

The first entry leaves an agenda whose tasks are due and whose steps the bound
covers. So a pass never stops short, and a successful one is the
first entry followed by a way to the empty agenda. On a well-formed graph only
an unknown card makes a pass fail.
-/

namespace ArgumentMap

namespace Pass

section
variable {p q : Pass Graph} {id : NodeId} {role : Role} {origin : Option NodeId} {force : Bool}

theorem work_enter_of_ok {p' : Pass Graph} {log : List Event} {more : List Task} (steps : Nat)
    (h : enter id role origin force p = ⟨p', log, .ok more⟩) :
    work (steps + 1) [.enter id role origin force] p =
      ⟨(work steps more p').state, log ++ (work steps more p').events,
        (work steps more p').result⟩ := by
  rw [work_cons_of_ok (t := .enter id role origin force) h, List.append_nil]

theorem work_enter_of_error {log : List Event} {e : Failure} (steps : Nat)
    (h : enter id role origin force p = ⟨q, log, .error e⟩) :
    work (steps + 1) [.enter id role origin force] p = ⟨q, log, .error e⟩ :=
  work_cons_of_error (t := .enter id role origin force) h

theorem one_le_passBound (g : Graph) : 1 ≤ g.passBound := by
  rw [Graph.passBound_eq]
  exact Nat.mul_pos (Nat.mul_pos (by omega) (by omega)) (by omega)

theorem work_enter_halts (p : Pass Graph) (id : NodeId) (role : Role) (origin : Option NodeId)
    (force : Bool) : Halts p [.enter id role origin force] p.graph.passBound := by
  have hone := one_le_passBound p.graph
  cases he : enter id role origin force p with
  | mk p' log result =>
    cases result with
    | error e => exact halts_of_error (fun steps => work_enter_of_error steps he) hone
    | ok more =>
      obtain ⟨-, -, writes, -, hentered⟩ := entered_of_enter he
      have hbound := hentered.agendaSteps_lt_passBound
      have hw := fun x => le_trans (hentered.relations_le x) (p.graph.length_relations_le x)
      obtain ⟨o, hsame, hdone⟩ := work_halts hw hentered.due
      refine ⟨⟨o.state, log ++ o.events, o.result⟩, fun steps hs => ?_, hdone⟩
      obtain ⟨fewer, rfl⟩ := Nat.exists_eq_add_of_le' (by omega : 1 ≤ steps)
      rw [work_enter_of_ok fewer he, hsame fewer (by omega)]

theorem run_apply (p : Pass Graph) (id : NodeId) (role : Role) (origin : Option NodeId)
    (force : Bool) : run id role origin force p =
      let o := work p.graph.passBound [.enter id role origin force] p
      ⟨o.state, o.events, o.result.map fun _ => ()⟩ := by
  rw [run, Edit.view_bind_apply, Edit.bind_pure_apply p _ fun _ => ()]
  rfl

theorem run_of_ok (h : (run id role origin force p).result = .ok ()) :
    ∃ p' q log₁ log₂ more, enter id role origin force p = ⟨p', log₁, .ok more⟩ ∧
      Clears p' more log₂ q ∧ run id role origin force p = ⟨q, log₁ ++ log₂, .ok ()⟩ := by
  rw [run_apply] at h ⊢
  obtain ⟨o, hsame, hdone⟩ := work_enter_halts p id role origin force
  have hbound := hsame p.graph.passBound (Nat.le_refl _)
  obtain ⟨fewer, hfewer⟩ := Nat.exists_eq_add_of_le' (one_le_passBound p.graph)
  cases he : enter id role origin force p with
  | mk p' log₁ result =>
    cases result with
    | error e =>
      rw [hfewer, work_enter_of_error fewer he] at h
      cases h
    | ok more =>
      obtain ⟨-, -, writes, -, hentered⟩ := entered_of_enter he
      rw [hfewer, work_enter_of_ok fewer he] at h hbound ⊢
      cases hw : work fewer more p' with
      | mk q log₂ result =>
        rw [hw] at h hbound
        cases result with
        | error e => cases h
        | ok left =>
          have hleft : left = [] := hdone left (by rw [← hbound])
          subst hleft
          exact ⟨p', q, log₁, log₂, more, rfl, clears_of_work hentered.due hw, rfl⟩

theorem run_succeeds (hg : p.graph.WellFormed) (hc : p.graph.contains id = true) (role : Role)
    (origin : Option NodeId) (force : Bool) : (run id role origin force p).result = .ok () := by
  obtain ⟨fewer, hfewer⟩ := Nat.exists_eq_add_of_le' (one_le_passBound p.graph)
  obtain ⟨p', log₁, more, he⟩ := enter_succeeds hg hc role origin force
  obtain ⟨-, -, writes, -, hentered⟩ := entered_of_enter he
  obtain ⟨q, log₂, left, hw⟩ := work_succeeds (hentered.wellFormed hg) hentered.due fewer
  rw [run_apply, hfewer, work_enter_of_ok fewer he, hw]
  rfl

end

end Pass

namespace Graph

variable {g : Graph} {id : NodeId} {role : Role} {origin : Option NodeId} {force : Bool}

theorem propagate_of_run {o : Outcome (Pass Graph) Unit}
    (h : Pass.run id role origin force { graph := g } = o) : propagate id role origin force g =
      ⟨o.state.graph, o.events, o.result.map fun _ => o.state.stats⟩ := by
  subst h
  rfl

theorem propagate_of_steps {steps : Nat} (h : g.passBound ≤ steps) :
    propagate id role origin force g =
      let o := Pass.work steps [.enter id role origin force] { graph := g }
      ⟨o.state.graph, o.events, o.result.map fun _ => o.state.stats⟩ := by
  obtain ⟨o, hsame, -⟩ := Pass.work_enter_halts { graph := g } id role origin force
  have hrun := Pass.run_apply { graph := g } id role origin force
  rw [hsame _ (Nat.le_refl _)] at hrun
  rw [hsame _ h, propagate_of_run hrun]
  obtain ⟨pass, log, result⟩ := o
  cases result <;> rfl

theorem propagate_of_ok {stats : Stats}
    (h : (propagate id role origin force g).result = .ok stats) :
    ∃ p q log₁ log₂ more, Pass.enter id role origin force { graph := g } = ⟨p, log₁, .ok more⟩ ∧
      Pass.Clears p more log₂ q ∧ q.stats = stats ∧
        propagate id role origin force g = ⟨q.graph, log₁ ++ log₂, .ok q.stats⟩ := by
  cases hr : (Pass.run id role origin force { graph := g }).result with
  | error e =>
    rw [propagate_of_run rfl, hr] at h
    cases h
  | ok _ =>
    obtain ⟨p, q, log₁, log₂, more, he, hclears, hrun⟩ := Pass.run_of_ok hr
    rw [propagate_of_run hrun] at h ⊢
    exact ⟨p, q, log₁, log₂, more, he, hclears, Except.ok.inj h, rfl⟩

theorem propagate_succeeds (hg : g.WellFormed) (hc : g.contains id = true) (role : Role)
    (origin : Option NodeId) (force : Bool) :
    ∃ stats, (propagate id role origin force g).result = .ok stats := by
  have hrun := Pass.run_succeeds (p := { graph := g }) hg hc role origin force
  rw [propagate_of_run rfl, hrun]
  exact ⟨_, rfl⟩

theorem propagate_unknown (h : g.contains id = false) (role : Role) (origin : Option NodeId)
    (force : Bool) : propagate id role origin force g = ⟨g, [], .error (.nodeNotFound id)⟩ := by
  have hf : g.find? id = none := by simpa [contains] using h
  obtain ⟨fewer, hfewer⟩ := Nat.exists_eq_add_of_le' (Pass.one_le_passBound g)
  have hrun := Pass.run_apply { graph := g } id role origin force
  rw [hfewer, Pass.work_enter_of_error fewer
    (Pass.enter_unknown (p := { graph := g }) hf role origin force)] at hrun
  exact propagate_of_run hrun

theorem propagate_state_cases (hg : g.WellFormed) (id : NodeId) (role : Role)
    (origin : Option NodeId) (force : Bool) :
    (propagate id role origin force g).state = g ∨
      g.contains id = true ∧ ∃ p q log writes more,
        Pass.Entered g id role origin force p.graph writes more ∧ Pass.Clears p more log q ∧
          (propagate id role origin force g).state = q.graph := by
  cases hc : g.contains id with
  | false =>
    rw [propagate_unknown hc]
    exact .inl rfl
  | true =>
    obtain ⟨stats, hok⟩ := propagate_succeeds hg hc role origin force
    obtain ⟨p, q, log₁, log₂, more, henter, hclears, -, heq⟩ := propagate_of_ok hok
    obtain ⟨-, -, writes, -, hentered⟩ := Pass.entered_of_enter henter
    rw [heq]
    exact .inr ⟨rfl, p, q, log₂, writes, more, hentered, hclears, rfl⟩

theorem propagate_wellFormed (hg : g.WellFormed) (id : NodeId) (role : Role)
    (origin : Option NodeId) (force : Bool) :
    (propagate id role origin force g).state.WellFormed := by
  rcases propagate_state_cases hg id role origin force with
    h | ⟨-, p, q, log, writes, more, hentered, hclears, h⟩
  · rwa [h]
  · rw [h]
    exact hclears.wellFormed (hentered.wellFormed hg)

theorem propagate_contains (hg : g.WellFormed) (id : NodeId) (role : Role)
    (origin : Option NodeId) (force : Bool) (x : NodeId) :
    (propagate id role origin force g).state.contains x = g.contains x := by
  rcases propagate_state_cases hg id role origin force with
    h | ⟨-, p, q, log, writes, more, hentered, hclears, h⟩
  · rw [h]
  · rw [h, Bool.eq_iff_iff, contains_iff_mem_ids, hclears.ids, hentered.ids,
      ← contains_iff_mem_ids]

theorem propagate_persists (hg : g.WellFormed) (id : NodeId) (role : Role)
    (origin : Option NodeId) (force : Bool) (x : NodeId) :
    (propagate id role origin force g).state.persists x = g.persists x := by
  rcases propagate_state_cases hg id role origin force with
    h | ⟨-, p, q, log, writes, more, hentered, hclears, h⟩
  · rw [h]
  · rw [h, hclears.persists, hentered.persists]

end Graph

end ArgumentMap
