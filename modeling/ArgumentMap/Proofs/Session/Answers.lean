import ArgumentMap.Proofs.Graph.Detaching
import ArgumentMap.Proofs.Session.Drawing
import ArgumentMap.Session

/-!
# Actions, one equation each

What an action does to a session comes from one edit of the graph, and an action
on an unknown card does nothing.
-/

namespace ArgumentMap

namespace Graph

variable {g : Graph}

theorem detachParents_succeeds (hg : g.WellFormed) {id : NodeId} (hid : g.contains id = true) :
    ∃ detached, (detachParents id g).result = .ok detached :=
  ⟨_, congrArg (·.result) (detachParents_apply hg hid)⟩

theorem detachParents_unknown {id : NodeId} (hid : g.contains id = false) :
    detachParents id g = ⟨g, [], .error (.nodeNotFound id)⟩ := by
  have hf : g.find? id = none := by simpa [contains] using hid
  rw [detachParents, Edit.ask_bind_apply_of_error g (node_eq_error_iff.2 ⟨hf, rfl⟩)]

end Graph

namespace Session

variable {s : Session Graph} {id : NodeId}

theorem onGraph_apply {α : Type} (m : Edit Graph α) (s : Session Graph) : onGraph m s =
    ⟨{ s with graph := (m s.graph).state }, (m s.graph).events, (m s.graph).result⟩ := rfl

theorem highlight_known (h : s.graph.contains id = true) : highlight id s =
    ⟨{ s with highlighted := some id }, [.nodeHighlighted id], .ok (.highlighted id)⟩ := by
  obtain ⟨n, hf⟩ := Graph.contains_iff_find?.1 h
  have hon : onHighlighted (ArgumentMap.highlight s.graph id) s =
      ⟨{ s with highlighted := some id }, [.nodeHighlighted id], .ok ()⟩ := by
    rw [ArgumentMap.highlight, Graph.store_node_of_find? hf]
    rfl
  rw [highlight, Edit.view_bind_apply, Edit.bind_apply_of_ok s (by rw [hon]), hon]
  rfl

theorem highlight_unknown (h : s.graph.contains id = false) :
    highlight id s = ⟨s, [], .error (.nodeNotFound id)⟩ := by
  have hf : s.graph.find? id = none := by simpa [Graph.contains] using h
  have hon : onHighlighted (ArgumentMap.highlight s.graph id) s =
      ⟨s, [], .error (.nodeNotFound id)⟩ := by
    rw [ArgumentMap.highlight, Graph.store_node_of_unknown hf]
    rfl
  rw [highlight, Edit.view_bind_apply, Edit.bind_apply_of_error s (by rw [hon]), hon]

theorem perform_highlight (id : NodeId) (s : Session Graph) : perform (.highlight id) s =
    ⟨(highlight id s).state, (highlight id s).events, (highlight id s).result.map .tapped⟩ :=
  Edit.bind_pure_apply s (highlight id) Reply.tapped

theorem perform_tap (id : NodeId) (s : Session Graph) : perform (.tap id) s =
    ⟨(tap id s).state, (tap id s).events, (tap id s).result.map .tapped⟩ :=
  Edit.bind_pure_apply s (tap id) Reply.tapped

theorem tap_edge (h : s.tool = .edge) : tap id s =
    let answer := EdgeTool.respond s.config s.edgeTool id s.graph
    ⟨{ s with edgeTool := s.edgeTool.follow s.config answer.result, graph := answer.state },
      answer.events, answer.result.map .edge⟩ := by
  have htap : tap id s = (onEdgeTool (EdgeTool.select s.config id) >>= fun outcome =>
      pure (TapOutcome.edge outcome)) s := by
    rw [tap, Edit.view_bind_apply]
    simp only [h]
  rw [htap, Edit.bind_pure_apply s _ TapOutcome.edge]
  simp only [onEdgeTool, Edit.zoom, EdgeTool.select_eq]

theorem tap_detach (h : s.tool = .detach) : tap id s =
    let detached := Graph.detachParents id s.graph
    ⟨{ s with graph := detached.state }, detached.events, detached.result.map .detached⟩ := by
  have htap : tap id s = (onGraph (Graph.detachParents id) >>= fun parents =>
      pure (TapOutcome.detached parents)) s := by
    rw [tap, Edit.view_bind_apply]
    simp only [h]
  rw [htap, Edit.bind_pure_apply s _ TapOutcome.detached]
  rfl

theorem tap_selection (h : s.tool = .selection) : tap id s = highlight id s := by
  rw [tap, Edit.view_bind_apply]
  simp only [h]

theorem tap_unknown (h : s.graph.contains id = false) :
    tap id s = ⟨s, [], .error (.nodeNotFound id)⟩ := by
  cases ht : s.tool with
  | edge =>
    rw [tap_edge ht, EdgeTool.respond_unknown h]
    rfl
  | detach =>
    rw [tap_detach ht, Graph.detachParents_unknown h]
    rfl
  | selection => rw [tap_selection ht, highlight_unknown h]

theorem retype_none (h : s.highlighted = none) (role : Role) : perform (.retype role) s =
    ⟨s, [.notice (.rejected .nothingHighlighted)],
      .ok (.retyped (.rejected .nothingHighlighted))⟩ := by
  have hretype : retype role s = ⟨s, [.notice (.rejected .nothingHighlighted)],
      .ok (.rejected .nothingHighlighted)⟩ := by
    rw [retype, Edit.view_bind_apply]
    simp only [h]
    rfl
  exact (Edit.bind_pure_apply s (retype role) Reply.retyped).trans (by rw [hretype]; rfl)

theorem retype_persisted (h : s.highlighted = some id) (hp : s.graph.persists id = true)
    (role : Role) : perform (.retype role) s = ⟨s, [.notice (.rejected .persistedNode)],
      .ok (.retyped (.rejected .persistedNode))⟩ := by
  have hretype : retype role s =
      ⟨s, [.notice (.rejected .persistedNode)], .ok (.rejected .persistedNode)⟩ := by
    rw [retype, Edit.view_bind_apply]
    simp only [h]
    cases hf : s.graph.find? id with
    | none => simp [Graph.persists, hf] at hp
    | some n =>
      rw [Graph.persists_of_find? hf] at hp
      rw [Edit.ask_bind_apply_of_ok s (Graph.node_eq_ok_iff.2 hf), if_pos hp]
      rfl
  exact (Edit.bind_pure_apply s (retype role) Reply.retyped).trans (by rw [hretype]; rfl)

theorem retype_unknown (h : s.highlighted = some id) (hk : s.graph.contains id = false)
    (role : Role) : perform (.retype role) s = ⟨s, [], .error (.nodeNotFound id)⟩ := by
  have hf : s.graph.find? id = none := by simpa [Graph.contains] using hk
  have hretype : retype role s = ⟨s, [], .error (.nodeNotFound id)⟩ := by
    rw [retype, Edit.view_bind_apply]
    simp only [h]
    rw [Edit.ask_bind_apply_of_error s (Graph.node_eq_error_iff.2 ⟨hf, rfl⟩)]
  exact (Edit.bind_pure_apply s (retype role) Reply.retyped).trans (by rw [hretype]; rfl)

theorem retype_editable (h : s.highlighted = some id) (hk : s.graph.contains id = true)
    (hp : s.graph.persists id = false) (role : Role) : perform (.retype role) s =
      let pass := Graph.propagate id role none true s.graph
      ⟨{ s with graph := pass.state }, pass.events,
        pass.result.map fun stats => .retyped (.applied stats)⟩ := by
  obtain ⟨n, hf⟩ := Graph.contains_iff_find?.1 hk
  rw [Graph.persists_of_find? hf] at hp
  have hretype : retype role s =
      ⟨(onGraph (Graph.propagate id role none true) s).state,
        (onGraph (Graph.propagate id role none true) s).events,
        (onGraph (Graph.propagate id role none true) s).result.map .applied⟩ := by
    rw [retype, Edit.view_bind_apply]
    simp only [h]
    rw [Edit.ask_bind_apply_of_ok s (Graph.node_eq_ok_iff.2 hf), if_neg (by simp [hp]),
      Edit.bind_pure_apply s _ RetypeOutcome.applied]
  refine (Edit.bind_pure_apply s (retype role) Reply.retyped).trans ?_
  rw [hretype, onGraph_apply]
  dsimp only
  cases (Graph.propagate id role none true s.graph).result <;> rfl

theorem setText_known (h : s.graph.contains id = true) (text : String) :
    perform (.setText id text) s = ⟨{ s with graph := s.graph.reword id text }, [], .ok .done⟩ := by
  obtain ⟨n, hf⟩ := Graph.contains_iff_find?.1 h
  have hset : s.graph.setText id text = .ok (s.graph.reword id text) := by
    rw [Graph.setText, Graph.node_eq_ok_iff.2 hf]
    rfl
  refine (Edit.bind_pure_apply s (setText id text) fun _ => Reply.done).trans ?_
  simp only [setText, onGraph_apply, Edit.attempt, Store.setText, hset, Except.map]

theorem setText_unknown (h : s.graph.contains id = false) (text : String) :
    perform (.setText id text) s = ⟨s, [], .error (.nodeNotFound id)⟩ := by
  have hf : s.graph.find? id = none := by simpa [Graph.contains] using h
  have hset : s.graph.setText id text = .error (.nodeNotFound id) := by
    rw [Graph.setText, Graph.node_eq_error_iff.2 ⟨hf, rfl⟩]
    rfl
  refine (Edit.bind_pure_apply s (setText id text) fun _ => Reply.done).trans ?_
  simp only [setText, onGraph_apply, Edit.attempt, Store.setText, hset, Except.map]

end Session

end ArgumentMap
