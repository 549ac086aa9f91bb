import ArgumentMap.Proofs.Session.Answers

/-!
# What is refused, and why

The objections to an edge come in a fixed order, and the first one decides. Whatever
is refused changes nothing but, where the settings say so, the edge tool, and says so
once.
-/

namespace ArgumentMap

namespace Graph

/-- The ground of a refused edge, which holds only where no earlier one does. -/
def Objects (config : Config) (g : Graph) (parent child : NodeId) : Rejection → Prop
  | .selfLoop => child = parent
  | .persistedParent => child ≠ parent ∧ g.persists parent = true
  | .duplicateEdge => child ≠ parent ∧ g.persists parent = false ∧ g.hasEdge parent child = true
  | .reverseEdgeExists => child ≠ parent ∧ g.persists parent = false ∧
      g.hasEdge parent child = false ∧ g.hasEdge child parent = true ∧
        config.flipReverseEdges = false
  | _ => False

section
variable {config : Config} {g : Graph} {parent child : NodeId} {reason : Rejection}

theorem objection?_eq_some_iff (hp : g.contains parent = true) :
    objection? config parent child g = .ok (some reason) ↔
      g.Objects config parent child reason := by
  obtain ⟨p, hf⟩ := contains_iff_find?.1 hp
  simp only [objection?, store_node_of_find? hf, Store.hasEdge]
  by_cases hne : parent = child
  · cases reason <;> simp [Objects, hne]
  have hne' : child ≠ parent := Ne.symm hne
  rw [if_neg hne]
  cases hpers : p.persisted with
  | true => cases reason <;> simp [Objects, hne', persists_of_find? hf, hpers]
  | false =>
    cases hedge : g.hasEdge parent child with
    | true => cases reason <;> simp [Objects, hne', persists_of_find? hf, hpers, hedge]
    | false =>
      by_cases hback : g.hasEdge child parent = true <;> cases hflip : config.flipReverseEdges <;>
        cases reason <;> simp [Objects, hne', persists_of_find? hf, hpers, hedge, hback, hflip]

end

end Graph

namespace EdgeTool

/-- What the selection of a child answers: the first objection to the edge, or the edge. -/
structure Decides (config : Config) (g : Graph) (parent child : NodeId)
    (answer : Except Failure EdgeOutcome) : Prop where
  selfLoop : answer = .ok (.rejected .selfLoop) ↔ child = parent
  persistedParent : answer = .ok (.rejected .persistedParent) ↔
    child ≠ parent ∧ g.persists parent = true
  duplicateEdge : answer = .ok (.rejected .duplicateEdge) ↔
    child ≠ parent ∧ g.persists parent = false ∧ g.hasEdge parent child = true
  reverseEdgeExists : answer = .ok (.rejected .reverseEdgeExists) ↔
    child ≠ parent ∧ g.persists parent = false ∧ g.hasEdge parent child = false ∧
      g.hasEdge child parent = true ∧ config.flipReverseEdges = false
  committed : (∃ flipped stats, answer = .ok (.committed parent child flipped stats)) ↔
    child ≠ parent ∧ g.persists parent = false ∧ g.hasEdge parent child = false ∧
      (g.hasEdge child parent = true → config.flipReverseEdges = true)

section
variable {config : Config} {tool : EdgeTool} {g : Graph} {parent child id : NodeId}
  {reason : Rejection}

theorem respond_child_cases (config : Config) (parent : NodeId) (hg : g.WellFormed)
    (hc : g.contains child = true) :
    let answer := respond config (.seekingChild parent) child g
    (parent ≠ child ∧ g.contains parent = false ∧
      answer = ⟨g, [], .error (.nodeNotFound parent)⟩) ∨
    (∃ reason, Graph.objection? config parent child g = .ok (some reason) ∧
      answer = ⟨g, [.notice (.rejected reason)], .ok (.rejected reason)⟩) ∨
    (Graph.objection? config parent child g = .ok none ∧
      ∃ flipped stats, answer.result = .ok (.committed parent child flipped stats)) := by
  intro answer
  have hanswer : answer = Graph.drawEdge config parent child g := respond_known hc
  rw [hanswer]
  rcases Graph.drawEdge_cases config g parent child with hunknown | hrefused | ⟨ho, hdraw⟩
  · exact .inl hunknown
  · exact .inr (.inl hrefused)
  · obtain ⟨hne, hp, -, hnew, -⟩ := Graph.objection?_eq_none_iff.1 ho
    obtain ⟨v, role, stats, -, -, hcommit⟩ := Graph.commitEdge_eq hg hp hc hne hnew
    exact .inr (.inr ⟨ho, _, stats, by rw [hdraw, hcommit]⟩)

theorem respond_child_eq_rejected_iff (hg : g.WellFormed) (hc : g.contains child = true)
    (hp : g.contains parent = true) :
    (respond config (.seekingChild parent) child g).result = .ok (.rejected reason) ↔
      g.Objects config parent child reason := by
  rw [← Graph.objection?_eq_some_iff hp]
  rcases respond_child_cases config parent hg hc with ⟨-, hunknown, -⟩ |
    ⟨reason, ho, hanswer⟩ | ⟨ho, flipped, stats, hanswer⟩
  · cases hp.symm.trans hunknown
  · simp [ho, hanswer]
  · simp [ho, hanswer]

theorem respond_child_eq_committed_iff (hg : g.WellFormed) (hc : g.contains child = true)
    (hp : g.contains parent = true) :
    (∃ flipped stats, (respond config (.seekingChild parent) child g).result =
      .ok (.committed parent child flipped stats)) ↔
        Graph.objection? config parent child g = .ok none := by
  rcases respond_child_cases config parent hg hc with ⟨-, hunknown, -⟩ |
    ⟨reason, ho, hanswer⟩ | ⟨ho, hanswer⟩
  · cases hp.symm.trans hunknown
  · simp [ho, hanswer]
  · exact iff_of_true hanswer ho

theorem decides_respond (config : Config) (hg : g.WellFormed) (hc : g.contains child = true)
    (hp : g.contains parent = true) :
    Decides config g parent child (respond config (.seekingChild parent) child g).result where
  selfLoop := respond_child_eq_rejected_iff hg hc hp
  persistedParent := respond_child_eq_rejected_iff hg hc hp
  duplicateEdge := respond_child_eq_rejected_iff hg hc hp
  reverseEdgeExists := respond_child_eq_rejected_iff hg hc hp
  committed := by
    rw [respond_child_eq_committed_iff hg hc hp, Graph.objection?_eq_none_iff]
    simp only [hp, true_and, ← Graph.hasEdge_iff, Bool.not_eq_true, ne_comm (a := parent)]

theorem respond_refused (hg : g.WellFormed)
    (h : (respond config tool id g).result = .ok (.rejected reason)) :
    respond config tool id g = ⟨g, [.notice (.rejected reason)], .ok (.rejected reason)⟩ := by
  cases hk : g.contains id with
  | false =>
    rw [respond_unknown hk] at h
    cases h
  | true =>
    cases tool with
    | inactive =>
      rw [respond_known hk] at h
      cases h
    | seekingParent =>
      rw [respond_known hk] at h
      cases h
    | seekingChild parent =>
      rcases respond_child_cases config parent hg hk with
        ⟨-, -, hanswer⟩ | ⟨reason', -, hanswer⟩ | ⟨-, flipped, stats, hanswer⟩
      · rw [hanswer] at h
        cases h
      · rw [hanswer] at h ⊢
        cases h
        rfl
      · cases hanswer.symm.trans h

theorem respond_parent_unknown (hc : g.contains child = true) (hp : g.contains parent = false) :
    respond config (.seekingChild parent) child g = ⟨g, [], .error (.nodeNotFound parent)⟩ := by
  have hne : parent ≠ child := by
    rintro rfl
    cases hc.symm.trans hp
  have ho : Graph.objection? config parent child g = .error (.nodeNotFound parent) :=
    Graph.objection?_eq_error_iff.2 ⟨hne, by simpa [Graph.contains] using hp, rfl⟩
  rw [respond_known hc]
  exact Edit.ask_bind_apply_of_error g ho

end

end EdgeTool

namespace Session

section
variable {s : Session Graph} {id : NodeId} {reason : Rejection} {role : Role}

theorem map_eq_ok_iff {α β : Type} {f : α → β} (hf : Function.Injective f)
    {x : Except Failure α} {a : α} : x.map f = .ok (f a) ↔ x = .ok a := by
  cases x <;> simp [Except.map, hf.eq_iff]

theorem edge_of_tap_refused
    (h : (perform (.tap id) s).result = .ok (.tapped (.edge (.rejected reason)))) :
    s.tool = .edge := by
  rw [perform_tap] at h
  have htap := (map_eq_ok_iff fun _ _ => Reply.tapped.inj).1 h
  cases ht : s.tool with
  | edge => rfl
  | detach =>
    rw [tap_detach ht] at htap
    dsimp only at htap
    cases hd : (Graph.detachParents id s.graph).result <;> simp [hd, Except.map] at htap
  | selection =>
    rw [tap_selection ht] at htap
    cases hk : s.graph.contains id with
    | true => simp [highlight_known hk] at htap
    | false => simp [highlight_unknown hk] at htap

theorem tap_refused (hg : s.graph.WellFormed)
    (h : (perform (.tap id) s).result = .ok (.tapped (.edge (.rejected reason)))) :
    perform (.tap id) s = ⟨{ s with edgeTool := s.edgeTool.next s.config (.rejected reason) },
      [.notice (.rejected reason)], .ok (.tapped (.edge (.rejected reason)))⟩ := by
  have ht := edge_of_tap_refused h
  rw [perform_tap, tap_edge ht] at h ⊢
  have hedge := (map_eq_ok_iff fun _ _ => TapOutcome.edge.inj).1
    ((map_eq_ok_iff fun _ _ => Reply.tapped.inj).1 h)
  dsimp only
  rw [EdgeTool.respond_refused hg hedge]
  rfl

theorem retype_refused
    (h : (perform (.retype role) s).result = .ok (.retyped (.rejected reason))) :
    perform (.retype role) s =
      ⟨s, [.notice (.rejected reason)], .ok (.retyped (.rejected reason))⟩ := by
  cases hh : s.highlighted with
  | none =>
    rw [retype_none hh] at h ⊢
    cases h
    rfl
  | some id =>
    cases hp : s.graph.persists id with
    | true =>
      rw [retype_persisted hh hp] at h ⊢
      cases h
      rfl
    | false =>
      cases hk : s.graph.contains id with
      | false =>
        rw [retype_unknown hh hk] at h
        cases h
      | true =>
        rw [retype_editable hh hk hp] at h
        dsimp only at h
        cases hr : (Graph.propagate id role none true s.graph).result <;>
          simp [hr, Except.map] at h

end

/-- The second selection of an edge answers by the first objection to the edge. A refusal says so
once and leaves the session as it was, up to the edge tool, and so does a refused change of a role,
with no exception. A selection of an unknown card, or on behalf of an unknown parent, changes and
announces nothing. -/
theorem selection_decides (config : Config) {g : Graph} (hg : g.WellFormed)
    (parent child : NodeId) :
    let answer := EdgeTool.select config child (.seekingChild parent, g)
    (g.contains child = true → g.contains parent = true →
      EdgeTool.Decides config g parent child answer.result) ∧
    (∀ reason, answer.result = .ok (.rejected reason) →
      answer.state = (if reason = .persistedParent ∧ config.resetOnPersistedParent = true
        then .seekingParent else .seekingChild parent, g) ∧
      answer.events = [.notice (.rejected reason)]) ∧
    (g.contains child = false →
      answer = ⟨(.seekingChild parent, g), [], .error (.nodeNotFound child)⟩) ∧
    (g.contains child = true → g.contains parent = false →
      answer = ⟨(.seekingChild parent, g), [], .error (.nodeNotFound parent)⟩) ∧
    ∀ s : Session Graph, s.graph = g →
      (s.config = config → s.tool = .edge → s.edgeTool = .seekingChild parent →
        perform (.tap child) s =
          ⟨{ s with edgeTool := answer.state.1, graph := answer.state.2 }, answer.events,
            answer.result.map fun outcome => .tapped (.edge outcome)⟩) ∧
      (∀ id reason, (perform (.tap id) s).result = .ok (.tapped (.edge (.rejected reason))) →
        (perform (.tap id) s).state = { s with edgeTool :=
          if reason = .persistedParent ∧ s.config.resetOnPersistedParent = true
            then .seekingParent else s.edgeTool } ∧
        (perform (.tap id) s).events = [.notice (.rejected reason)]) ∧
      ∀ role reason, (perform (.retype role) s).result = .ok (.retyped (.rejected reason)) →
        (perform (.retype role) s).state = s ∧
        (perform (.retype role) s).events = [.notice (.rejected reason)] := by
  intro answer
  have hanswer : answer =
      let response := EdgeTool.respond config (.seekingChild parent) child g
      ⟨(EdgeTool.follow config (.seekingChild parent) response.result, response.state),
        response.events, response.result⟩ := EdgeTool.select_eq config _ g child
  rw [hanswer]
  refine ⟨EdgeTool.decides_respond config hg, fun reason h => ?_, fun hc => ?_,
    fun hc hp => ?_, ?_⟩
  · dsimp only at h ⊢
    rw [EdgeTool.respond_refused hg h]
    exact ⟨rfl, rfl⟩
  · rw [EdgeTool.respond_unknown hc]
    rfl
  · rw [EdgeTool.respond_parent_unknown hc hp]
    rfl
  · rintro s rfl
    refine ⟨?_, fun id reason h => ?_, fun role reason h => ?_⟩
    · rintro rfl ht he
      rw [perform_tap, tap_edge ht, he]
      dsimp only
      cases (EdgeTool.respond s.config (.seekingChild parent) child s.graph).result <;> rfl
    · rw [tap_refused hg h]
      exact ⟨rfl, rfl⟩
    · rw [retype_refused h]
      exact ⟨rfl, rfl⟩

theorem selection_decides_tangle :
    let config : Config := { flipReverseEdges := false }
    let answer := EdgeTool.select config ⟨"b"⟩ (.seekingChild ⟨"q"⟩, Graph.tangle)
    Graph.tangle.WellFormed ∧ Graph.tangle.hasEdge ⟨"b"⟩ ⟨"q"⟩ = true ∧
      answer.result = .ok (.rejected .reverseEdgeExists) ∧
      answer.state = (.seekingChild ⟨"q"⟩, Graph.tangle) ∧
      answer.events = [.notice (.rejected .reverseEdgeExists)] := by
  intro config answer
  obtain ⟨hdecides, hrefused, -⟩ :=
    selection_decides config Graph.tangle_wellFormed ⟨"q"⟩ ⟨"b"⟩
  have hreverse : answer.result = .ok (.rejected .reverseEdgeExists) :=
    (hdecides (by decide) (by decide)).reverseEdgeExists.2 (by decide)
  obtain ⟨hstate, hevents⟩ := hrefused _ hreverse
  exact ⟨Graph.tangle_wellFormed, by decide, hreverse, hstate, hevents⟩

end Session

end ArgumentMap
