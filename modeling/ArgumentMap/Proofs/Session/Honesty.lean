import ArgumentMap.Proofs.Graph.Loading
import ArgumentMap.Proofs.Pass.Honesty
import ArgumentMap.Proofs.Session.Answers

/-!
# What the user does is announced

Every action but a load is a chain of announced changes, apart from one edge: a
new edge may first turn its opposite around, and that one may run down from a
persisted card. So every action, loads included, keeps the graph of a session
well-formed, whether it succeeds or fails, and whole runs do.
-/

namespace ArgumentMap

namespace Graph

theorem honest_detachFrom (id : NodeId) (ps : List NodeId) :
    Edit.Honest (fun g => g) (detachFrom id ps) := by
  induction ps with
  | nil => exact .pure []
  | cons p rest ih =>
    intro g hg
    rw [detachFrom]
    cases hf : g.find? p with
    | none =>
      rw [Edit.ask_bind_apply_of_error g (node_eq_error_iff.2 ⟨hf, rfl⟩)]
      exact .refl g
    | some n =>
      rw [Edit.ask_bind_apply_of_ok g (node_eq_ok_iff.2 hf)]
      split_ifs with hp
      · exact ih g hg
      · have hpers : g.persists p = false := by simpa [persists_of_find? hf] using hp
        cases hd : g.disconnect p id with
        | error e =>
          rw [Edit.attempt_bind_apply_of_error g hd]
          exact .refl g
        | ok r =>
          obtain ⟨removed, h⟩ := r
          have hcut := changes_of_disconnect hg hpers hd
          have hrest := ih h (hcut.wellFormed hg)
          rw [Edit.attempt_bind_apply_of_ok g hd]
          cases removed with
          | false => exact hcut.trans hrest
          | true =>
            rw [if_pos rfl, Edit.announce_bind_apply, Edit.bind_pure_apply]
            exact hcut.trans hrest

theorem honest_detachParents (id : NodeId) : Edit.Honest (fun g => g) (detachParents id) :=
  .bind (.ask _) fun n => honest_detachFrom id n.parents

theorem changes_joined (g : Graph) (parent child : NodeId) :
    ((g.unlink (g.opposite parent child)).link parent child).Changes []
      (g.joined parent child) := by
  rw [joined]
  rcases seedRole_cases ((g.unlink (g.opposite parent child)).link parent child) parent child
    with h | ⟨hp, h⟩
  · rw [h]
    exact .refl _
  · rw [h]
    exact (Change.recast child .assertion hp).changes

theorem changes_commitEdge {g : Graph} {parent child : NodeId} (hg : g.WellFormed)
    (hp : g.contains parent = true) (hc : g.contains child = true) (hne : parent ≠ child)
    (he : g.persists parent = false) (hnew : child ∉ g.children parent) :
    ∃ log, (commitEdge parent child g).events = unlinkEvents (g.opposite parent child) ++ log ∧
      (g.unlink (g.opposite parent child)).Changes log (commitEdge parent child g).state := by
  obtain ⟨v, role, stats, -, -, hcommit⟩ := commitEdge_eq hg hp hc hne hnew
  have hjoin := (Change.join (by simpa using hp) (by simpa using hc) hne
    (notMem_children_unlink (g.opposite parent child) hnew) notMem_children_unlink_opposite
    (by simpa using he)).changes
  have hsettle := honest_propagate v role none true _ (hg.joined hp hc hne hnew)
  rw [hcommit]
  exact ⟨_, rfl, hjoin.trans ((changes_joined g parent child).trans hsettle)⟩

end Graph

/-- The edge that the selection of a card turns around: the tool waits for the
child of a card of the user's own that supports the selected one. -/
def EdgeTool.turning (config : Config) (g : Graph) (id : NodeId) :
    EdgeTool → Option (NodeId × NodeId)
  | .seekingChild parent =>
    if config.flipReverseEdges ∧ g.persists parent = false ∧ g.hasEdge id parent ∧
      ¬g.hasEdge parent id then some (id, parent) else none
  | .inactive | .seekingParent => none

def Session.turning (s : Session Graph) : Action → Option (NodeId × NodeId)
  | .tap id => if s.tool = .edge then s.edgeTool.turning s.config s.graph id else none
  | _ => none

namespace EdgeTool

variable {g : Graph} {config : Config} {tool : EdgeTool} {id parent : NodeId}

theorem mem_children_of_turning {p c : NodeId} (h : tool.turning config g id = some (p, c)) :
    c ∈ g.children p := by
  cases tool with
  | seekingChild parent =>
    rw [turning] at h
    split_ifs at h with hturn
    obtain ⟨rfl, rfl⟩ := Prod.mk.inj (Option.some.inj h)
    exact Graph.hasEdge_iff.1 hturn.2.2.1
  | _ => cases h

theorem turning_of_unknown (hf : g.find? id = none) : tool.turning config g id = none := by
  cases tool with
  | seekingChild parent =>
    rw [turning, if_neg]
    intro hturn
    simp [Graph.hasEdge, Graph.children, hf] at hturn
  | _ => rfl

theorem turning_eq_opposite (h : Graph.objection? config parent id g = .ok none) :
    turning config g id (.seekingChild parent) = g.opposite parent id := by
  obtain ⟨-, -, hp, hnew, hflip⟩ := Graph.objection?_eq_none_iff.1 h
  rw [turning, Graph.opposite]
  by_cases hr : parent ∈ g.children id
  · simp [Graph.hasEdge, hp, hnew, hr, hflip hr]
  · simp [Graph.hasEdge, hr]

theorem turning_eq_none (hg : g.WellFormed) (h : Graph.objection? config parent id g ≠ .ok none) :
    turning config g id (.seekingChild parent) = none := by
  rw [turning, if_neg]
  intro hturn
  obtain ⟨hflip, hp, hr, hnew⟩ := hturn
  rw [Graph.hasEdge_iff] at hr hnew
  refine h (Graph.objection?_eq_none_iff.2 ⟨?_, hg.contains_child hr, hp, hnew, fun _ => hflip⟩)
  intro he
  exact hg.notMem_children_self id (he ▸ hr)

theorem changes_respond (hg : g.WellFormed) (config : Config) (tool : EdgeTool) (id : NodeId) :
    ∃ log,
      (respond config tool id g).events = Graph.unlinkEvents (tool.turning config g id) ++ log ∧
        (g.unlink (tool.turning config g id)).Changes log (respond config tool id g).state := by
  cases hk : g.contains id with
  | false =>
    rw [respond_unknown hk, turning_of_unknown (by simpa [Graph.contains] using hk)]
    exact ⟨[], rfl, .refl g⟩
  | true =>
    rw [respond_known hk]
    cases tool with
    | inactive => exact ⟨[], rfl, .refl g⟩
    | seekingParent => exact ⟨[], rfl, .refl g⟩
    | seekingChild parent =>
      dsimp only
      rcases Graph.drawEdge_cases config g parent id with ⟨-, hp, hdraw⟩ | ⟨reason, ho, hdraw⟩ |
        ⟨ho, hdraw⟩
      · rw [hdraw, turning_eq_none hg (by simp [Graph.objection?_eq_none_iff, hp])]
        exact ⟨[], rfl, .refl g⟩
      · rw [hdraw, turning_eq_none hg (by simp [ho])]
        exact ⟨_, rfl, (Graph.Change.remark (.inl rfl)).changes⟩
      · obtain ⟨hne, hp, he, hnew, -⟩ := Graph.objection?_eq_none_iff.1 ho
        rw [hdraw, turning_eq_opposite ho]
        exact Graph.changes_commitEdge hg hp hk hne he hnew

end EdgeTool

namespace Session

variable {s : Session Graph} {a : Action}

theorem honest_onGraph {α : Type} {m : Edit Graph α} (hm : Edit.Honest (fun g => g) m) :
    Edit.Honest Session.graph (onGraph m) :=
  .zoom (fun _ => rfl) (fun _ _ => rfl) hm

theorem honest_addNode (u : Uuid) : Edit.Honest Session.graph (addNode u) :=
  fun _ _ => (Graph.Change.mint u).changes

theorem honest_highlight (id : NodeId) : Edit.Honest Session.graph (highlight id) := by
  refine .bind (.view _) fun g => .bind ?_ fun _ => .pure _
  intro s _
  change s.graph.Changes (ArgumentMap.highlight g id s.highlighted).events s.graph
  rw [ArgumentMap.highlight]
  cases Store.node g id with
  | error e => exact .refl s.graph
  | ok n => exact (Graph.Change.remark (.inr rfl)).changes

theorem honest_retype (role : Role) : Edit.Honest Session.graph (retype role) := by
  refine .bind (.view _) fun highlighted => ?_
  cases highlighted with
  | none => exact .bind (.remark (.inl rfl)) fun _ => .pure _
  | some id =>
    refine .bind (.ask _) fun n => ?_
    split_ifs
    · exact .bind (.remark (.inl rfl)) fun _ => .pure _
    · exact .bind (honest_onGraph (Graph.honest_propagate id role none true)) fun stats => .pure _

theorem honest_setText (id : NodeId) (text : String) :
    Edit.Honest Session.graph (setText id text) := by
  apply honest_onGraph
  intro g _
  cases ht : g.setText id text with
  | error e =>
    simp only [Edit.attempt, Store.setText, ht, Except.map]
    exact .refl g
  | ok h =>
    simp only [Edit.attempt, Store.setText, ht, Except.map]
    rw [Graph.setText_eq_ok ht]
    exact (Graph.Change.reword id text).changes

theorem changes_tap (hg : s.graph.WellFormed) (id : NodeId) : ∃ log,
    (tap id s).events = Graph.unlinkEvents (s.turning (.tap id)) ++ log ∧
      (s.graph.unlink (s.turning (.tap id))).Changes log (tap id s).state.graph := by
  cases ht : s.tool with
  | edge =>
    have hturn : s.turning (.tap id) = s.edgeTool.turning s.config s.graph id := if_pos ht
    rw [tap_edge ht, hturn]
    exact EdgeTool.changes_respond hg s.config s.edgeTool id
  | detach =>
    have hturn : s.turning (.tap id) = none := if_neg (by simp [ht])
    rw [tap_detach ht, hturn]
    exact ⟨_, rfl, Graph.honest_detachParents id s.graph hg⟩
  | selection =>
    have hturn : s.turning (.tap id) = none := if_neg (by simp [ht])
    rw [tap_selection ht, hturn]
    exact ⟨_, rfl, honest_highlight id s hg⟩

/-- An action short of a load turns at most one edge around; all else is a chain
of announced changes, also if the action fails. -/
theorem changes_perform (ha : ∀ snapshot fresh, a ≠ .load snapshot fresh)
    (hg : s.graph.WellFormed) :
    ∃ log, (perform a s).events = Graph.unlinkEvents (s.turning a) ++ log ∧
      (s.graph.unlink (s.turning a)).Changes log (perform a s).state.graph := by
  cases a with
  | addNode u => exact ⟨_, rfl, Edit.Honest.map (honest_addNode u) _ s hg⟩
  | setTool tool => exact ⟨[], rfl, .refl s.graph⟩
  | tap id =>
    rw [perform_tap]
    exact changes_tap hg id
  | highlight id => exact ⟨_, rfl, Edit.Honest.map (honest_highlight id) _ s hg⟩
  | retype role => exact ⟨_, rfl, Edit.Honest.map (honest_retype role) _ s hg⟩
  | setText id text =>
    exact ⟨_, rfl, Edit.Honest.bind (honest_setText id text) (fun _ => .pure Reply.done) s hg⟩
  | load snapshot fresh => exact absurd rfl (ha snapshot fresh)

theorem perform_load_of_error {snapshot : Snapshot} {e : Failure}
    (h : snapshot.check s.graph = .error e) (fresh : NodeId → Uuid) :
    perform (.load snapshot fresh) s = ⟨s, [], .error e⟩ := by
  have hload : onGraph (snapshot.load fresh) s = ⟨s, [], .error e⟩ := by
    rw [onGraph_apply, Snapshot.load_of_error h]
  have hperform : load snapshot fresh s = ⟨s, [], .error e⟩ := by
    rw [load, Edit.bind_apply_of_error s (by rw [hload]), hload]
  exact (Edit.bind_apply_of_error s (by rw [hperform])).trans (by rw [hperform])

theorem perform_load_of_ok {snapshot : Snapshot} (h : snapshot.check s.graph = .ok ())
    (fresh : NodeId → Uuid) : perform (.load snapshot fresh) s =
      ⟨{ s with graph := snapshot.addedTo fresh s.graph, root := snapshot.root },
        [.graphLoaded snapshot.root], .ok (.loaded snapshot.root)⟩ := by
  have hload : onGraph (snapshot.load fresh) s =
      ⟨{ s with graph := snapshot.addedTo fresh s.graph }, [], .ok snapshot.root⟩ := by
    rw [onGraph_apply, Snapshot.load_of_ok h]
  have hperform : load snapshot fresh s =
      ⟨{ s with graph := snapshot.addedTo fresh s.graph, root := snapshot.root },
        [.graphLoaded snapshot.root], .ok snapshot.root⟩ := by
    rw [load, Edit.bind_apply_of_ok s (by rw [hload]), hload]
    rfl
  exact (Edit.bind_apply_of_ok s (by rw [hperform])).trans (by rw [hperform]; rfl)

theorem perform_wellFormed (hg : s.graph.WellFormed) (a : Action) :
    (perform a s).state.graph.WellFormed := by
  by_cases ha : ∃ snapshot fresh, a = .load snapshot fresh
  · obtain ⟨snapshot, fresh, rfl⟩ := ha
    cases hcheck : snapshot.check s.graph with
    | error e =>
      rw [perform_load_of_error hcheck]
      exact hg
    | ok _ =>
      rw [perform_load_of_ok hcheck]
      exact Snapshot.addedTo_wellFormed hg hcheck
  · simp only [not_exists] at ha
    obtain ⟨log, -, hc⟩ := changes_perform ha hg
    exact hc.wellFormed (hg.unlink _)

theorem after_wellFormed (hg : s.graph.WellFormed) (actions : List Action) :
    (s.after actions).graph.WellFormed := by
  induction actions generalizing s with
  | nil => exact hg
  | cons a actions ih => exact ih (perform_wellFormed hg a)

theorem start_wellFormed (config : Config) : (start config).graph.WellFormed := by
  constructor <;> simp [start, Graph.ids]

theorem reached_wellFormed (config : Config) (actions : List Action) :
    ((start config).after actions).graph.WellFormed :=
  after_wellFormed (start_wellFormed config) actions

end Session

end ArgumentMap
