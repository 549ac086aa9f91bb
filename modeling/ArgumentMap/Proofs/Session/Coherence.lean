import ArgumentMap.Proofs.Session.Answers
import ArgumentMap.Proofs.Session.Lasting
import ArgumentMap.Proofs.Session.Loading

/-!
# Sessions are coherent

Whatever the user has chosen is in the graph, and the edge tool is at work just
while it is the active tool. Every action keeps this, so no action of a run ever
fails on a known card.
-/

namespace ArgumentMap

inductive EdgeTool.Answers (id : NodeId) : EdgeTool → EdgeOutcome → Prop where
  | ignored : Answers id .inactive .ignored
  | picked : Answers id .seekingParent (.parentSelected id)
  | refused (parent : NodeId) (reason : Rejection) :
      Answers id (.seekingChild parent) (.rejected reason)
  | drawn (parent : NodeId) (flipped : Bool) (stats : Stats) :
      Answers id (.seekingChild parent) (.committed parent id flipped stats)

namespace EdgeTool

section
variable {config : Config} {tool : EdgeTool} {g : Graph} {id : NodeId} {outcome : EdgeOutcome}

theorem respond_answers (hg : g.WellFormed) (hid : g.contains id = true)
    (hp : ∀ parent, tool = .seekingChild parent → g.contains parent = true) :
    ∃ outcome, (respond config tool id g).result = .ok outcome ∧ tool.Answers id outcome := by
  rw [respond_known hid]
  cases tool with
  | inactive => exact ⟨_, rfl, .ignored⟩
  | seekingParent => exact ⟨_, rfl, .picked⟩
  | seekingChild parent =>
    dsimp only
    rcases Graph.drawEdge_cases config g parent id with ⟨-, hunknown, -⟩ | ⟨reason, -, hdraw⟩ |
      ⟨ho, hdraw⟩
    · rw [hp parent rfl] at hunknown
      cases hunknown
    · rw [hdraw]
      exact ⟨_, rfl, .refused parent reason⟩
    · obtain ⟨hne, hk, -, hnew, -⟩ := Graph.objection?_eq_none_iff.1 ho
      obtain ⟨v, role, stats, -, -, hcommit⟩ := Graph.commitEdge_eq hg hk hid hne hnew
      rw [hdraw, hcommit]
      exact ⟨_, rfl, .drawn parent _ stats⟩

theorem Answers.next_eq_inactive_iff (h : tool.Answers id outcome) :
    tool.next config outcome = .inactive ↔ tool = .inactive := by
  cases h with
  | ignored => simp [next]
  | picked => simp [next]
  | refused parent reason =>
    rw [next]
    split_ifs <;> simp
  | drawn => simp [next]

theorem Answers.next_candidate (h : tool.Answers id outcome) {x : NodeId}
    (hx : tool.next config outcome = .seekingChild x) : x = id ∨ tool = .seekingChild x := by
  cases h with
  | ignored => cases hx
  | picked =>
    cases hx
    exact .inl rfl
  | refused parent reason =>
    rw [next] at hx
    split_ifs at hx
    exact .inr hx
  | drawn => cases hx

end

end EdgeTool

namespace Session

/-- The cards that a session speaks of are in its graph, and the edge tool is at work just
while it is the active tool. -/
structure Coherent (s : Session Graph) : Prop where
  wellFormed : s.graph.WellFormed
  highlighted : ∀ id, s.highlighted = some id → s.graph.contains id = true
  candidate : ∀ id, s.edgeTool = .seekingChild id → s.graph.contains id = true
  root : ∀ id, s.root = some id → s.graph.contains id = true
  active : s.tool = .edge ↔ s.edgeTool ≠ .inactive

section
variable {s : Session Graph} {a : Action} {id : NodeId}

theorem start_coherent (config : Config) : (start config).Coherent := by
  refine ⟨start_wellFormed config, ?_, ?_, ?_, ?_⟩ <;> simp [start]

theorem Coherent.onGraph (hs : s.Coherent) {g : Graph} (hw : g.WellFormed)
    (hkept : ∀ id, s.graph.contains id = true → g.contains id = true) :
    { s with graph := g }.Coherent where
  wellFormed := hw
  highlighted x hx := hkept x (hs.highlighted x hx)
  candidate x hx := hkept x (hs.candidate x hx)
  root x hx := hkept x (hs.root x hx)
  active := hs.active

theorem Coherent.highlight (hs : s.Coherent) (id : NodeId) :
    (Session.highlight id s).state.Coherent := by
  cases hk : s.graph.contains id with
  | false =>
    rw [highlight_unknown hk]
    exact hs
  | true =>
    rw [highlight_known hk]
    refine ⟨hs.wellFormed, fun x hx => ?_, hs.candidate, hs.root, hs.active⟩
    cases hx
    exact hk

theorem Coherent.setTool (hs : s.Coherent) (tool : Tool) :
    (Session.setTool tool s).state.Coherent := by
  refine ⟨hs.wellFormed, hs.highlighted, ?_, hs.root, ?_⟩
  · intro x hx
    change (if tool = .edge then EdgeTool.seekingParent else .inactive) = .seekingChild x at hx
    split_ifs at hx
  · change tool = .edge ↔ (if tool = .edge then EdgeTool.seekingParent else .inactive) ≠ .inactive
    split_ifs with h <;> simp [h]

theorem Coherent.respond_answers (hs : s.Coherent) (hid : s.graph.contains id = true) :
    ∃ outcome, (EdgeTool.respond s.config s.edgeTool id s.graph).result = .ok outcome ∧
      s.edgeTool.Answers id outcome :=
  EdgeTool.respond_answers hs.wellFormed hid hs.candidate

theorem Coherent.select (hs : s.Coherent) (hid : s.graph.contains id = true) {g : Graph}
    (hw : g.WellFormed) (hkept : ∀ x, s.graph.contains x = true → g.contains x = true)
    {outcome : EdgeOutcome} (ha : s.edgeTool.Answers id outcome) :
    { s with edgeTool := s.edgeTool.next s.config outcome, graph := g }.Coherent where
  wellFormed := hw
  highlighted x hx := hkept x (hs.highlighted x hx)
  candidate x hx := by
    rcases ha.next_candidate hx with rfl | hx
    · exact hkept x hid
    · exact hkept x (hs.candidate x hx)
  root x hx := hkept x (hs.root x hx)
  active := hs.active.trans (not_congr ha.next_eq_inactive_iff).symm

theorem Coherent.tap (hs : s.Coherent) (id : NodeId) : (Session.tap id s).state.Coherent := by
  cases hk : s.graph.contains id with
  | false =>
    rw [tap_unknown hk]
    exact hs
  | true =>
    have hlasts := s.perform_lasts (.tap id)
    have hw := perform_wellFormed hs.wellFormed (.tap id)
    rw [perform_tap] at hlasts hw
    cases ht : s.tool with
    | edge =>
      rw [tap_edge ht] at hlasts hw ⊢
      obtain ⟨outcome, hok, ha⟩ := hs.respond_answers hk
      simp only [hok]
      exact hs.select hk hw (fun _ => hlasts.contains) ha
    | detach =>
      rw [tap_detach ht] at hlasts hw ⊢
      exact hs.onGraph hw fun _ => hlasts.contains
    | selection =>
      rw [tap_selection ht]
      exact hs.highlight id

theorem Coherent.retype (hs : s.Coherent) (role : Role) :
    (perform (.retype role) s).state.Coherent := by
  cases hh : s.highlighted with
  | none =>
    rw [retype_none hh]
    exact hs
  | some id =>
    cases hp : s.graph.persists id with
    | true =>
      rw [retype_persisted hh hp]
      exact hs
    | false =>
      have hk := hs.highlighted id hh
      rw [retype_editable hh hk hp]
      refine hs.onGraph (Graph.propagate_wellFormed hs.wellFormed _ _ _ _) fun x hx => ?_
      rwa [Graph.propagate_contains hs.wellFormed]

theorem Coherent.load (hs : s.Coherent) (snapshot : Snapshot) (fresh : NodeId → Uuid) :
    (perform (.load snapshot fresh) s).state.Coherent := by
  have hlasts := s.perform_lasts (.load snapshot fresh)
  have hw := perform_wellFormed hs.wellFormed (.load snapshot fresh)
  cases hcheck : snapshot.check s.graph with
  | error e =>
    rw [perform_load_of_error hcheck]
    exact hs
  | ok _ =>
    rw [perform_load_of_ok hcheck] at hlasts hw ⊢
    have hkept := hs.onGraph hw fun _ => hlasts.contains
    refine ⟨hw, hkept.highlighted, hkept.candidate, fun x hx => ?_, hs.active⟩
    change (snapshot.addedTo fresh s.graph).contains x = true
    rw [Graph.contains_iff_mem_ids, Snapshot.ids_addedTo hcheck, List.mem_append,
      ← Graph.contains_iff_mem_ids, or_comm]
    exact (Snapshot.check_eq_ok_iff.1 hcheck).root x hx

theorem perform_coherent (hs : s.Coherent) (a : Action) : (perform a s).state.Coherent := by
  cases a with
  | addNode u =>
    exact hs.onGraph (hs.wellFormed.mint u) fun _ => (s.graph.lasts_mint u).contains
  | setTool tool => exact hs.setTool tool
  | tap id =>
    rw [perform_tap]
    exact hs.tap id
  | highlight id =>
    rw [perform_highlight]
    exact hs.highlight id
  | retype role => exact hs.retype role
  | setText id text =>
    cases hk : s.graph.contains id with
    | false =>
      rw [setText_unknown hk]
      exact hs
    | true =>
      rw [setText_known hk]
      exact hs.onGraph (hs.wellFormed.reword id text)
        fun _ => (s.graph.lasts_reword id text).contains
  | load snapshot fresh => exact hs.load snapshot fresh

theorem after_coherent (hs : s.Coherent) (actions : List Action) :
    (s.after actions).Coherent := by
  induction actions generalizing s with
  | nil => exact hs
  | cons a actions ih => exact ih (perform_coherent hs a)

theorem Coherent.retype_answers (hs : s.Coherent) (role : Role) :
    ∃ outcome, (perform (.retype role) s).result = .ok (.retyped outcome) := by
  cases hh : s.highlighted with
  | none =>
    rw [retype_none hh]
    exact ⟨_, rfl⟩
  | some id =>
    cases hp : s.graph.persists id with
    | true =>
      rw [retype_persisted hh hp]
      exact ⟨_, rfl⟩
    | false =>
      have hk := hs.highlighted id hh
      obtain ⟨stats, hok⟩ := Graph.propagate_succeeds hs.wellFormed hk role none true
      rw [retype_editable hh hk hp]
      dsimp only
      rw [hok]
      exact ⟨_, rfl⟩

theorem Coherent.tap_answers (hs : s.Coherent) (hid : s.graph.contains id = true) :
    ∃ outcome, (Session.tap id s).result = .ok outcome ∧ outcome ≠ .edge .ignored := by
  cases ht : s.tool with
  | edge =>
    obtain ⟨outcome, hok, ha⟩ := hs.respond_answers hid
    rw [tap_edge ht]
    dsimp only
    rw [hok]
    refine ⟨_, rfl, fun he => ?_⟩
    cases he
    -- only an inactive tool ignores a selection
    have hidle : s.edgeTool = .inactive := by
      generalize s.edgeTool = tool at ha
      cases ha
      rfl
    exact hs.active.1 ht hidle
  | detach =>
    obtain ⟨detached, hok⟩ := Graph.detachParents_succeeds hs.wellFormed hid
    rw [tap_detach ht]
    dsimp only
    rw [hok]
    exact ⟨_, rfl, by simp⟩
  | selection =>
    rw [tap_selection ht, highlight_known hid]
    exact ⟨_, rfl, by simp⟩

end

/-- In every session that can be reached, what the user has chosen is in the graph and the
edge tool is at work just while it is active. So a change of role is always answered, and
so is whatever names a known card. What names an unknown one fails on that card and
changes and announces nothing. -/
theorem reached_answers (config : Config) (actions : List Action) :
    let s := (start config).after actions
    (∀ id, s.highlighted = some id → s.graph.contains id = true) ∧
    (∀ id, s.edgeTool = .seekingChild id → s.graph.contains id = true) ∧
    (∀ id, s.root = some id → s.graph.contains id = true) ∧
    (s.tool = .edge ↔ s.edgeTool ≠ .inactive) ∧
    (∀ role, ∃ outcome, (perform (.retype role) s).result = .ok (.retyped outcome)) ∧
    (∀ id, s.graph.contains id = true →
      (∃ outcome, (perform (.tap id) s).result = .ok (.tapped outcome)) ∧
      (perform (.highlight id) s).result = .ok (.tapped (.highlighted id)) ∧
      ∀ text, (perform (.setText id text) s).result = .ok .done) ∧
    (∀ id, (perform (.tap id) s).result ≠ .ok (.tapped (.edge .ignored))) ∧
    ∀ id, s.graph.contains id = false →
      perform (.tap id) s = ⟨s, [], .error (.nodeNotFound id)⟩ ∧
      perform (.highlight id) s = ⟨s, [], .error (.nodeNotFound id)⟩ ∧
      ∀ text, perform (.setText id text) s = ⟨s, [], .error (.nodeNotFound id)⟩ := by
  intro s
  have hs : s.Coherent := after_coherent (start_coherent config) actions
  refine ⟨hs.highlighted, hs.candidate, hs.root, hs.active, hs.retype_answers,
    fun id hid => ⟨?_, ?_, fun text => ?_⟩, fun id => ?_, fun id hid => ⟨?_, ?_, fun text => ?_⟩⟩
  · obtain ⟨outcome, hok, -⟩ := hs.tap_answers hid
    rw [perform_tap, hok]
    exact ⟨outcome, rfl⟩
  · rw [perform_highlight, highlight_known hid]
    rfl
  · rw [setText_known hid]
  · rw [perform_tap]
    cases hid : s.graph.contains id with
    | false =>
      rw [tap_unknown hid]
      simp [Except.map]
    | true =>
      obtain ⟨outcome, hok, hne⟩ := hs.tap_answers hid
      simpa [hok, Except.map] using hne
  · rw [perform_tap, tap_unknown hid]
    rfl
  · rw [perform_highlight, highlight_unknown hid]
    rfl
  · exact setText_unknown hid text

theorem reached_answers_waiting :
    let s := (start {}).after [.addNode .nil, .addNode .nil, .setTool .edge, .tap ⟨"sketch-0"⟩]
    s.edgeTool = .seekingChild ⟨"sketch-0"⟩ ∧ s.graph.contains ⟨"sketch-0"⟩ = true ∧
      s.graph.contains ⟨"sketch-1"⟩ = true ∧
      (∃ outcome, (perform (.tap ⟨"sketch-1"⟩) s).result = .ok (.tapped outcome) ∧
        outcome ≠ .edge .ignored) ∧
      s.graph.contains ⟨"n"⟩ = false ∧
      perform (.tap ⟨"n"⟩) s = ⟨s, [], .error (.nodeNotFound ⟨"n"⟩)⟩ := by
  intro s
  have htool : s.edgeTool = .seekingChild ⟨"sketch-0"⟩ := by decide
  have hknown : s.graph.contains ⟨"sketch-1"⟩ = true := by decide
  have hunknown : s.graph.contains ⟨"n"⟩ = false := by decide
  obtain ⟨-, hcandidate, -, -, -, hanswers, hminds, hrefuses⟩ :=
    reached_answers {} [.addNode .nil, .addNode .nil, .setTool .edge, .tap ⟨"sketch-0"⟩]
  obtain ⟨outcome, hok⟩ := (hanswers ⟨"sketch-1"⟩ hknown).1
  refine ⟨htool, hcandidate _ htool, hknown, ⟨outcome, hok, ?_⟩, hunknown,
    (hrefuses ⟨"n"⟩ hunknown).1⟩
  rintro rfl
  exact hminds ⟨"sketch-1"⟩ hok

end Session

end ArgumentMap
