import ArgumentMap.Proofs.Graph.Outline
import ArgumentMap.Proofs.Session.Alike
import ArgumentMap.Proofs.Session.Answers

/-!
# Content never shows

Sessions that differ in the content of cards only cannot be told apart: what the
user does to both comes back with the same answers and announcements, and leaves
them differing in content only, whatever texts were written and whatever identifiers
were generated on the way.
-/

namespace ArgumentMap

namespace Graph

def SameOutline (g h : Graph) : Prop := g.outline = h.outline

section
variable {g h : Graph} {parent child : NodeId} (hs : g.SameOutline h)
include hs

theorem SameOutline.nodes : List.Forall₂ (fun n m => n.outline = m.outline) g.nodes h.nodes := by
  have hnodes : g.nodes.map Node.outline = h.nodes.map Node.outline := congrArg Graph.nodes hs
  rw [← List.forall₂_eq_eq_eq] at hnodes
  simpa only [List.forall₂_map_left_iff, List.forall₂_map_right_iff] using hnodes

theorem SameOutline.insert {n m : Node} (hnm : n.outline = m.outline) :
    Agrees SameOutline (g.insert n) (h.insert m) := by
  have hid : n.id = m.id := Node.congr_outline (fun _ => rfl) hnm
  have hcontains := (sameAt_of_outline hs m.id).contains
  rw [Graph.insert, Graph.insert, hid, hcontains]
  split_ifs
  · exact .error _
  · refine .ok ?_
    have hboth : { g.outline with nodes := g.outline.nodes ++ [n.outline] } =
        { h.outline with nodes := h.outline.nodes ++ [m.outline] } := by
      rw [hnm, show g.outline = h.outline from hs]
    simpa [SameOutline, outline] using hboth

theorem SameOutline.setText (x : NodeId) (text text' : String) :
    Agrees SameOutline (g.setText x text) (h.setText x text') := by
  have hnode := (sameAt_of_outline hs x).node
  rw [Graph.setText, Graph.setText]
  generalize g.node x = a at hnode
  generalize h.node x = b at hnode
  cases hnode with
  | error e => exact .error e
  | ok _ =>
    refine .ok ?_
    change (g.reword x text).outline = (h.reword x text').outline
    rw [outline_reword, outline_reword, hs]

theorem SameOutline.connect (parent child : NodeId) :
    Agrees (fun a b => a.1 = b.1 ∧ SameOutline a.2 b.2) (g.connect parent child)
      (h.connect parent child) := by
  have hparent := (sameAt_of_outline hs parent).node
  have hchild := (sameAt_of_outline hs child).node
  rw [Graph.connect, Graph.connect]
  generalize g.node parent = p at hparent
  generalize h.node parent = p' at hparent
  generalize g.node child = c at hchild
  generalize h.node child = c' at hchild
  cases hchild with
  | error e => exact .error e
  | ok _ =>
    change Agrees _ (if parent = child then _ else _) (if parent = child then _ else _)
    split_ifs
    · exact .ok ⟨rfl, hs⟩
    · cases hparent with
      | error e => exact .error e
      | @ok n m hnm =>
        have hchildren : n.children = m.children := Node.congr_outline (fun _ => rfl) hnm
        change Agrees _ (if child ∈ n.children then _ else _) (if child ∈ m.children then _ else _)
        rw [hchildren]
        split_ifs
        · exact .ok ⟨rfl, hs⟩
        · refine .ok ⟨rfl, ?_⟩
          change (g.link parent child).outline = (h.link parent child).outline
          rw [outline_link, outline_link, hs]

theorem SameOutline.disconnect (parent child : NodeId) :
    Agrees (fun a b => a.1 = b.1 ∧ SameOutline a.2 b.2) (g.disconnect parent child)
      (h.disconnect parent child) := by
  refine ((sameAt_of_outline hs parent).disconnect (sameAt_of_outline hs child)).mono ?_
  rintro a b ⟨hremoved, ha, hb⟩
  refine ⟨hremoved, ?_⟩
  rw [SameOutline, ha, hb, outline_shed, outline_shed, hs]

end

theorem alike_outline : Store.Alike (fun n m => n.outline = m.outline) SameOutline where
  outline := id
  nodes hs := hs.nodes
  node x hs := (sameAt_of_outline hs x).node
  contains x hs := (sameAt_of_outline hs x).contains
  hasEdge {g h} p c hs := by
    change g.hasEdge p c = h.hasEdge p c
    rw [hasEdge, hasEdge, (sameAt_of_outline hs p).children]
  insert hs hnm := hs.insert hnm
  mint {g h u v} hs _ := by
    have hboth : ((g.mint u).1, (g.mint u).2.outline) = ((h.mint v).1, (h.mint v).2.outline) := by
      rw [← mint_outline, ← mint_outline, hs]
    exact Prod.mk.inj hboth
  setRole {g h} x role hs := by
    change (g.setRole x role).outline = (h.setRole x role).outline
    rw [outline_setRole, outline_setRole, hs]
  setText := @fun _ _ x text text' hs _ => hs.setText x text text'
  connect p c hs := hs.connect p c
  disconnect p c hs := hs.disconnect p c

end Graph

/-- An action without the content that it brings. -/
def Action.outline : Action → Action
  | .addNode _ => .addNode .nil
  | .setText id _ => .setText id ""
  | .load snapshot _ => .load snapshot.outline fun _ => .nil
  | a => a

theorem Action.alike_of_outline {a b : Action} (hab : a.outline = b.outline) :
    Action.Alike (fun n m => n.outline = m.outline) a b := by
  cases a with
  | addNode u => cases b <;> cases hab; exact .addNode fun _ => rfl
  | setTool tool => cases b <;> cases hab; exact .setTool tool
  | tap id => cases b <;> cases hab; exact .tap id
  | highlight id => cases b <;> cases hab; exact .highlight id
  | retype role => cases b <;> cases hab; exact .retype role
  | setText id text =>
    cases b with
    | setText id' text' =>
      cases hab
      exact .setText id fun _ _ hnm => hnm
    | _ => cases hab
  | load s fresh =>
    cases b with
    | load s' fresh' =>
      have hs : s.outline = s'.outline := (Action.load.inj hab).1
      have hcards : s.cards.map Snapshot.Card.outline = s'.cards.map Snapshot.Card.outline :=
        congrArg Snapshot.cards hs
      rw [← List.forall₂_eq_eq_eq] at hcards
      simp only [List.forall₂_map_left_iff, List.forall₂_map_right_iff] at hcards
      refine .load (congrArg (·.root) hs) (congrArg (·.edges) hs) (hcards.imp fun c c' hc => ?_)
      exact congrArg (fun c => (c.toNode fun _ => .nil).outline) hc
    | _ => cases hab

namespace Session

def outline (s : Session Graph) : Session Graph := { s with graph := s.graph.outline }

theorem alike_iff_outline {s t : Session Graph} :
    Session.Alike Graph.SameOutline s t ↔ s.outline = t.outline := by
  rw [outline, outline, Session.mk.injEq]
  exact ⟨fun h => ⟨h.config, h.graph, h.tool, h.edgeTool, h.highlighted, h.root⟩,
    fun ⟨hconfig, hgraph, htool, hedgeTool, hhighlighted, hroot⟩ =>
      ⟨hconfig, hgraph, htool, hedgeTool, hhighlighted, hroot⟩⟩

theorem alike_of_outline {as bs : List Action}
    (has : as.map Action.outline = bs.map Action.outline) :
    List.Forall₂ (Action.Alike fun n m => n.outline = m.outline) as bs := by
  rw [← List.forall₂_eq_eq_eq] at has
  simp only [List.forall₂_map_left_iff, List.forall₂_map_right_iff] at has
  exact has.imp fun _ _ => Action.alike_of_outline

/-- The graphs agree but for one value of one card, its text. -/
structure Reworded (g h : Graph) (id : NodeId) (text : String) : Prop where
  stem : h.stem = g.stem
  counter : h.counter = g.counter
  ids : h.ids = g.ids
  others : ∀ x, x ≠ id → h.find? x = g.find? x
  body : ∀ n, g.find? id = some n → ∃ body, h.find? id = some { n with body := body } ∧
    ∀ key, body.get? key = if key = Body.textKey then some (.text text) else n.body.get? key

theorem reworded_reword (g : Graph) (id : NodeId) (text : String) :
    Reworded g (g.reword id text) id text := by
  have hfind : ∀ x, (g.reword id text).find? x =
      if x = id then (g.find? x).map (fun n => { n with body := n.body.setText text })
      else g.find? x := Graph.find?_modify fun _ => rfl
  refine ⟨rfl, rfl, Graph.ids_reword, fun x hx => ?_, fun n hn => ?_⟩
  · rw [hfind, if_neg hx]
  · refine ⟨n.body.setText text, ?_, Body.get?_insert n.body Body.textKey (.text text)⟩
    rw [hfind, if_pos rfl, hn, Option.map_some]

theorem setText_rewords (s : Session Graph) (id : NodeId) (text : String) :
    let done := perform (.setText id text) s
    done.events = [] ∧ done.state = { s with graph := done.state.graph } ∧
      Reworded s.graph done.state.graph id text := by
  cases hk : s.graph.contains id with
  | false =>
    have hf : s.graph.find? id = none := by simpa [Graph.contains] using hk
    rw [setText_unknown hk]
    exact ⟨rfl, rfl, rfl, rfl, rfl, fun _ _ => rfl, fun n hn => by rw [hf] at hn; cases hn⟩
  | true =>
    rw [setText_known hk]
    exact ⟨rfl, rfl, reworded_reword s.graph id text⟩

/-- Two runs from sessions that differ in content only, with actions that differ in
the content that they bring, show the same and end in sessions that differ in
content only. Writing a text is silent and touches that one text. -/
theorem content_never_shows :
    (∀ (s t : Session Graph) (as bs : List Action), s.outline = t.outline →
      as.map Action.outline = bs.map Action.outline →
      s.trace as = t.trace bs ∧ (s.after as).outline = (t.after bs).outline) ∧
    ∀ (s : Session Graph) (id : NodeId) (text : String),
      let done := perform (.setText id text) s
      done.events = [] ∧ done.state = { s with graph := done.state.graph } ∧
        Reworded s.graph done.state.graph id text := by
  refine ⟨fun s t as bs hs has => ?_, setText_rewords⟩
  obtain ⟨htrace, hafter⟩ :=
    alike_after Graph.alike_outline (alike_iff_outline.2 hs) (alike_of_outline has)
  exact ⟨htrace, alike_iff_outline.1 hafter⟩

theorem content_never_shows_rewritten :
    let n : NodeId := ⟨"n"⟩
    let x : NodeId := ⟨"sketch-0"⟩
    let stored (uuid : Option Uuid) (text : String) : Snapshot :=
      { cards := [{ id := n, stableId := uuid, role := .source, body := Body.empty.setText text }] }
    let uuid : Uuid := ⟨List.replicate 32 7, rfl⟩
    let s := (start {}).after [.addNode .nil, .setText x "one"]
    let t := (start {}).after [.addNode uuid, .setText x "two"]
    let draw : List Action := [.setTool .edge, .tap x, .tap n]
    let fresh : NodeId → Uuid := fun _ => .nil
    let as : List Action := .load (stored none "one") fresh :: .setText n "three" :: draw
    let bs : List Action := .load (stored uuid "two") fresh :: .setText n "four" :: draw
    s ≠ t ∧ s.after as ≠ t.after bs ∧ s.trace as = t.trace bs ∧
      (s.after as).outline = (t.after bs).outline ∧ (s.after as).graph.hasEdge x n = true := by
  intro n x stored uuid s t draw fresh as bs
  have hrun := content_never_shows.1 s t as bs (by decide) rfl
  exact ⟨by decide, by decide, hrun.1, hrun.2, by decide⟩

end Session

end ArgumentMap
