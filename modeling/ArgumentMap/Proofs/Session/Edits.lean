import ArgumentMap.Proofs.Pass.Repairs
import ArgumentMap.Proofs.Session.Drawing
import ArgumentMap.Session

/-!
# What single edits keep

Gestures are made of repairs and new edges. A property that survives each of
these survives every gesture, on any graph and also if the gesture fails. Some
properties survive whole gestures only, which is enough for a session to keep
them.
-/

namespace ArgumentMap

/-- No repair breaks it, and no new edge. -/
structure Graph.Editable (P : Graph → Prop) : Prop extends Graph.Repairable P where
  link : ∀ {g : Graph} (parent child : NodeId), P g → P (g.link parent child)

namespace Graph

theorem connect_eq_ok_cases {g h : Graph} {parent child : NodeId} {added : Bool}
    (hc : g.connect parent child = .ok (added, h)) : h = g ∨ h = g.link parent child := by
  rw [connect] at hc
  cases hchild : g.node child with
  | error e =>
    rw [hchild] at hc
    cases hc
  | ok c =>
    rw [hchild] at hc
    by_cases hne : parent = child
    · simp only [bind, Except.bind, if_pos hne, pure, Except.pure] at hc
      exact .inl (Prod.mk.inj (Except.ok.inj hc)).2.symm
    · cases hparent : g.node parent with
      | error e =>
        simp only [bind, Except.bind, if_neg hne, hparent] at hc
        cases hc
      | ok p =>
        simp only [bind, Except.bind, if_neg hne, hparent, pure, Except.pure] at hc
        split_ifs at hc
        · exact .inl (Prod.mk.inj (Except.ok.inj hc)).2.symm
        · exact .inr (Prod.mk.inj (Except.ok.inj hc)).2.symm

variable {P : Graph → Prop}

theorem keeps_attempt_disconnect
    (hshed : ∀ {g : Graph} (parent child : NodeId), P g → P (g.shed parent [child]))
    (parent child : NodeId) : Edit.Keeps P (Edit.attempt (·.disconnect parent child)) := by
  apply Edit.Keeps.attempt
  intro g removed h hg hd
  obtain ⟨-, -, hr⟩ := disconnect_eq_ok_iff.1 hd
  rw [(Prod.mk.inj hr).2]
  exact hshed parent child hg

theorem keeps_detachParents
    (hshed : ∀ {g : Graph} (parent child : NodeId), P g → P (g.shed parent [child]))
    (id : NodeId) : Edit.Keeps P (detachParents id) := by
  have hfrom : ∀ ps, Edit.Keeps P (detachFrom id ps) := by
    intro ps
    induction ps with
    | nil => exact .pure []
    | cons p rest ih =>
      refine .bind (.ask _) fun parent => ?_
      split_ifs
      · exact ih
      · refine .bind (keeps_attempt_disconnect hshed p id) fun removed => ?_
        split_ifs
        · exact .bind (.announce _) fun _ => .bind ih fun _ => .pure _
        · exact ih
  exact .bind (.ask _) fun n => hfrom n.parents

namespace Editable

variable (hP : Editable P)
include hP

theorem keeps_clearReverse (parent child : NodeId) :
    Edit.Keeps P (clearReverse parent child) := by
  refine .bind (.view _) fun present => ?_
  split_ifs
  · refine .bind (keeps_attempt_disconnect hP.shed child parent) fun _ => ?_
    exact .bind (.announce _) fun _ => .pure _
  · exact .pure _

theorem keeps_attempt_connect (parent child : NodeId) :
    Edit.Keeps P (Edit.attempt (·.connect parent child)) := by
  apply Edit.Keeps.attempt
  intro g added h hg hc
  rcases connect_eq_ok_cases hc with rfl | rfl
  · exact hg
  · exact hP.link parent child hg

theorem keeps_seedRole (parent child : NodeId) : Edit.Keeps P (seedRole parent child) := by
  intro g hg
  rcases seedRole_cases g parent child with h | ⟨hp, h⟩
  · rwa [h]
  · rw [h]
    exact hP.setRole child .assertion hg hp

theorem keeps_settleEdge (parent child : NodeId) : Edit.Keeps P (settleEdge parent child) := by
  refine .bind (.ask _) fun p => .bind (.ask _) fun c => ?_
  split_ifs
  · exact hP.keeps_propagate parent p.role none true
  · exact hP.keeps_propagate child c.legalRole none true

theorem keeps_commitEdge (parent child : NodeId) : Edit.Keeps P (commitEdge parent child) := by
  refine .bind (hP.keeps_clearReverse parent child) fun flipped => ?_
  refine .bind (hP.keeps_attempt_connect parent child) fun _ => .bind (.announce _) fun _ => ?_
  refine .bind (hP.keeps_seedRole parent child) fun _ => ?_
  exact .bind (hP.keeps_settleEdge parent child) fun stats => .pure _

theorem keeps_drawEdge (config : Config) (parent child : NodeId) :
    Edit.Keeps P (drawEdge config parent child) := by
  refine .bind (.ask _) fun objection => ?_
  cases objection with
  | some reason => exact .bind (.announce _) fun _ => .pure _
  | none => exact hP.keeps_commitEdge parent child

theorem keeps_respond (config : Config) (tool : EdgeTool) (id : NodeId) :
    Edit.Keeps P (EdgeTool.respond config tool id) := by
  refine .bind (.ask _) fun n => ?_
  cases tool with
  | inactive => exact .pure _
  | seekingParent => exact .pure _
  | seekingChild parent => exact hP.keeps_drawEdge config parent id

theorem keeps_select (config : Config) (id : NodeId) :
    Edit.Keeps (fun s => P s.2) (EdgeTool.select config id) := by
  refine .bind (.view _) fun tool => ?_
  refine .bind (.zoom (fun _ _ => rfl) (hP.keeps_respond config tool id)) fun outcome => ?_
  exact .bind (.change fun s hs => hs) fun _ => .pure outcome

end Editable

end Graph

/-- Each gesture on a graph keeps it, also one that fails. -/
structure Graph.Gestural (P : Graph → Prop) : Prop where
  select : ∀ config id, Edit.Keeps (fun s => P s.2) (EdgeTool.select config id)
  detachParents : ∀ id, Edit.Keeps P (detachParents id)
  propagate : ∀ id role origin force, Edit.Keeps P (propagate id role origin force)

theorem Graph.Editable.gestural {P : Graph → Prop} (hP : Editable P) : Gestural P :=
  ⟨hP.keeps_select, keeps_detachParents hP.shed, hP.keeps_propagate⟩

/-- An action that neither brings in a card nor writes a text. -/
def Action.IsGesture : Action → Prop
  | .setTool _ | .tap _ | .highlight _ | .retype _ => True
  | .addNode _ | .setText .. | .load .. => False

namespace Graph.Gestural

variable {P : Graph → Prop} (hP : Gestural P)
include hP

theorem keeps_tap (id : NodeId) : Edit.Keeps (fun s => P s.graph) (Session.tap id) := by
  refine .bind (.view _) fun s => ?_
  cases s.tool with
  | edge =>
    refine .bind ?_ fun _ => .pure _
    exact fun t ht => hP.select s.config id (t.edgeTool, t.graph) ht
  | detach => exact .bind (.zoom (fun _ _ => rfl) (hP.detachParents id)) fun _ => .pure _
  | selection => exact .bind (.view _) fun g => .bind (fun _ hs => hs) fun _ => .pure _

theorem keeps_retype (role : Role) :
    Edit.Keeps (fun s => P s.graph) (Session.retype role) := by
  refine .bind (.view _) fun highlighted => ?_
  cases highlighted with
  | none => exact .bind (.announce _) fun _ => .pure _
  | some id =>
    refine .bind (.ask _) fun n => ?_
    split_ifs
    · exact .bind (.announce _) fun _ => .pure _
    · refine .bind (.zoom (fun _ _ => rfl) ?_) fun stats => .pure _
      exact hP.propagate id role none true

theorem keeps_perform {a : Action} (ha : a.IsGesture) :
    Edit.Keeps (fun s => P s.graph) (Session.perform a) := by
  cases a with
  | setTool tool => exact .bind (.change fun s hs => hs) fun _ => .pure _
  | tap id => exact .map (hP.keeps_tap id) _
  | highlight id =>
    exact .map (.bind (.view _) fun g => .bind (fun _ hs => hs) fun _ => .pure _) _
  | retype role => exact .map (hP.keeps_retype role) _
  | addNode u => exact ha.elim
  | setText id text => exact ha.elim
  | load snapshot fresh => exact ha.elim

end Graph.Gestural

end ArgumentMap
