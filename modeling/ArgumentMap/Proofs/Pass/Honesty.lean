import ArgumentMap.Proofs.Graph.Change
import ArgumentMap.Proofs.Pass.Repairs

/-!
# A pass announces every edge that it cuts

Whatever a pass does to a well-formed graph is a chain of announced changes, on
every agenda and also where it stops short or fails. It announces nothing but
its repairs.
-/

namespace ArgumentMap

/-- Edges that go, and what the user is told of a pass. -/
def Event.IsRepair : Event → Prop
  | .edgeRemoved .. => True
  | .notice (.typeChanged ..) => True
  | .notice (.nodesDetached ..) => True
  | _ => False

namespace Pass

section
variable {p : Pass Graph} {id parent : NodeId} {role : Role}

theorem changes_recastEvents (g : Graph) (before : Role) :
    g.Changes (recastEvents id before role) g := by
  rw [recastEvents]
  split_ifs
  · exact (Graph.Change.remark (.inl rfl)).changes
  · exact .refl g

theorem changes_cutEvents (g : Graph) (detached : Except Failure (List NodeId)) :
    g.Changes (cutEvents id detached) g := by
  match detached with
  | .ok (_ :: _) => exact (Graph.Change.remark (.inl rfl)).changes
  | .ok [] | .error _ => exact .refl g

theorem changes_recast (g : Graph) (hp : g.persists id = false) :
    g.Changes [] (g.recast id role) := by
  rw [Graph.recast]
  split_ifs
  · exact .refl g
  · exact (Graph.Change.recast id role hp).changes

theorem changes_detachEach (hg : p.graph.WellFormed) (hp : p.graph.persists parent = false)
    (cs : List NodeId) : p.graph.Changes (detachEach parent cs p).events
      (detachEach parent cs p).state.graph := by
  induction cs generalizing p with
  | nil => exact .refl p.graph
  | cons c cs ih =>
    cases hd : p.graph.disconnect parent c with
    | error e =>
      have hd' : disconnect parent c p = .error e := by
        simp only [disconnect, Store.disconnect, hd, Except.map]
      rw [detachEach_cons_of_error hd']
      exact .refl p.graph
    | ok r =>
      obtain ⟨removed, h⟩ := r
      have hcut := Graph.changes_of_disconnect hg hp hd
      have hw := hcut.wellFormed hg
      have hp' : h.persists parent = false := (hcut.persists parent).trans hp
      have hd' : disconnect parent c p = .ok (removed, { p with graph := h }) := by
        simp only [disconnect, Store.disconnect, hd, Except.map]
      rw [detachEach_cons_of_ok hd']
      cases removed with
      | false => exact hcut.trans (ih (p := { p with graph := h }) hw hp')
      | true => exact hcut.trans (ih (p := countDetached { p with graph := h }) hw hp')

theorem honest_enter (id : NodeId) (role : Role) (origin : Option NodeId) (force : Bool) :
    Edit.Honest Pass.graph (enter id role origin force) := by
  intro p hg
  cases hf : p.graph.find? id with
  | none =>
    rw [enter_unknown hf]
    exact .refl p.graph
  | some n =>
    cases hp : n.persisted with
    | true =>
      rw [enter_persisted hf hp]
      exact .refl p.graph
    | false =>
      by_cases hr : n.role = role → force = true
      · rw [enter_taking hf hp hr]
        have hpers : p.graph.persists id = false := (Graph.persists_of_find? hf).trans hp
        have hrecast : (p.countCall.recast id role).graph = p.graph.recast id role :=
          graph_recast id role p.countCall
        have hw := hg.recast _ id role
        have hp' : (p.graph.recast id role).persists id = false := by simpa using hpers
        rw [← hrecast] at hw hp'
        have hcut := changes_detachEach hw hp' (surplus role origin n.children)
        rw [hrecast] at hcut
        exact (changes_recastEvents _ _).trans ((changes_recast _ hpers).trans
          (hcut.trans (changes_cutEvents _ _)))
      · obtain ⟨hsame, hforce⟩ := Classical.not_imp.1 hr
        rw [Bool.not_eq_true] at hforce
        rw [hforce, enter_idle hf hp hsame]
        exact .refl p.graph

end

section
variable (n : Node) (role : Role) (origin : Option NodeId)

theorem announces_assign :
    Edit.Announces Event.IsRepair (assign n role : Edit (Pass Graph) Unit) := by
  intro p
  rw [assign_apply]
  split_ifs
  · simp
  · exact List.forall_mem_singleton.2 trivial

theorem announces_detachEach (parent : NodeId) (cs : List NodeId) :
    Edit.Announces Event.IsRepair (detachEach parent cs : Edit (Pass Graph) _) := by
  induction cs with
  | nil => exact .pure []
  | cons c cs ih =>
    refine .bind (.attempt _) fun removed => ?_
    split_ifs
    · refine .bind (.change _) fun _ => .bind (.announce trivial) fun _ => ?_
      exact .bind ih fun _ => .pure _
    · exact ih

theorem announces_reduce :
    Edit.Announces Event.IsRepair (reduce n origin : Edit (Pass Graph) _) := by
  refine .bind (announces_detachEach _ _) fun detached => ?_
  split_ifs
  · exact .bind (.announce trivial) fun _ => .pure _
  · exact .pure _

theorem announces_spread (repair : Bool) :
    Edit.Announces Event.IsRepair (spread n role origin repair : Edit (Pass Graph) _) := by
  rw [spread]
  split_ifs
  · exact .pure _
  · exact .bind (announces_reduce n origin) fun _ => .pure _
  · exact .pure _

theorem announces_enter (id : NodeId) (force : Bool) :
    Edit.Announces Event.IsRepair (enter id role origin force : Edit (Pass Graph) _) := by
  refine .bind (.change _) fun _ => .bind (.ask _) fun n => ?_
  split_ifs
  · exact announces_spread n _ origin false
  · exact .pure _
  · exact announces_spread n role origin true
  · exact .pure _
  · exact .bind (announces_assign n role) fun _ => announces_spread n role origin true

end

end Pass

namespace Graph

theorem announces_propagate (id : NodeId) (role : Role) (origin : Option NodeId) (force : Bool) :
    Edit.Announces Event.IsRepair (propagate id role origin force : Edit Graph Stats) :=
  fun g => (Edit.Announces.composable _).run
    (fun id role origin force => Pass.announces_enter role origin id force) id role origin force
    { graph := g }

theorem honest_propagate (id : NodeId) (role : Role) (origin : Option NodeId) (force : Bool) :
    Edit.Honest (fun g => g) (propagate id role origin force) :=
  fun g hg => (Edit.Honest.composable Pass.graph).run Pass.honest_enter id role origin force
    { graph := g } hg

end Graph

end ArgumentMap
