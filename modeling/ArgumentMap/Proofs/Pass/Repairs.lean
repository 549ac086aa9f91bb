import ArgumentMap.Proofs.Keeps
import ArgumentMap.Proofs.Pass.Enter

/-!
# What single repairs keep

A pass writes roles of the user's own cards and cuts edges, one at a time. A
property that survives each of these survives every pass, on any graph, also one
that stops short or fails.
-/

namespace ArgumentMap

theorem Edit.Composable.run {Q : {α : Type} → Edit (Pass Graph) α → Prop} (hQ : Composable Q)
    (henter : ∀ id role origin force, Q (Pass.enter id role origin force)) (id : NodeId)
    (role : Role) (origin : Option NodeId) (force : Bool) : Q (Pass.run id role origin force) := by
  have hperform : ∀ t, Q (Pass.perform t) := by
    intro t
    cases t with
    | enter id role origin force => exact henter id role origin force
    | raise parent child role force =>
      refine hQ.bind (hQ.view _) fun present => ?_
      split_ifs
      · exact hQ.bind (hQ.ask _) fun n => hQ.pure _
      · exact hQ.pure _
    | lower parent child role leaf =>
      refine hQ.bind (hQ.view _) fun present => ?_
      split_ifs
      · exact hQ.bind (hQ.ask _) fun n => hQ.pure _
      · exact hQ.pure _
  have hwork : ∀ steps agenda, Q (Pass.work steps agenda) := by
    intro steps
    induction steps with
    | zero =>
      intro agenda
      cases agenda <;> exact hQ.pure _
    | succ steps ih =>
      intro agenda
      cases agenda with
      | nil => exact hQ.pure _
      | cons t rest => exact hQ.bind (hperform t) fun more => ih (more ++ rest)
  exact hQ.bind (hQ.view _) fun bound => hQ.bind (hwork bound _) fun _ => hQ.pure ()

/-- Neither a role written on a card of the user's own nor an edge cut breaks it. -/
structure Graph.Repairable (P : Graph → Prop) : Prop where
  setRole : ∀ {g : Graph} (id : NodeId) (role : Role), P g → g.persists id = false →
    P (g.setRole id role)
  shed : ∀ {g : Graph} (parent child : NodeId), P g → P (g.shed parent [child])

namespace Graph.Repairable

variable {P : Graph → Prop} (hP : Repairable P)
include hP

theorem recast {g : Graph} (id : NodeId) (role : Role) (hg : P g) (hp : g.persists id = false) :
    P (g.recast id role) := by
  rw [Graph.recast]
  split_ifs
  · exact hg
  · exact hP.setRole id role hg hp

theorem disconnect {g h : Graph} {parent child : NodeId} {removed : Bool} (hg : P g)
    (hd : g.disconnect parent child = .ok (removed, h)) : P h := by
  obtain ⟨-, -, hr⟩ := disconnect_eq_ok_iff.1 hd
  rw [(Prod.mk.inj hr).2]
  exact hP.shed parent child hg

end Graph.Repairable

namespace Pass

variable {P : Graph → Prop} (hP : Graph.Repairable P)
include hP

theorem keeps_attempt_disconnect (parent c : NodeId) :
    Edit.Keeps (fun p => P p.graph) (Edit.attempt (disconnect parent c)) := by
  apply Edit.Keeps.attempt
  intro p removed q hp hd
  simp only [disconnect, Store.disconnect] at hd
  cases hg : p.graph.disconnect parent c with
  | error e =>
    rw [hg] at hd
    cases hd
  | ok r =>
    rw [hg] at hd
    cases hd
    exact hP.disconnect hp hg

theorem keeps_detachEach (parent : NodeId) (cs : List NodeId) :
    Edit.Keeps (fun p => P p.graph) (detachEach parent cs) := by
  induction cs with
  | nil => exact .pure []
  | cons c cs ih =>
    refine .bind (keeps_attempt_disconnect hP parent c) fun removed => ?_
    split_ifs
    · refine .bind (.change fun p hp => hp) fun _ => .bind (.announce _) fun _ => ?_
      exact .bind ih fun _ => .pure _
    · exact ih

theorem keeps_enter (id : NodeId) (role : Role) (origin : Option NodeId) (force : Bool) :
    Edit.Keeps (fun p => P p.graph) (enter id role origin force) := by
  intro p hp
  cases hf : p.graph.find? id with
  | none =>
    rw [enter_unknown hf]
    exact hp
  | some n =>
    cases hn : n.persisted with
    | true =>
      rw [enter_persisted hf hn]
      exact hp
    | false =>
      by_cases hr : n.role = role → force = true
      · rw [enter_taking hf hn hr]
        apply keeps_detachEach hP
        rw [graph_recast]
        exact hP.recast id role hp ((Graph.persists_of_find? hf).trans hn)
      · obtain ⟨hsame, hforce⟩ := Classical.not_imp.1 hr
        rw [Bool.not_eq_true] at hforce
        rw [hforce, enter_idle hf hn hsame]
        exact hp

end Pass

theorem Graph.Repairable.keeps_propagate {P : Graph → Prop} (hP : Repairable P) (id : NodeId)
    (role : Role) (origin : Option NodeId) (force : Bool) :
    Edit.Keeps P (propagate id role origin force) :=
  fun g hg => (Edit.Keeps.composable fun p : Pass Graph => P p.graph).run (Pass.keeps_enter hP)
    id role origin force { graph := g } hg

end ArgumentMap
