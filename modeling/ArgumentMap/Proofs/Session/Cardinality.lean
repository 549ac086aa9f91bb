import ArgumentMap.Proofs.Graph.Listing
import ArgumentMap.Proofs.Session.Gestures
import ArgumentMap.Session

/-!
# Interpretations read one card

Every action but a load keeps the graph of a session sound, whether it succeeds
or fails, so a session without loads never shows a fault.
-/

namespace ArgumentMap

namespace Session

variable {stored : NodeId → Prop}

theorem keeps_onGraph {α : Type} {m : Edit Graph α} (hm : Edit.Keeps (Graph.Sound stored) m) :
    Edit.Keeps (fun s => s.graph.Sound stored) (onGraph m) :=
  .zoom (fun _ _ => rfl) hm

theorem keeps_addNode (u : Uuid) :
    Edit.Keeps (fun s : Session Graph => s.graph.Sound stored) (addNode u) := by
  refine .bind (keeps_onGraph (.attempt ?_)) fun id => .bind (.announce _) fun _ => .pure id
  intro g id h hg hmint
  cases hmint
  exact hg.mint u

theorem keeps_setText (id : NodeId) (text : String) :
    Edit.Keeps (fun s : Session Graph => s.graph.Sound stored) (setText id text) := by
  refine keeps_onGraph (.attempt_unit fun g h hg ht => ?_)
  rw [Graph.setText_eq_ok ht]
  exact hg.reword id text

theorem keeps_perform {a : Action} (ha : ∀ snapshot fresh, a ≠ .load snapshot fresh) :
    Edit.Keeps (fun s : Session Graph => s.graph.Sound stored) (perform a) := by
  cases a with
  | addNode u => exact .map (keeps_addNode u) _
  | setText id text => exact .bind (keeps_setText id text) fun _ => .pure _
  | load snapshot fresh => exact absurd rfl (ha snapshot fresh)
  | _ => exact (Graph.sound_gestural stored).keeps_perform trivial

theorem after_sound {s : Session Graph} {actions : List Action} (hs : s.graph.Sound stored)
    (ha : ∀ a ∈ actions, ∀ snapshot fresh, a ≠ .load snapshot fresh) :
    (s.after actions).graph.Sound stored := by
  induction actions generalizing s with
  | nil => exact hs
  | cons a actions ih =>
    have hstep := keeps_perform (ha a List.mem_cons_self) s hs
    exact ih hstep fun b hb => ha b (List.mem_cons_of_mem a hb)

theorem start_sound (config : Config) : (start config).graph.Sound stored := by
  refine ⟨⟨?_, ?_, ?_, ?_, ?_, ?_⟩, ?_, ?_⟩ <;>
    simp [start, Graph.ids, Graph.Overfull, Graph.persists, Graph.children, Graph.find?]

end Session

theorem Graph.audit_eq_nil {g : Graph} (hg : g.Sound fun _ => False) : g.audit = [] := by
  have hw := hg.wellFormed
  rw [List.eq_nil_iff_forall_not_mem]
  intro f hf
  obtain ⟨n, hn, hr, hl, -⟩ := (mem_audit_iff hw).1 hf
  have hfind := find?_of_mem hw.nodup_ids hn
  refine hg.single n.id ⟨?_, ?_, ?_⟩
  · simpa using hg.persisted n.id
  · rw [role_of_find? hfind, hr]
  · rwa [children_of_find? hfind]

namespace Session

/-- Whatever the user does short of loading, interpretations of their own go on
reading at most one card, and a session without loads shows no fault. -/
theorem interpretations_stay_single :
    (∀ (s : Session Graph) (a : Action), (∀ snapshot fresh, a ≠ .load snapshot fresh) →
      s.graph.WellFormed → s.graph.SinglySupported →
        (perform a s).state.graph.SinglySupported) ∧
    (∀ (config : Config) (actions : List Action),
      (∀ a ∈ actions, ∀ snapshot fresh, a ≠ .load snapshot fresh) →
        ((start config).after actions).graph.audit = []) := by
  refine ⟨?_, ?_⟩
  · intro s a ha hw hs
    have hsound : s.graph.Sound fun _ => True :=
      ⟨hw, (Graph.singlySupported_iff hw.nodup_ids).1 hs, fun _ _ => trivial⟩
    have hafter := keeps_perform ha s hsound
    exact (Graph.singlySupported_iff hafter.wellFormed.nodup_ids).2 hafter.single
  · intro config actions ha
    exact Graph.audit_eq_nil (after_sound (start_sound config) ha)

def doubling : Session Graph where
  graph :=
    { nodes :=
        [{ id := ⟨"x"⟩, role := .interpretation, children := [⟨"y"⟩] },
          { id := ⟨"y"⟩, role := .source, parents := [⟨"x"⟩] }, { id := ⟨"z"⟩ }] }
  tool := .edge
  edgeTool := .seekingChild ⟨"x"⟩

theorem interpretations_stay_single_doubling :
    (perform (.tap ⟨"z"⟩) doubling).state.graph.hasEdge ⟨"x"⟩ ⟨"z"⟩ = true ∧
      (perform (.tap ⟨"z"⟩) doubling).state.graph.SinglySupported ∧
      ((start {}).after [.addNode .nil, .addNode .nil, .setTool .edge, .tap ⟨"sketch-0"⟩,
        .tap ⟨"sketch-1"⟩]).graph.audit = [] := by
  have hw : doubling.graph.WellFormed := by constructor <;> decide
  have hs : doubling.graph.SinglySupported := by
    rw [Graph.SinglySupported]
    decide
  refine ⟨by decide, ?_, ?_⟩
  · exact interpretations_stay_single.1 doubling (.tap ⟨"z"⟩) (by simp) hw hs
  · exact interpretations_stay_single.2 {} _ (by simp)

end Session

end ArgumentMap
