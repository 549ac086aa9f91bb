import ArgumentMap.Proofs.Session.Honesty

/-!
# Support below persisted cards

Repairs and detachments leave the edges below a persisted card alone. Only the
edge tool takes one away: it asks about the new parent but not about the parent
of the edge that it turns around.
-/

namespace ArgumentMap.Session

/-- A persisted card keeps what supports it, in order, through every action but a
load, up to the one edge that the edge tool may turn around. That edge goes and
is announced. -/
theorem persisted_loses_turned_only (config : Config) (actions : List Action) (a : Action)
    (ha : ∀ snapshot fresh, a ≠ .load snapshot fresh) (x : NodeId)
    (hx : ((start config).after actions).graph.persists x = true) :
    let s := (start config).after actions
    (perform a s).state.graph.children x =
        (s.graph.children x).filter (fun c => s.turning a ≠ some (x, c)) ∧
      ∀ c, .edgeRemoved x c ∈ (perform a s).events ↔ s.turning a = some (x, c) := by
  intro s
  obtain ⟨log, hevents, hc⟩ := changes_perform ha (reached_wellFormed config actions)
  have hpers : (s.graph.unlink (s.turning a)).persists x = true := by
    rw [Graph.persists_unlink]
    exact hx
  refine ⟨?_, fun c => ?_⟩
  · rw [hc.children_of_persists hpers, Graph.children_unlink]
  · rw [hevents, List.mem_append, or_iff_left (hc.edgeRemoved_notMem hpers)]
    exact Graph.edgeRemoved_mem_unlinkEvents

def held : Session Graph := (start {}).after
  [.addNode .nil,
    .load { cards := [{ id := ⟨"n"⟩, role := .assertion }], edges := [⟨⟨"n"⟩, ⟨"sketch-0"⟩⟩] }
      fun _ => .nil,
    .setTool .edge, .tap ⟨"sketch-0"⟩]

theorem persisted_loses_turned_only_held :
    held.graph.persists ⟨"n"⟩ = true ∧ held.graph.children ⟨"n"⟩ = [⟨"sketch-0"⟩] ∧
      held.turning (.tap ⟨"n"⟩) = some (⟨"n"⟩, ⟨"sketch-0"⟩) ∧
      (perform (.tap ⟨"n"⟩) held).state.graph.children ⟨"n"⟩ = [] := by
  have hx : held.graph.persists ⟨"n"⟩ = true := by decide
  have hc : held.graph.children ⟨"n"⟩ = [⟨"sketch-0"⟩] := by decide
  have ht : held.turning (.tap ⟨"n"⟩) = some (⟨"n"⟩, ⟨"sketch-0"⟩) := by decide
  refine ⟨hx, hc, ht, ?_⟩
  have hafter := (persisted_loses_turned_only {} _ (.tap ⟨"n"⟩) (by simp) ⟨"n"⟩ hx).1
  rw [← held, hc, ht] at hafter
  exact hafter

/-- The user takes stored support away from a persisted card. -/
theorem persisted_support_not_anchored :
    ¬∀ (config : Config) (actions : List Action) (a : Action),
      (∀ snapshot fresh, a ≠ .load snapshot fresh) → ∀ x,
        ((start config).after actions).graph.persists x = true →
          (perform a ((start config).after actions)).state.graph.children x =
            ((start config).after actions).graph.children x := by
  intro h
  have hsame : (perform (.tap ⟨"n"⟩) held).state.graph.children ⟨"n"⟩ =
      held.graph.children ⟨"n"⟩ := h {} _ (.tap ⟨"n"⟩) (by simp) ⟨"n"⟩ (by decide)
  revert hsame
  decide

end ArgumentMap.Session
