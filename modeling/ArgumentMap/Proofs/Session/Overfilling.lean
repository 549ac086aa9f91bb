import ArgumentMap.Proofs.Graph.Listing
import ArgumentMap.Proofs.Pass.Mending
import ArgumentMap.Proofs.Session.Honesty

/-!
# Loads below the user's cards

No pass follows a load, so an interpretation of the user's own that is given a
second card by a snapshot keeps both.
-/

namespace ArgumentMap

namespace Graph

variable {g : Graph} {x : NodeId}

theorem overfull_iff (hg : g.WellFormed) : g.Overfull x ↔ g.persists x = false ∧
    g.role x = .interpretation ∧ ∃ c ∈ g.children x, ∃ d ∈ g.children x, c ≠ d := by
  rw [Overfull, ← List.toFinset_card_of_nodup (hg.nodup_children_of x), Finset.one_lt_card]
  simp only [List.mem_toFinset]

theorem overfull_mem_audit_iff (hg : g.WellFormed) (hx : g.persists x = false) {k : Nat} :
    .overfullInterpretation x k ∈ g.audit ↔ g.Overfull x ∧ k = (g.children x).length := by
  rw [mem_audit_iff hg]
  constructor
  · intro h
    obtain ⟨n, hn, hr, hl, he⟩ := h
    obtain ⟨rfl, rfl⟩ := Fault.overfullInterpretation.inj he
    have hf := find?_of_mem hg.nodup_ids hn
    rw [Overfull, role_of_find? hf, children_of_find? hf]
    exact ⟨⟨hx, hr, hl⟩, rfl⟩
  · intro h
    obtain ⟨⟨-, hr, hl⟩, rfl⟩ := h
    cases hf : g.find? x with
    | none => simp [children, hf] at hl
    | some n =>
      rw [role_of_find? hf] at hr
      rw [children_of_find? hf] at hl ⊢
      exact ⟨n, mem_of_find? hf, hr, hl, by rw [id_of_find? hf]⟩

end Graph

namespace Snapshot

/-- An interpretation of the user's own has several cards below it when those of
the snapshot are counted. -/
def Overloads (s : Snapshot) (g : Graph) (x : NodeId) : Prop :=
  g.persists x = false ∧ g.role x = .interpretation ∧
    ∃ c ∈ g.children x ++ s.support x, ∃ d ∈ g.children x ++ s.support x, c ≠ d

variable {s : Snapshot} {fresh : NodeId → Uuid} {g : Graph} {x : NodeId}

theorem overfull_addedTo_iff (hg : g.WellFormed) (h : s.check g = .ok ()) :
    (s.addedTo fresh g).Overfull x ↔ s.Overloads g x := by
  simp only [Graph.overfull_iff (addedTo_wellFormed hg h), mem_children_addedTo h, Overloads]
  cases hx : g.contains x with
  | true => rw [persists_addedTo hx, role_addedTo hx]
  | false =>
    -- loaded cards are stored ones, and an unknown card has no role
    have hnone : g.find? x = none := by simpa [Graph.contains] using hx
    constructor
    · intro h'
      obtain ⟨hp, hr, -⟩ := h'
      have hknown : (s.addedTo fresh g).contains x = true := by
        by_contra hk
        have hf : (s.addedTo fresh g).find? x = none := by simpa [Graph.contains] using hk
        simp [Graph.role, hf] at hr
      rw [contains_of_persists_addedTo hknown hp] at hx
      cases hx
    · intro h'
      obtain ⟨-, hr, -⟩ := h'
      simp [Graph.role, hnone] at hr

end Snapshot

namespace Session

/-- A load keeps the interpretations of the user's own down to one card just if
it is refused or puts no second card below any of them, and an audit reports the
others. -/
theorem load_keeps_single_iff (s : Session Graph) (snapshot : Snapshot) (fresh : NodeId → Uuid)
    (hg : s.graph.WellFormed) (hs : s.graph.SinglySupported) :
    let t := perform (.load snapshot fresh) s
    (t.state.graph.SinglySupported ↔
      (∃ e, t.result = .error e) ∨ ∀ x, ¬snapshot.Overloads s.graph x) ∧
    ∀ x, t.state.graph.persists x = false → ∀ k,
      (.overfullInterpretation x k ∈ t.state.graph.audit ↔
        t.result = .ok (.loaded snapshot.root) ∧ snapshot.Overloads s.graph x ∧
          k = (t.state.graph.children x).length) := by
  intro t
  have ht : t.state.graph.WellFormed := perform_wellFormed hg (.load snapshot fresh)
  rw [Graph.singlySupported_iff ht.nodup_ids]
  cases hcheck : snapshot.check s.graph with
  | error e =>
    have he : t = ⟨s, [], .error e⟩ := perform_load_of_error hcheck fresh
    rw [Graph.singlySupported_iff hg.nodup_ids] at hs
    rw [he] at ht ⊢
    refine ⟨by simp [hs], fun x hx k => ?_⟩
    rw [Graph.overfull_mem_audit_iff ht hx]
    simp [hs]
  | ok _ =>
    have he : t = _ := perform_load_of_ok hcheck fresh
    have hgraph : t.state.graph = snapshot.addedTo fresh s.graph := congrArg (·.state.graph) he
    have hresult : t.result = .ok (.loaded snapshot.root) := congrArg (·.result) he
    refine ⟨by simp [hgraph, hresult, Snapshot.overfull_addedTo_iff hg hcheck], fun x hx k => ?_⟩
    rw [Graph.overfull_mem_audit_iff ht hx, hgraph, Snapshot.overfull_addedTo_iff hg hcheck,
      ← hgraph]
    simp [hresult]

def crowded : Session Graph := (start {}).after
  [.addNode .nil, .addNode .nil, .setTool .edge, .tap ⟨"sketch-0"⟩, .tap ⟨"sketch-1"⟩]

def crowding : Snapshot where
  cards := [{ id := ⟨"n"⟩, role := .source }]
  edges := [⟨⟨"sketch-0"⟩, ⟨"n"⟩⟩]

theorem crowded_singlySupported : crowded.graph.SinglySupported := by
  rw [Graph.SinglySupported]
  decide

theorem load_keeps_single_iff_crowded :
    crowded.graph.SinglySupported ∧
      (perform (.load crowding fun _ => .nil) crowded).result = .ok (.loaded none) ∧
      crowding.Overloads crowded.graph ⟨"sketch-0"⟩ ∧
      .overfullInterpretation ⟨"sketch-0"⟩ 2 ∈
        (perform (.load crowding fun _ => .nil) crowded).state.graph.audit := by
  have hok : (perform (.load crowding fun _ => .nil) crowded).result = .ok (.loaded none) := by
    decide
  have hover : crowding.Overloads crowded.graph ⟨"sketch-0"⟩ := by
    rw [Snapshot.Overloads]
    decide
  have haudit := (load_keeps_single_iff crowded crowding (fun _ => .nil)
    (reached_wellFormed {} _) crowded_singlySupported).2 ⟨"sketch-0"⟩ (by decide) 2
  exact ⟨crowded_singlySupported, hok, hover, haudit.2 ⟨hok, hover, by decide⟩⟩

/-- A load of a stored card breaks what all other actions keep. -/
theorem load_breaks_single :
    ¬∀ (s : Session Graph) (snapshot : Snapshot) (fresh : NodeId → Uuid), s.graph.WellFormed →
      s.graph.SinglySupported → (perform (.load snapshot fresh) s).state.graph.SinglySupported := by
  intro h
  have hafter := h crowded crowding (fun _ => .nil) (reached_wellFormed {} _)
    crowded_singlySupported
  rw [Graph.SinglySupported] at hafter
  revert hafter
  decide

end Session

end ArgumentMap
