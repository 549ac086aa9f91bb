import ArgumentMap.Proofs.Pass.Settling

/-!
# The rules after a pass

Where a pass changed a role, or was forced to start, the neighbours of the card
fit its role once the pass is over.
-/

namespace ArgumentMap

namespace Graph

/-- The neighbours of a card that the user may edit fit its role. -/
structure Settled (g : Graph) (x : NodeId) : Prop where
  leaf : g.children x = [] → ∀ p ∈ g.parents x, g.persists p = false →
    g.role p = .interpretation ∧ g.children p = [x]
  assertion : g.children x ≠ [] → g.role x = .assertion →
    (∀ c ∈ g.children x, g.children c = [] → g.persists c = false →
      g.role c = .interpretation) ∧
    ∀ p ∈ g.parents x, g.persists p = false → g.role p = .assertion
  interpretation : g.children x ≠ [] → g.role x = .interpretation →
    (∃ c, g.children x = [c] ∧
      (g.persists c = false → g.children c ≠ [] → g.role c = .source)) ∧
    ∀ p ∈ g.parents x, g.persists p = false → g.role p = .assertion

end Graph

namespace Pass

variable {g : Graph} {T : NodeId → Prop}

theorem Follows.met (h : Follows T g []) {x : NodeId} (hx : T x) {t : Task}
    (ht : t ∈ asks x (g.children x) (g.parents x) (g.role x)) (ho : t.Open g) : t.Met T g := by
  rcases h.asked x hx t ht with hin | hmet | ⟨c, -, hin⟩
  · cases hin
  · exact hmet ho
  · cases hin

theorem Follows.role_of_claim (h : Follows T g []) (hg : g.WellFormed) {x : NodeId} (hx : T x)
    (hl : g.children x ≠ []) (hr : g.role x = .interpretation ∨ g.role x = .assertion)
    {p : NodeId} (hp : p ∈ g.parents x) (hpers : g.persists p = false) :
    g.role p = .assertion := by
  exact (h.met hx (claim_mem_asks x _ hl hr hp) ⟨hg.mem_children_iff.2 hp, hpers⟩).1

theorem Follows.settled (h : Follows T g []) (hg : g.WellFormed) {x : NodeId} (hx : T x) :
    g.Settled x := by
  refine ⟨?_, ?_, ?_⟩
  · intro hl p hp hpers
    have hmem : .raise p x .interpretation true ∈
        asks x (g.children x) (g.parents x) (g.role x) := by
      rw [hl]
      exact read_mem_asks x _ _ hp
    obtain ⟨hrole, hone⟩ := h.met hx hmem ⟨hg.mem_children_iff.2 hp, hpers⟩
    exact ⟨hrole, (hone rfl).2⟩
  · intro hl hr
    refine ⟨fun c hc hleaf hpers => ?_, fun p hp hpers =>
      h.role_of_claim hg hx hl (.inr hr) hp hpers⟩
    have hmem : .lower x c .interpretation true ∈
        asks x (g.children x) (g.parents x) (g.role x) := by
      rw [hr]
      exact ground_mem_asks x _ hc
    exact h.met hx hmem ⟨hc, hg.contains_child hc, hpers, by simp [hleaf]⟩
  · intro hl hr
    obtain ⟨c, hone⟩ : ∃ c, g.children x = [c] := List.length_eq_one_iff.1
      (Nat.le_antisymm (h.single x hx hr) (List.length_pos_of_ne_nil hl))
    refine ⟨⟨c, hone, fun hpers hleaf => ?_⟩, fun p hp hpers =>
      h.role_of_claim hg hx hl (.inl hr) hp hpers⟩
    have hc : c ∈ g.children x := by
      rw [hone]
      exact List.mem_singleton_self c
    have hmem : .lower x c .source false ∈
        asks x (g.children x) (g.parents x) (g.role x) := by
      rw [hr]
      exact settle_mem_asks x _ hc
    exact h.met hx hmem ⟨hc, hg.contains_child hc, hpers, by simp [hleaf]⟩

end Pass

namespace Graph

variable {g : Graph} {v : NodeId} {role : Role} {origin : Option NodeId} {force : Bool}
  {stats : Stats}

theorem propagate_follows (hg : g.WellFormed)
    (h : (propagate v role origin force g).result = .ok stats) :
    ∃ T : NodeId → Prop, (g.persists v = false → force = true → T v) ∧
      (∀ x, ¬T x → (propagate v role origin force g).state.role x = g.role x) ∧
        Pass.Follows T (propagate v role origin force g).state [] := by
  obtain ⟨p, q, log₁, log₂, more, henter, hclears, -, heq⟩ := propagate_of_ok h
  obtain ⟨hk, -, writes, -, hentered⟩ := Pass.entered_of_enter henter
  obtain ⟨T, hT, hrole, -, hf⟩ := hentered.follows_to_end hg hk hclears
  rw [heq]
  exact ⟨T, fun hp hforce => hT v ⟨rfl, hp, fun _ => hforce⟩, hrole, hf⟩

/-- After a pass the rules hold around every card that it changed, and around the card
that it was forced to start from. -/
theorem propagate_settles (hg : g.WellFormed)
    (h : (propagate v role origin force g).result = .ok stats) {x : NodeId}
    (hx : g.persists x = false)
    (htouched : (propagate v role origin force g).state.role x ≠ g.role x ∨
      x = v ∧ force = true) :
    (propagate v role origin force g).state.Settled x := by
  obtain ⟨T, hv, hrole, hf⟩ := propagate_follows hg h
  apply hf.settled (propagate_wellFormed hg v role origin force)
  rcases htouched with hchanged | ⟨rfl, hforce⟩
  · by_contra hT
    exact hchanged (hrole x hT)
  · exact hv hx hforce

theorem propagate_settles_tangle : tangle.role ⟨"p"⟩ = .unset ∧
    (propagate ⟨"q"⟩ .assertion none true tangle).state.role ⟨"p"⟩ = .interpretation ∧
      (propagate ⟨"q"⟩ .assertion none true tangle).state.Settled ⟨"p"⟩ := by
  have hok : (propagate ⟨"q"⟩ .assertion none true tangle).result =
      .ok { calls := 7, typeWrites := 5, edgesDetached := 1 } := by decide
  have hrole : (propagate ⟨"q"⟩ .assertion none true tangle).state.role ⟨"p"⟩ =
      .interpretation := by decide
  have hbefore : tangle.role ⟨"p"⟩ = .unset := by decide
  have hchanged : (propagate ⟨"q"⟩ .assertion none true tangle).state.role ⟨"p"⟩ ≠
      tangle.role ⟨"p"⟩ := by
    rw [hrole, hbefore]
    decide
  exact ⟨hbefore, hrole, propagate_settles tangle_wellFormed hok (by decide) (.inl hchanged)⟩

end Graph

end ArgumentMap
