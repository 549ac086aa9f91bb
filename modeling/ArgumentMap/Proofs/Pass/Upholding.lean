import ArgumentMap.Proofs.Pass.Mending

/-!
# A new edge during a pass

While a pass settles a new edge, its parent keeps the child, or is cut down to
another leaf that it reads instead. It never becomes a source, since only a card
below an interpretation does and leaves are never asked to, and its role fits as
soon as no card that it reads is about to raise it.
-/

namespace ArgumentMap

namespace Graph

theorem fits_of_legalRole_eq {g : Graph} {id : NodeId} (hl : g.children id ≠ [])
    (h : g.legalRole id = g.role id) :
    g.role id = .assertion ∨ g.role id = .interpretation ∧ (g.children id).length ≤ 1 := by
  rcases legalRole_of_support hl with hr | hr
  · exact .inr ⟨h.symm.trans hr, Pass.length_children_of_legalRole hr⟩
  · exact .inl (h.symm.trans hr)

end Graph

namespace Pass

/-- The parent is the user's own and not below its child. It has the child, or reads one
other leaf; its role fits or is about to be written; and nothing makes a source of it. -/
structure Upheld (parent child : NodeId) (g : Graph) (agenda : List Task) : Prop where
  editable : g.persists parent = false
  clear : parent ∉ g.children child
  support : child ∈ g.children parent ∨ g.role parent = .interpretation ∧
    ∃ leaf, leaf ≠ child ∧ g.children parent = [leaf] ∧ g.children leaf = []
  fit : g.role parent = .assertion ∨
    (g.role parent = .interpretation ∧ (g.children parent).length ≤ 1) ∨
    ∃ c ∈ g.children parent, ∃ role force, .raise parent c role force ∈ agenda
  spared : ∀ p, .lower p parent .source false ∉ agenda

section
variable {g g' : Graph} {parent child : NodeId} {t : Task} {rest more agenda : List Task}
  {writes : Nat}

theorem Upheld.children_ne_nil (h : Upheld parent child g agenda) : g.children parent ≠ [] := by
  rcases h.support with hc | ⟨-, leaf, -, hl, -⟩
  · exact List.ne_nil_of_mem hc
  · simp [hl]

theorem Upheld.of_not_open (h : Upheld parent child g (t :: rest)) (ho : ¬t.Open g) :
    Upheld parent child g rest := by
  refine ⟨h.editable, h.clear, h.support, ?_, fun p hp => h.spared p (List.mem_cons_of_mem t hp)⟩
  refine h.fit.imp_right fun hfit => hfit.imp_right fun hraised => ?_
  obtain ⟨c, hc, role, force, ht⟩ := hraised
  rcases List.mem_cons.1 ht with rfl | ht
  · exact absurd ⟨hc, h.editable⟩ ho
  · exact ⟨c, hc, role, force, ht⟩

theorem Turn.settle_notMem_more (h : Turn g t g' writes more) {x : NodeId}
    (hx : g.children x ≠ []) (p : NodeId) : .lower p x .source false ∉ more := by
  intro hm
  have hnone : ∀ s ∈ ([] : List Task), s.Steady g := by simp
  have hsteady := h.steady_append hnone _ (List.mem_append_left [] hm) p x rfl
  exact hx ((h.children_eq_nil x).1 hsteady)

theorem Turn.upheld_of_ne (h : Turn g t g' writes more) (hne : parent ≠ t.target)
    (hu : Upheld parent child g (t :: rest)) : Upheld parent child g' (more ++ rest) := by
  have hrole := h.role_of_ne hne
  have hchildren := h.children_of_ne hne
  refine ⟨(h.persists parent).trans hu.editable,
    fun hc => hu.clear ((h.children_sublist child).subset hc), ?_, ?_, fun p hp => ?_⟩
  · rw [hrole, hchildren]
    refine hu.support.imp_right fun hread => ⟨hread.1, ?_⟩
    obtain ⟨-, leaf, hlc, hone, hl⟩ := hread
    exact ⟨leaf, hlc, hone, (h.children_eq_nil leaf).2 hl⟩
  · rw [hrole, hchildren]
    refine hu.fit.imp_right fun hfit => hfit.imp_right fun hraised => ?_
    obtain ⟨c, hc, role, force, ht⟩ := hraised
    rcases List.mem_cons.1 ht with rfl | ht
    · exact absurd rfl hne
    · exact ⟨c, hc, role, force, List.mem_append_right more ht⟩
  · rcases List.mem_append.1 hp with hp | hp
    · exact h.settle_notMem_more hu.children_ne_nil p hp
    · exact hu.spared p (List.mem_cons_of_mem t hp)

theorem Turn.upheld_target (h : Turn g t g' writes more) (hg : g.WellFormed) (ho : t.Open g)
    (hu : Upheld t.target child g (t :: rest)) :
    (g'.role t.target = .assertion ∨
      g'.role t.target = .interpretation ∧ (g'.children t.target).length ≤ 1) ∧
    (child ∈ g'.children t.target ∨ g'.role t.target = .interpretation ∧
      ∃ leaf, leaf ≠ child ∧ g'.children t.target = [leaf] ∧ g'.children leaf = []) := by
  have hne := hu.children_ne_nil
  cases h with
  | @read x c hc hx hp =>
    have hk := Graph.contains_of_mem_children hx
    have hrole := g.role_adopt_self x .interpretation (some c) hk
    have hone : (g.adopt x .interpretation (some c)).children x = [c] := by
      rw [hg.children_adopt_self, retained_of_mem hx]
    have hleaf := (g.children_adopt_eq_nil x .interpretation (some c) c).2 hc
    refine ⟨.inr ⟨hrole, ?_⟩, ?_⟩
    · change ((g.adopt x .interpretation (some c)).children x).length ≤ 1
      rw [hone, List.length_singleton]
    · by_cases hcc : c = child
      · left
        change child ∈ (g.adopt x .interpretation (some c)).children x
        rw [hone, hcc]
        exact List.mem_singleton_self child
      · exact .inr ⟨hrole, c, hcc, hone, hleaf⟩
  | @claim x c hc hx hp hr =>
    have hrole := g.role_recast_self x .assertion (Graph.contains_of_mem_children hx)
    refine ⟨.inl hrole, .inl ?_⟩
    change child ∈ (g.recast x .assertion).children x
    rw [Graph.children_recast]
    rcases hu.support with hs | ⟨-, leaf, -, hone, hl⟩
    · exact hs
    · -- a card that reads one leaf is not raised by a card with support
      have hcl : c = leaf := List.mem_singleton.1 (hone ▸ hx)
      exact absurd (hcl ▸ hl) hc
  | claimed hr => exact ⟨.inl hr, hu.support⟩
  | ground hc => exact absurd hc hne
  | grounded => exact absurd (ho.2.2.2.2 rfl) hne
  | settle => exact absurd List.mem_cons_self (hu.spared _)
  | settled => exact absurd List.mem_cons_self (hu.spared _)

theorem Turn.upheld (h : Turn g t g' writes more) (hg : g.WellFormed) (ho : t.Open g)
    (hu : Upheld parent child g (t :: rest)) : Upheld parent child g' (more ++ rest) := by
  by_cases hne : parent = t.target
  · subst hne
    obtain ⟨hfit, hsupport⟩ := h.upheld_target hg ho hu
    refine ⟨(h.persists _).trans hu.editable,
      fun hc => hu.clear ((h.children_sublist child).subset hc), hsupport,
      hfit.imp_right .inl, fun p hp => ?_⟩
    rcases List.mem_append.1 hp with hp | hp
    · exact h.settle_notMem_more hu.children_ne_nil p hp
    · exact hu.spared p (List.mem_cons_of_mem t hp)
  · exact h.upheld_of_ne hne hu

theorem Clears.upheld {p q : Pass Graph} {log : List Event} (h : Clears p agenda log q)
    (hg : p.graph.WellFormed) (hu : Upheld parent child p.graph agenda) :
    Upheld parent child q.graph [] := by
  induction h with
  | done => exact hu
  | skip _ ho _ ih => exact ih hg (hu.of_not_open ho)
  | visit _ ho _ _ _ hturn _ ih => exact ih (hturn.wellFormed hg) (hturn.upheld hg ho hu)

end

section
variable {g g' : Graph} {parent child : NodeId} {writes : Nat} {more : List Task}

theorem Entered.upheld_of_parent
    (h : Entered g parent (g.role parent) none true g' writes more) (hg : g.WellFormed)
    (he : g.persists parent = false) (hc : child ∈ g.children parent)
    (hclear : parent ∉ g.children child) (hr : g.legalRole parent = g.role parent) :
    Upheld parent child g' more := by
  have hfit := Graph.fits_of_legalRole_eq (List.ne_nil_of_mem hc) hr
  cases h with
  | handing hp =>
    rw [he] at hp
    cases hp
  | taking =>
    have hone : g.role parent = .interpretation → (g.children parent).length ≤ 1 :=
      fun hi => length_children_of_legalRole (hr.trans hi)
    rw [g.adopt_of_surplus_eq_nil _ _ _ (surplus_of_fit hone _), Graph.recast, if_pos rfl]
    refine ⟨he, hclear, .inl hc, hfit.imp_right .inl, fun p hp => ?_⟩
    rcases mem_asks_cases hp with ⟨-, q, -, heq⟩ | ⟨-, -, d, hd, heq⟩ | ⟨-, -, d, -, heq⟩ |
      ⟨-, -, q, -, heq⟩
    · cases heq
    · cases heq
      exact hg.notMem_children_self parent ((retained_sublist _).subset hd)
    · cases heq
    · cases heq

theorem Entered.upheld_of_child
    (h : Entered g child (g.legalRole child) none true g' writes more) (hg : g.WellFormed)
    (he : g.persists parent = false) (hc : child ∈ g.children parent)
    (hclear : parent ∉ g.children child) : Upheld parent child g' more := by
  obtain ⟨hmore, hchildren⟩ := h.of_legalRole
  obtain ⟨role, force, hraise⟩ :=
    raise_mem_asks_legalRole (hg.mem_children_iff.1 hc)
  refine ⟨(h.persists parent).trans he, ?_, ?_, ?_, fun p hp => ?_⟩
  · rwa [hchildren]
  · rw [hchildren]
    exact .inl hc
  · rw [hchildren, hmore]
    exact .inr (.inr ⟨child, hc, role, force, hraise⟩)
  · rw [hmore] at hp
    rcases mem_asks_cases hp with ⟨-, q, -, heq⟩ | ⟨-, -, d, hd, heq⟩ | ⟨-, -, d, -, heq⟩ |
      ⟨-, -, q, -, heq⟩
    · cases heq
    · cases heq
      exact hclear hd
    · cases heq
    · cases heq

end

end Pass

end ArgumentMap
