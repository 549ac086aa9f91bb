import ArgumentMap.Proofs.Graph.Lasting
import ArgumentMap.Proofs.Pass.Apart
import ArgumentMap.Proofs.Pass.Honesty

/-!
# What a pass may change

A pass writes roles of the user's own cards and sheds support. Whoever sheds any
keeps one card. Short of the first card, that one is a leaf and its reader stays an
interpretation, since the only task that would make a source of a card with support
is the first one on the agenda.
-/

namespace ArgumentMap

namespace Graph

/-- Support and dependents only went, and a card that lost support has one card left. -/
structure Trims (g h : Graph) : Prop where
  children : ∀ x, h.children x = g.children x ∨ ∃ c ∈ g.children x, h.children x = [c]
  parents : ∀ x, (h.parents x).Sublist (g.parents x)

/-- A card without a role may get one, but no card loses its role. -/
def Endows (g h : Graph) (x : NodeId) : Prop := h.role x = g.role x ∨ h.role x ≠ .unset

section
variable {g h k : Graph} {x : NodeId}

theorem Trims.refl (g : Graph) : g.Trims g := ⟨fun _ => .inl rfl, fun _ => List.Sublist.refl _⟩

theorem Trims.trans (hgh : g.Trims h) (hhk : h.Trims k) : g.Trims k := by
  refine ⟨fun x => ?_, fun x => (hhk.parents x).trans (hgh.parents x)⟩
  rcases hhk.children x with hsame | ⟨c, hc, hone⟩
  · rw [hsame]
    exact hgh.children x
  · refine .inr ⟨c, ?_, hone⟩
    rcases hgh.children x with hsame | ⟨d, hd, hone'⟩
    · rwa [hsame] at hc
    · obtain rfl : c = d := by simpa [hone'] using hc
      exact hd

theorem Trims.children_sublist (h : g.Trims k) (x : NodeId) :
    (k.children x).Sublist (g.children x) := by
  rcases h.children x with hsame | ⟨c, hc, hone⟩
  · rw [hsame]
  · rw [hone]
    exact List.singleton_sublist.2 hc

theorem Trims.children_eq_nil (h : g.Trims k) (x : NodeId) :
    k.children x = [] ↔ g.children x = [] := by
  rcases h.children x with hsame | ⟨c, hc, hone⟩
  · rw [hsame]
  · simp [hone, List.ne_nil_of_mem hc]

theorem trims_of_same (hchildren : ∀ x, h.children x = g.children x)
    (hparents : ∀ x, h.parents x = g.parents x) : g.Trims h :=
  ⟨fun x => .inl (hchildren x), fun x => hparents x ▸ List.Sublist.refl _⟩

theorem WellFormed.trims_adopt (hg : g.WellFormed) (id : NodeId) (role : Role)
    (origin : Option NodeId) : g.Trims (g.adopt id role origin) := by
  refine ⟨fun x => ?_, fun x => g.parents_adopt_sublist id role origin x⟩
  by_cases hx : x = id
  · subst hx
    rw [hg.children_adopt_self, Pass.retained]
    split_ifs with hmany
    · obtain ⟨c, hc, hkept⟩ := Pass.kept_eq_singleton origin
        (List.ne_nil_of_length_pos (by omega : 0 < (g.children x).length))
      exact .inr ⟨c, hc, hkept⟩
    · exact .inl rfl
  · exact .inl (g.children_adopt_of_ne id role origin x hx)

theorem Endows.trans (hgh : g.Endows h x) (hhk : h.Endows k x) : g.Endows k x := by
  rcases hhk with hsame | hset
  · exact hgh.imp hsame.trans fun hset => hsame ▸ hset
  · exact .inr hset

end

end Graph

namespace Pass

section
variable {g g' : Graph} {t : Task} {id : NodeId} {role : Role} {origin : Option NodeId}
  {force : Bool} {writes : Nat} {more : List Task}

theorem Entered.trims (h : Entered g id role origin force g' writes more) (hg : g.WellFormed) :
    g.Trims g' := by
  cases h with
  | taking => exact hg.trims_adopt id role origin
  | _ => exact .refl g

theorem Turn.trims (h : Turn g t g' writes more) (hg : g.WellFormed) : g.Trims g' := by
  cases h with
  | read => exact hg.trims_adopt _ _ _
  | claimed => exact .refl g
  | grounded => exact .refl g
  | settled => exact .refl g
  | _ => exact Graph.trims_of_same (by simp) (by simp)

theorem Turn.endows (h : Turn g t g' writes more) (x : NodeId) : g.Endows g' x := by
  by_cases hx : x = t.target
  · subst hx
    cases h with
    | @read x c _ hx =>
      have hrole := g.role_adopt_self x .interpretation (some c) (Graph.contains_of_mem_children hx)
      exact .inr (hrole.trans_ne (by decide))
    | @claim x c _ hx =>
      have hrole := g.role_recast_self x .assertion (Graph.contains_of_mem_children hx)
      exact .inr (hrole.trans_ne (by decide))
    | @ground p x _ _ hk => exact .inr ((g.role_recast_self x _ hk).trans_ne (by decide))
    | @settle p x _ _ hk => exact .inr ((g.role_recast_self x _ hk).trans_ne (by decide))
    | _ => exact .inl rfl
  · exact .inl (h.role_of_ne hx)

theorem Turn.reads_of_cut (h : Turn g t g' writes more) {x : NodeId}
    (hx : g'.children x ≠ g.children x) :
    g'.role x = .interpretation ∧ (g'.reading x).isSome := by
  cases h with
  | @read y c hc hy =>
    obtain rfl : x = y := by
      by_contra hne
      exact hx (g.children_adopt_of_ne _ _ _ x hne)
    refine ⟨g.role_adopt_self x _ _ (Graph.contains_of_mem_children hy), ?_⟩
    rw [Graph.reading_adopt hy hc, Option.isSome_some]
  | _ => exact absurd (by simp) hx

theorem Turn.reads_of_reads (h : Turn g t g' writes more) {x : NodeId}
    (hrole : g.role x = .interpretation) (hreads : (g.reading x).isSome)
    (hspared : ∀ p, t ≠ .lower p x .source false) :
    g'.role x = .interpretation ∧ (g'.reading x).isSome := by
  by_cases hx : x = t.target
  · subst hx
    obtain ⟨leaf, hleaf⟩ := Option.isSome_iff_exists.1 hreads
    obtain ⟨hmem, hnil, honly⟩ := Graph.reading_eq_some_iff.1 hleaf
    cases h with
    | @read x c hc hx =>
      refine ⟨g.role_adopt_self x _ _ (Graph.contains_of_mem_children hx), ?_⟩
      rw [Task.target, Graph.reading_adopt hx hc, Option.isSome_some]
    | @claim x c hc hx => exact absurd (honly c hx ▸ hnil) hc
    | claimed => exact ⟨hrole, hreads⟩
    | @ground p x hc => exact absurd hmem (by simp [Task.target, hc])
    | grounded => exact ⟨hrole, hreads⟩
    | @settle p x => exact absurd rfl (hspared p)
    | settled => exact ⟨hrole, hreads⟩
  · rw [h.role_of_ne hx, h.reading_of_ne hx]
    exact ⟨hrole, hreads⟩

/-- Short of the first card, whoever lost support since `g` is an interpretation of one leaf, and
no task is left that would make a source of it. -/
structure Reads (id : NodeId) (g h : Graph) (agenda : List Task) : Prop where
  steady : ∀ t ∈ agenda.tail, t.Steady h
  cut : ∀ x, x ≠ id → h.children x ≠ g.children x →
    h.role x = .interpretation ∧ (h.reading x).isSome ∧ ∀ p, .lower p x .source false ∉ agenda

theorem Entered.reads (h : Entered g id role origin force g' writes more) :
    Reads id g g' more := by
  refine ⟨fun t ht => ?_, fun x hx hcut => absurd (h.children_of_ne hx) hcut⟩
  rcases h.steady_or_settle with hsteady | ⟨c, -, rfl⟩
  · exact hsteady t (List.mem_of_mem_tail ht)
  · exact Task.steady_of_mem_raises ht

end

section
variable {g p q : Graph} {id : NodeId} {t : Task} {rest more : List Task} {writes : Nat}

theorem Reads.drop (h : Reads id g p (t :: rest)) : Reads id g p rest := by
  refine ⟨fun s hs => h.steady s (List.mem_of_mem_tail hs), fun x hx hcut => ?_⟩
  obtain ⟨hrole, hreads, hspared⟩ := h.cut x hx hcut
  exact ⟨hrole, hreads, fun p hp => hspared p (List.mem_cons_of_mem t hp)⟩

theorem Turn.reads (h : Turn p t q writes more) (hr : Reads id g p (t :: rest)) :
    Reads id g q (more ++ rest) := by
  have hsteady : ∀ s ∈ more ++ rest, s.Steady q := h.steady_append hr.steady
  refine ⟨fun s hs => hsteady s (List.mem_of_mem_tail hs), fun x hx hcut => ?_⟩
  have hnow : q.role x = .interpretation ∧ (q.reading x).isSome := by
    by_cases hsame : q.children x = p.children x
    · rw [hsame] at hcut
      obtain ⟨hrole, hreads, hspared⟩ := hr.cut x hx hcut
      exact h.reads_of_reads hrole hreads fun p hp => hspared p (hp ▸ List.mem_cons_self)
    · exact h.reads_of_cut hsame
  refine ⟨hnow.1, hnow.2, fun p hp => ?_⟩
  -- only leaves are still asked to be sources, and this card is none
  obtain ⟨leaf, hleaf⟩ := Option.isSome_iff_exists.1 hnow.2
  exact absurd (hsteady _ hp p x rfl) (List.ne_nil_of_mem (Graph.reading_eq_some_iff.1 hleaf).1)

end

section
variable {g : Graph} {p q : Pass Graph} {id : NodeId} {agenda : List Task} {log : List Event}

theorem Clears.trims (h : Clears p agenda log q) (hp : p.graph.WellFormed) :
    p.graph.Trims q.graph := by
  induction h with
  | done p => exact .refl p.graph
  | skip _ _ _ ih => exact ih hp
  | visit _ _ _ _ _ hturn _ ih => exact (hturn.trims hp).trans (ih (hturn.wellFormed hp))

theorem Clears.endows (h : Clears p agenda log q) (x : NodeId) : p.graph.Endows q.graph x := by
  induction h with
  | done => exact .inl rfl
  | skip _ _ _ ih => exact ih
  | visit _ _ _ _ _ hturn _ ih => exact (hturn.endows x).trans ih

theorem Clears.reads (h : Clears p agenda log q) (hr : Reads id g p.graph agenda) :
    Reads id g q.graph [] := by
  induction h with
  | done => exact hr
  | skip _ _ _ ih => exact ih hr.drop
  | visit _ _ _ _ _ hturn _ ih => exact ih (hturn.reads hr)

end

end Pass

namespace Graph

theorem propagate_lasts (g : Graph) (id : NodeId) (role : Role) (origin : Option NodeId)
    (force : Bool) : g.Lasts silent (propagate id role origin force g).state := by
  have hlasts : Repairable (g.Lasts silent) :=
    ⟨fun _ role hg hp => hg.then_silent (lasts_setRole role hp),
      fun parent child hg => hg.then_silent (lasts_shed parent [child])⟩
  exact hlasts.keeps_propagate id role origin force g (.refl g)

theorem propagate_trims {g : Graph} (hg : g.WellFormed) (id : NodeId) (role : Role)
    (origin : Option NodeId) (force : Bool) :
    g.Trims (propagate id role origin force g).state := by
  rcases propagate_state_cases hg id role origin force with
    h | ⟨-, p, q, log, writes, more, hentered, hclears, h⟩
  · rw [h]
    exact .refl g
  · rw [h]
    exact (hentered.trims hg).trans (hclears.trims (hentered.wellFormed hg))

/-- What a pass leaves of a graph. The cards stand in their places with what they say and their
marks; persisted ones keep their role and their support. Edges only go, in the order of each list
the others stay, and a card that lost support has one card left, so the leaves are the same. Whoever
lost support is the user's own, and the first card of the pass or an interpretation. No other card
than the first loses its role. -/
theorem propagate_frame {g : Graph} (hg : g.WellFormed) {id : NodeId} {role : Role}
    {origin : Option NodeId} {force : Bool} {stats : Stats}
    (h : (propagate id role origin force g).result = .ok stats) :
    let g' := (propagate id role origin force g).state
    (g'.ids = g.ids ∧ g'.stem = g.stem ∧ g'.counter = g.counter) ∧
    (∀ x n, g.find? x = some n → ∃ m, g'.find? x = some m ∧ m.body = n.body ∧
      m.stableId = n.stableId ∧ m.persisted = n.persisted ∧
        (n.persisted = true → m.role = n.role ∧ m.children = n.children)) ∧
    (∀ p c, g'.hasEdge p c = true → g.hasEdge p c = true) ∧
    (∀ x, (g'.parents x).Sublist (g.parents x)) ∧
    (∀ x, g'.children x = g.children x ∨ ∃ c ∈ g.children x, g'.children x = [c]) ∧
    (∀ x, g'.children x = [] ↔ g.children x = []) ∧
    (∀ x, g'.children x ≠ g.children x →
      g.persists x = false ∧ (x = id ∨ g'.role x = .interpretation)) ∧
    ∀ x, x ≠ id → g.role x ≠ .unset → g'.role x ≠ .unset := by
  obtain ⟨p, q, log₁, log₂, more, henter, hclears, -, heq⟩ := propagate_of_ok h
  obtain ⟨-, -, writes, -, hentered⟩ := Pass.entered_of_enter henter
  have hchanges := honest_propagate id role origin force g hg
  have hframe := propagate_sameFrame g id role origin force
  have hlasts := propagate_lasts g id role origin force
  rw [heq] at hchanges hframe hlasts ⊢
  have htrims := (hentered.trims hg).trans (hclears.trims (hentered.wellFormed hg))
  have hreads := hclears.reads hentered.reads
  have hkept : ∀ {x}, g.persists x = true → q.graph.children x = g.children x :=
    fun hp => hchanges.children_of_persists hp
  refine ⟨⟨hframe.2.2, hframe.1, hframe.2.1⟩, fun x n hn => ?_, fun p c he => ?_,
    htrims.parents, htrims.children, htrims.children_eq_nil, fun x hcut => ⟨?_, ?_⟩,
    fun x hx hset => ?_⟩
  · obtain ⟨m, hm, hnm⟩ := hlasts.card hn
    refine ⟨m, hm, hnm.body, hnm.stableId, hnm.persisted, fun hp => ⟨hnm.role hp, ?_⟩⟩
    have hsame := hkept ((persists_of_find? hn).trans hp)
    rwa [children_of_find? hn, children_of_find? hm] at hsame
  · rw [hasEdge_iff] at he ⊢
    exact (htrims.children_sublist p).subset he
  · exact Bool.eq_false_iff.2 fun hp => hcut (hkept hp)
  · by_cases hx : x = id
    · exact .inl hx
    · exact .inr (hreads.cut x hx hcut).1
  · rcases hclears.endows x with hsame | hnew
    · change q.graph.role x ≠ .unset
      rwa [hsame, hentered.role_of_ne hx]
    · exact hnew

theorem propagate_frame_tangle :
    let o := propagate ⟨"q"⟩ .assertion none true tangle
    tangle.WellFormed ∧
      o.result = .ok { calls := 7, typeWrites := 5, edgesDetached := 1 } ∧
      tangle.children ⟨"p"⟩ = [⟨"a"⟩, ⟨"b"⟩] ∧ o.state.children ⟨"p"⟩ = [⟨"a"⟩] ∧
      tangle.persists ⟨"p"⟩ = false ∧ o.state.role ⟨"p"⟩ = .interpretation := by
  intro o
  have hok : o.result = .ok { calls := 7, typeWrites := 5, edgesDetached := 1 } := by decide
  have hcut : o.state.children ⟨"p"⟩ = [⟨"a"⟩] := by decide
  obtain ⟨-, -, -, -, -, -, hlost, -⟩ := propagate_frame tangle_wellFormed hok
  obtain ⟨hpers, hfirst | hrole⟩ := hlost ⟨"p"⟩ (by rw [hcut]; decide)
  · exact absurd hfirst (by decide)
  · exact ⟨tangle_wellFormed, hok, rfl, hcut, hpers, hrole⟩

end Graph

end ArgumentMap
