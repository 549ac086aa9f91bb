import ArgumentMap.Proofs.Pass.Run

/-!
# Surplus support is mended

While a pass is under way, an interpretation may read several cards as long as
one of them is about to raise it. A raised card either keeps that one card or
becomes an assertion, so none is left when the agenda is empty.
-/

namespace ArgumentMap

namespace Graph

/-- An interpretation of the user's own that reads several cards. -/
def Overfull (g : Graph) (x : NodeId) : Prop :=
  g.persists x = false ∧ g.role x = .interpretation ∧ 1 < (g.children x).length

theorem Overfull.of_fewer {g h : Graph} {x : NodeId} (hx : h.Overfull x)
    (hpersists : h.persists x = g.persists x)
    (hrole : h.role x = .interpretation → g.role x = .interpretation)
    (hchildren : (h.children x).length ≤ (g.children x).length) : g.Overfull x := by
  obtain ⟨hp, hr, hl⟩ := hx
  exact ⟨hpersists.symm.trans hp, hrole hr, lt_of_lt_of_le hl hchildren⟩

theorem singlySupported_iff {g : Graph} (hg : g.ids.Nodup) :
    g.SinglySupported ↔ ∀ x, ¬g.Overfull x := by
  constructor
  · intro h x hx
    obtain ⟨hp, hr, hl⟩ := hx
    cases hf : g.find? x with
    | none => simp [children, hf] at hl
    | some n =>
      rw [persists_of_find? hf] at hp
      rw [role_of_find? hf] at hr
      rw [children_of_find? hf] at hl
      exact absurd (h n (mem_of_find? hf) hp hr) (by omega)
  · intro h n hn hp hr
    have hf := find?_of_mem hg hn
    rw [← persists_of_find? hf] at hp
    rw [← role_of_find? hf] at hr
    rw [← children_of_find? hf]
    by_contra hl
    exact h n.id ⟨hp, hr, by omega⟩

end Graph

namespace Pass

/-- Every overfull card is about to be raised by one of those it reads. -/
def Mended (g : Graph) (agenda : List Task) : Prop :=
  ∀ x, g.Overfull x → ∃ c ∈ g.children x, ∃ role force, .raise x c role force ∈ agenda

section
variable {g g' : Graph} {t : Task} {rest more : List Task} {writes : Nat}

theorem Mended.of_not_open (h : Mended g (t :: rest)) (ho : ¬t.Open g) : Mended g rest := by
  intro x hx
  obtain ⟨c, hc, role, force, ht⟩ := h x hx
  rcases List.mem_cons.1 ht with rfl | ht
  · exact absurd ⟨hc, hx.1⟩ ho
  · exact ⟨c, hc, role, force, ht⟩

theorem Turn.not_overfull_target (h : Turn g t g' writes more) (hg : g.WellFormed)
    (ho : t.Open g) : ¬g'.Overfull t.target := by
  intro hover
  obtain ⟨-, hrole, hlen⟩ := hover
  cases h with
  | @read x c hc hx hp =>
    have hone : (g.adopt x .interpretation (some c)).children x = [c] := by
      rw [hg.children_adopt_self, retained_of_mem hx]
    change 1 < ((g.adopt x .interpretation (some c)).children x).length at hlen
    rw [hone, List.length_singleton] at hlen
    omega
  | @claim x c hc hx =>
    change (g.recast x .assertion).role x = .interpretation at hrole
    rw [g.role_recast_self _ _ (Graph.contains_of_mem_children hx)] at hrole
    cases hrole
  | @claimed x c hr =>
    change g.role x = .interpretation at hrole
    rw [hr] at hrole
    cases hrole
  | @ground p x hc =>
    change 1 < ((g.recast x .interpretation).children x).length at hlen
    rw [Graph.children_recast, hc, List.length_nil] at hlen
    omega
  | @grounded p x =>
    have hc : g.children x = [] := ho.2.2.2.2 rfl
    change 1 < (g.children x).length at hlen
    rw [hc, List.length_nil] at hlen
    omega
  | @settle p x hc hx hk =>
    change (g.recast x .source).role x = .interpretation at hrole
    rw [g.role_recast_self _ _ hk] at hrole
    cases hrole
  | @settled p x hr =>
    change g.role x = .interpretation at hrole
    rw [hr] at hrole
    cases hrole

theorem Turn.mended (h : Turn g t g' writes more) (hg : g.WellFormed) (ho : t.Open g)
    (hm : Mended g (t :: rest)) : Mended g' (more ++ rest) := by
  intro x hx
  by_cases hxt : x = t.target
  · subst hxt
    exact absurd hx (h.not_overfull_target hg ho)
  · have hbefore : g.Overfull x :=
      hx.of_fewer (h.persists x) (fun hr => (h.role_of_ne hxt).symm.trans hr)
        (h.children_sublist x).length_le
    obtain ⟨c, hc, role, force, ht⟩ := hm x hbefore
    rw [← h.children_of_ne hxt] at hc
    rcases List.mem_cons.1 ht with rfl | ht
    · exact absurd rfl hxt
    · exact ⟨c, hc, role, force, List.mem_append_right _ ht⟩

theorem Clears.not_overfull {p q : Pass Graph} {agenda : List Task} {log : List Event}
    (h : Clears p agenda log q) (hg : p.graph.WellFormed) (hm : Mended p.graph agenda)
    (x : NodeId) : ¬q.graph.Overfull x := by
  induction h with
  | done p =>
    intro hx
    obtain ⟨c, -, role, force, ht⟩ := hm x hx
    cases ht
  | skip _ ho _ ih => exact ih hg (hm.of_not_open ho)
  | visit _ ho _ _ _ hturn _ ih => exact ih (hturn.wellFormed hg) (hturn.mended hg ho hm)

end

section
variable {g g' : Graph} {id : NodeId} {role : Role} {origin : Option NodeId} {force : Bool}
  {writes : Nat} {more : List Task}

theorem Entered.overfull_of_ne (h : Entered g id role origin force g' writes more)
    {x : NodeId} (hx : x ≠ id) (ho : g'.Overfull x) : g.Overfull x :=
  ho.of_fewer (h.persists x) (fun hr => (h.role_of_ne hx).symm.trans hr)
    (h.children_sublist x).length_le

theorem Entered.overfull_self (h : Entered g id role origin force g' writes more)
    (hg : g.WellFormed) (hk : g.contains id = true) (ho : g'.Overfull id) : g.Overfull id := by
  cases h with
  | taking =>
    obtain ⟨-, hr, hl⟩ := ho
    rw [g.role_adopt_self _ _ _ hk] at hr
    subst hr
    have hone := length_retained_interpretation_le origin (g.children id)
    rw [hg.children_adopt_self] at hl
    omega
  | _ => exact ho

theorem Entered.mended_of_singlySupported (h : Entered g id role origin force g' writes more)
    (hg : g.WellFormed) (hk : g.contains id = true) (hs : ∀ x, ¬g.Overfull x) :
    Mended g' more := by
  intro x ho
  by_cases hx : x = id
  · subst hx
    exact absurd (h.overfull_self hg hk ho) (hs x)
  · exact absurd (h.overfull_of_ne hx ho) (hs x)

theorem raise_mem_asks_legalRole {x : NodeId} (hx : x ∈ g.parents id) :
    ∃ role force, .raise x id role force ∈
      asks id (g.children id) (g.parents id) (g.legalRole id) := by
  by_cases hl : g.children id = []
  · refine ⟨.interpretation, true, ?_⟩
    rw [hl]
    exact read_mem_asks id _ _ hx
  · exact ⟨.assertion, false, claim_mem_asks id _ hl (Graph.legalRole_of_support hl) hx⟩

theorem Entered.of_legalRole (h : Entered g id (g.legalRole id) origin true g' writes more) :
    more = asks id (g.children id) (g.parents id) (g.legalRole id) ∧
      ∀ x, g'.children x = g.children x := by
  cases h with
  | handing => exact ⟨rfl, fun _ => rfl⟩
  | taking =>
    have hfit : g.legalRole id = .interpretation → (g.children id).length ≤ 1 :=
      length_children_of_legalRole
    rw [g.adopt_of_surplus_eq_nil _ _ _ (surplus_of_fit hfit _), retained_of_fit hfit]
    exact ⟨rfl, by simp⟩

theorem Entered.mended_of_support (h : Entered g id (g.legalRole id) origin true g' writes more)
    (hg : g.WellFormed) (hk : g.contains id = true) (hs : ∀ x, g.Overfull x → id ∈ g.children x) :
    Mended g' more := by
  obtain ⟨hmore, hchildren⟩ := h.of_legalRole
  intro x ho
  have hx : x ≠ id := by
    intro he
    subst he
    exact hg.notMem_children_self x (hs x (h.overfull_self hg hk ho))
  have hmem := hs x (h.overfull_of_ne hx ho)
  have hraise := raise_mem_asks_legalRole (hg.mem_children_iff.1 hmem)
  rw [hmore]
  exact ⟨id, by rwa [hchildren], hraise⟩

end

end Pass

namespace Graph

variable {g : Graph}

theorem propagate_not_overfull (hg : g.WellFormed) (hs : ∀ x, ¬g.Overfull x) (id : NodeId)
    (role : Role) (origin : Option NodeId) (force : Bool) (x : NodeId) :
    ¬(propagate id role origin force g).state.Overfull x := by
  rcases propagate_state_cases hg id role origin force with
    h | ⟨hk, p, q, log, writes, more, hentered, hclears, h⟩
  · rw [h]
    exact hs x
  · rw [h]
    exact hclears.not_overfull (hentered.wellFormed hg)
      (hentered.mended_of_singlySupported hg hk hs) x

theorem propagate_legalRole_not_overfull (hg : g.WellFormed) {id : NodeId}
    (hk : g.contains id = true) (hs : ∀ x, g.Overfull x → id ∈ g.children x)
    (origin : Option NodeId) (x : NodeId) :
    ¬(propagate id (g.legalRole id) origin true g).state.Overfull x := by
  obtain ⟨stats, hok⟩ := propagate_succeeds hg hk (g.legalRole id) origin true
  obtain ⟨p, q, log₁, log₂, more, henter, hclears, -, heq⟩ := propagate_of_ok hok
  obtain ⟨-, -, writes, -, hentered⟩ := Pass.entered_of_enter henter
  rw [heq]
  exact hclears.not_overfull (hentered.wellFormed hg) (hentered.mended_of_support hg hk hs) x

end Graph

end ArgumentMap
