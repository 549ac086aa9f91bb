import ArgumentMap.Proofs.Pass.Run

/-!
# What a pass may count

On a well-formed graph each card has a bounded number of role writes left, and
each edge a bounded number of entries. A leaf forces its parents at most twice:
once from its own entry and once when it becomes an interpretation.
-/

open Finset

namespace ArgumentMap

namespace Graph

/-- The roles that a card may still be given in a pass. -/
def openRoles (g : Graph) (x : NodeId) : Nat :=
  if g.children x = [] ∨ g.reading x ≠ none then if g.role x = .interpretation then 0 else 1
  else if g.role x = .assertion then 1 else 2

theorem openRoles_le_two (g : Graph) (x : NodeId) : g.openRoles x ≤ 2 := by
  rw [openRoles]
  split_ifs <;> omega

theorem sum_openRoles_le (g : Graph) : ∑ x ∈ g.keys, g.openRoles x ≤ 2 * #g.keys := by
  have hsum : ∑ x ∈ g.keys, g.openRoles x ≤ #g.keys • 2 :=
    sum_le_card_nsmul _ _ 2 fun x _ => g.openRoles_le_two x
  rwa [nsmul_eq_mul, Nat.cast_id, Nat.mul_comm] at hsum

end Graph

namespace Pass

namespace Turn

variable {g g' : Graph} {t : Task} {writes : Nat} {more : List Task}

theorem openRoles_add_le (h : Turn g t g' writes more) (hs : t.Steady g) :
    ∑ x ∈ g'.keys, g'.openRoles x + writes ≤ ∑ x ∈ g.keys, g.openRoles x := by
  have hother : ∀ y, y ≠ t.target → g'.openRoles y ≤ g.openRoles y := by
    intro y hy
    rw [Graph.openRoles, Graph.openRoles, h.children_of_ne hy, h.reading_of_ne hy, h.role_of_ne hy]
  rw [h.keys]
  cases h with
  | @read x c hc hx hp =>
    have hk := Graph.contains_of_mem_children hx
    have hafter : (g.adopt x .interpretation (some c)).openRoles x = 0 := by
      rw [Graph.openRoles, if_pos (.inr (by simp [Graph.reading_adopt hx hc])), if_pos]
      exact g.role_adopt_self _ _ _ hk
    have hbefore : (if g.role x = .interpretation then 0 else 1) ≤ g.openRoles x := by
      rw [Graph.openRoles]
      split_ifs <;> omega
    exact sum_add_le_sum (Graph.mem_keys.2 hk) (by omega) hother
  | @claim x c hc hx hp hr =>
    have hk := Graph.contains_of_mem_children hx
    have hne := List.ne_nil_of_mem hx
    have hnone := Graph.reading_eq_none_of_mem hx hc
    have hafter : (g.recast x .assertion).openRoles x = 1 := by
      rw [Graph.openRoles, g.role_recast_self _ _ hk]
      simp
    have hbefore : g.openRoles x = 2 := by
      rw [Graph.openRoles, if_neg (by simp [hne, hnone]), if_neg hr]
    exact sum_add_le_sum (Graph.mem_keys.2 hk) (by omega) hother
  | claimed => exact Nat.le_refl _
  | @ground p x hc hx hk hp hr =>
    have hafter : (g.recast x .interpretation).openRoles x = 0 := by
      rw [Graph.openRoles, if_pos (.inl (by simpa using hc)), if_pos]
      exact g.role_recast_self _ _ hk
    have hbefore : g.openRoles x = 1 := by rw [Graph.openRoles, if_pos (.inl hc), if_neg hr]
    exact sum_add_le_sum (Graph.mem_keys.2 hk) (by omega) hother
  | grounded => exact Nat.le_refl _
  | settle hc => exact absurd (hs _ _ rfl) hc
  | settled => exact Nat.le_refl _

end Turn

theorem Clears.typeWrites_le {p q : Pass Graph} {agenda : List Task} {log : List Event}
    (h : Clears p agenda log q) (hs : ∀ t ∈ agenda, t.Steady p.graph) :
    q.stats.typeWrites ≤ p.stats.typeWrites + ∑ x ∈ p.graph.keys, p.graph.openRoles x := by
  induction h with
  | done p => exact Nat.le_add_right _ _
  | skip _ _ _ ih => exact ih fun t ht => hs t (List.mem_cons_of_mem _ ht)
  | visit _ _ _ _ hwrites hturn _ ih =>
    have hrest := ih (hturn.steady_append fun t ht => hs t (List.mem_cons_of_mem _ ht))
    have hpaid := hturn.openRoles_add_le (hs _ List.mem_cons_self)
    omega

/-- How often the leaf `c` may still force its parent `x`: by a task under way, or
by becoming an interpretation. -/
def forcings (g : Graph) (agenda : List Task) (x c : NodeId) : Nat :=
  agenda.count (.raise x c .interpretation true) + if g.role c = .interpretation then 0 else 1

theorem forcings_cons (g : Graph) (t : Task) (rest : List Task) (x c : NodeId) :
    forcings g rest x c ≤ forcings g (t :: rest) x c := by
  have hcount := List.count_le_count_cons (a := Task.raise x c .interpretation true) (b := t)
    (l := rest)
  simp only [forcings]
  omega

theorem forcings_cons_self (g : Graph) (rest : List Task) (x c : NodeId) :
    forcings g (.raise x c .interpretation true :: rest) x c = forcings g rest x c + 1 := by
  simp only [forcings, List.count_cons_self]
  omega

namespace Turn

variable {g g' : Graph} {t : Task} {writes : Nat} {more : List Task}

theorem forcings_more_le (h : Turn g t g' writes more) (hg : g.WellFormed) {c : NodeId}
    (hc : g.children c = []) (x : NodeId) : forcings g' more x c ≤ forcings g [] x c := by
  have hcount : ∀ l : List NodeId, ∀ y, y ≠ c →
      (l.map (Task.raise · y .interpretation true)).count (.raise x c .interpretation true) =
        0 := by
    intro l y hy
    rw [List.count_eq_zero]
    simpa using fun _ => hy
  simp only [forcings, List.count_nil]
  cases h with
  | @read y d hd hy hp =>
    have hne : c ≠ y := fun he => List.ne_nil_of_mem hy (he ▸ hc)
    rw [g.role_adopt_of_ne _ _ _ c hne]
    simp [List.count_eq_zero]
  | @claim y d hd hy hp hr =>
    have hne : c ≠ y := fun he => List.ne_nil_of_mem hy (he ▸ hc)
    rw [g.role_recast_of_ne _ _ c hne]
    simp [List.count_eq_zero]
  | claimed => simp
  | @ground p y hy hp hk hpers hr =>
    by_cases hcy : c = y
    · subst hcy
      have hinj : Function.Injective (Task.raise · c .interpretation true) :=
        fun a b hab => (Task.raise.inj hab).1
      have hone := List.nodup_iff_count_le_one.1 (hg.nodup_parents_of c) x
      rw [g.role_recast_self _ _ hk, if_pos rfl, if_neg hr, List.count_map_of_injective _ _ hinj]
      omega
    · rw [g.role_recast_of_ne _ _ c hcy, hcount _ y (Ne.symm hcy)]
  | grounded => simp
  | @settle p y hy hp hk hpers hr =>
    have hne : c ≠ y := fun he => hy (he ▸ hc)
    rw [g.role_recast_of_ne _ _ c hne]
    simp
  | settled => simp

theorem forcings_le (h : Turn g t g' writes more) (hg : g.WellFormed) {c : NodeId}
    (hc : g.children c = []) (x : NodeId) (rest : List Task) :
    forcings g' (more ++ rest) x c ≤ forcings g rest x c := by
  have hmore := h.forcings_more_le hg hc x
  simp only [forcings, List.count_nil, List.count_append] at hmore ⊢
  omega

end Turn

/-- How often the neighbours of `x` may still be entered at the instance of `x`, for
each of its parents. -/
def entriesPerParent (g : Graph) (agenda : List Task) (x : NodeId) : Nat :=
  match g.reading x with
  | some c => forcings g agenda x c
  | none => 2

theorem entriesPerParent_of_reading {g : Graph} {x c : NodeId} (h : g.reading x = some c)
    (agenda : List Task) : entriesPerParent g agenda x = forcings g agenda x c := by
  rw [entriesPerParent, h]

theorem entriesPerParent_of_reading_none {g : Graph} {x : NodeId} (h : g.reading x = none)
    (agenda : List Task) : entriesPerParent g agenda x = 2 := by
  rw [entriesPerParent, h]

/-- The entries that a card may still cause among its neighbours. -/
def cardEntries (g : Graph) (agenda : List Task) (x : NodeId) : Nat :=
  if g.children x = [] then if g.role x = .interpretation then 0 else (g.parents x).length
  else entriesPerParent g agenda x * (g.parents x).length +
    if g.role x = .assertion ∨ g.reading x ≠ none then 0
    else (g.parents x).length + (g.children x).length

end Pass

def Task.taskEntries : Task → Nat
  | .lower _ _ .source _ => 0
  | _ => 1

namespace Pass

def agendaEntries (g : Graph) (agenda : List Task) : Nat :=
  ∑ x ∈ g.keys, cardEntries g agenda x + (agenda.map Task.taskEntries).sum

def Bounded (g : Graph) (agenda : List Task) : Prop :=
  ∀ x c, g.children c = [] → forcings g agenda x c ≤ 2

theorem cardEntries_mono {g h : Graph} {l l' : List Task} {x : NodeId} (hrole : h.role x = g.role x)
    (hchildren : h.children x = g.children x) (hreading : h.reading x = g.reading x)
    (hparents : (h.parents x).length ≤ (g.parents x).length)
    (hforce : ∀ c, g.children c = [] → forcings h l' x c ≤ forcings g l x c) :
    cardEntries h l' x ≤ cardEntries g l x := by
  have hper : entriesPerParent h l' x ≤ entriesPerParent g l x := by
    cases hr : g.reading x with
    | none =>
      rw [entriesPerParent_of_reading_none hr,
        entriesPerParent_of_reading_none (hreading.trans hr)]
    | some c =>
      rw [entriesPerParent_of_reading hr, entriesPerParent_of_reading (hreading.trans hr)]
      exact hforce c (Graph.reading_eq_some_iff.1 hr).2.1
  have hmul := Nat.mul_le_mul hper hparents
  rw [cardEntries, cardEntries, hrole, hchildren, hreading]
  split_ifs <;> omega

theorem cardEntries_cons_le (g : Graph) (t : Task) (rest : List Task) (x : NodeId) :
    cardEntries g rest x ≤ cardEntries g (t :: rest) x :=
  cardEntries_mono rfl rfl rfl (Nat.le_refl _) fun c _ => forcings_cons g t rest x c

theorem cardEntries_le {g : Graph} {agenda : List Task} (hb : Bounded g agenda) (x : NodeId) :
    cardEntries g agenda x ≤ 3 * (g.parents x).length + (g.children x).length := by
  have hper : entriesPerParent g agenda x ≤ 2 := by
    cases hr : g.reading x with
    | none => rw [entriesPerParent_of_reading_none hr]
    | some c =>
      rw [entriesPerParent_of_reading hr]
      exact hb x c (Graph.reading_eq_some_iff.1 hr).2.1
  have hmul := Nat.mul_le_mul_right (g.parents x).length hper
  rw [cardEntries]
  split_ifs <;> omega

theorem cardEntries_of_reading {g : Graph} {x c : NodeId} (h : g.reading x = some c)
    (agenda : List Task) :
    cardEntries g agenda x = forcings g agenda x c * (g.parents x).length := by
  have hne := List.ne_nil_of_mem (Graph.reading_eq_some_iff.1 h).1
  rw [cardEntries, if_neg hne, if_pos (.inr (by simp [h])), entriesPerParent_of_reading h,
    Nat.add_zero]

theorem cardEntries_of_assertion {g : Graph} {x : NodeId} (hne : g.children x ≠ [])
    (hr : g.role x = .assertion) (hnone : g.reading x = none) (agenda : List Task) :
    cardEntries g agenda x = 2 * (g.parents x).length := by
  rw [cardEntries, if_neg hne, if_pos (.inl hr), entriesPerParent_of_reading_none hnone,
    Nat.add_zero]

theorem le_cardEntries_raise {g : Graph} {x c : NodeId} {rest : List Task}
    (hb : Bounded g (.raise x c .interpretation true :: rest)) (hx : c ∈ g.children x)
    (hc : g.children c = []) : (forcings g rest x c + 1) * (g.parents x).length ≤
      cardEntries g (.raise x c .interpretation true :: rest) x := by
  have htwo := hb x c hc
  rw [forcings_cons_self] at htwo
  have hper : forcings g rest x c + 1 ≤
      entriesPerParent g (.raise x c .interpretation true :: rest) x := by
    cases hr : g.reading x with
    | none => rwa [entriesPerParent_of_reading_none hr]
    | some d =>
      have hcd := (Graph.reading_eq_some_iff.1 hr).2.2 c hx
      rw [entriesPerParent_of_reading hr, ← hcd, forcings_cons_self]
  have hmul := Nat.mul_le_mul_right (g.parents x).length hper
  rw [cardEntries, if_neg (List.ne_nil_of_mem hx)]
  omega

section
variable {g : Graph} {x : NodeId} (l : List NodeId)

theorem sum_taskEntries_raise (role : Role) (force : Bool) :
    ((l.map (Task.raise · x role force)).map Task.taskEntries).sum = l.length := by
  simp [Function.comp_def, Task.taskEntries]

theorem sum_taskEntries_ground :
    ((l.map (Task.lower x · .interpretation true)).map Task.taskEntries).sum = l.length := by
  simp [Function.comp_def, Task.taskEntries]

end

namespace Turn

variable {g g' : Graph} {t : Task} {writes : Nat} {more rest : List Task}

theorem bounded (h : Turn g t g' writes more) (hg : g.WellFormed) (hb : Bounded g (t :: rest)) :
    Bounded g' (more ++ rest) := by
  intro x c hc
  rw [h.children_eq_nil] at hc
  exact le_trans (h.forcings_le hg hc x rest) (le_trans (forcings_cons g t rest x c) (hb x c hc))

theorem cardEntries_of_ne (h : Turn g t g' writes more) (hg : g.WellFormed) {y : NodeId}
    (hy : y ≠ t.target) : cardEntries g' (more ++ rest) y ≤ cardEntries g (t :: rest) y :=
  cardEntries_mono (h.role_of_ne hy) (h.children_of_ne hy) (h.reading_of_ne hy)
    (h.parents_sublist y).length_le
    fun c hc => le_trans (h.forcings_le hg hc y rest) (forcings_cons g t rest y c)

theorem agendaEntries_add_one_le (h : Turn g t g' writes more) (hg : g.WellFormed) (hs : t.Steady g)
    (ho : t.Open g) (hb : Bounded g (t :: rest)) :
    agendaEntries g' (more ++ rest) + 1 ≤ agendaEntries g (t :: rest) := by
  have hother : ∀ y, y ≠ t.target → cardEntries g' (more ++ rest) y ≤ cardEntries g (t :: rest) y :=
    fun y hy => h.cardEntries_of_ne hg hy
  have hforce := fun c hc => h.forcings_le hg (c := c) hc t.target rest
  have hidle : t.taskEntries = 1 → ∑ y ∈ g.keys, cardEntries g ([] ++ rest) y +
      ((([] : List Task).map Task.taskEntries).sum + (rest.map Task.taskEntries).sum) + 1 ≤
        ∑ y ∈ g.keys, cardEntries g (t :: rest) y +
          (t.taskEntries + (rest.map Task.taskEntries).sum) := by
    intro hentries
    have hsum := sum_le_sum (s := g.keys) fun y _ => cardEntries_cons_le g t rest y
    simp only [List.nil_append, List.map_nil, List.sum_nil]
    omega
  rw [agendaEntries, agendaEntries, h.keys, List.map_append, List.sum_append, List.map_cons,
    List.sum_cons]
  cases h with
  | @read x c hc hx hp =>
    have hk := Graph.contains_of_mem_children hx
    have hafter : cardEntries (g.adopt x .interpretation (some c))
        (.lower x c .source false :: (g.parents x).map (.raise · x .assertion false) ++ rest) x ≤
          forcings g rest x c * (g.parents x).length := by
      rw [cardEntries_of_reading (Graph.reading_adopt hx hc)]
      exact Nat.mul_le_mul (hforce c hc) (g.parents_adopt_sublist _ _ _ x).length_le
    have hbefore := le_cardEntries_raise hb hx hc
    rw [Nat.add_mul, Nat.one_mul] at hbefore
    have hsum := sum_add_le_sum (d := (g.parents x).length) (Graph.mem_keys.2 hk) (by omega) hother
    simp only [List.map_cons, List.sum_cons, sum_taskEntries_raise, Task.taskEntries]
    omega
  | @claim x c hc hx hp hr =>
    have hk := Graph.contains_of_mem_children hx
    have hne := List.ne_nil_of_mem hx
    have hnone := Graph.reading_eq_none_of_mem hx hc
    have hafter : ∀ l, cardEntries (g.recast x .assertion) l x = 2 * (g.parents x).length := by
      intro l
      rw [cardEntries_of_assertion (by simpa using hne) (g.role_recast_self x .assertion hk)
        (by rw [Graph.reading_recast, hnone]), Graph.parents_recast]
    have hbefore : cardEntries g (.raise x c .assertion false :: rest) x =
        2 * (g.parents x).length + ((g.parents x).length + (g.children x).length) := by
      rw [cardEntries, if_neg hne, if_neg (by simp [hr, hnone]),
        entriesPerParent_of_reading_none hnone]
    have hsum := sum_add_le_sum (d := (g.parents x).length + (g.children x).length)
      (Graph.mem_keys.2 hk) (by rw [hafter, hbefore]) hother
    simp only [List.map_append, List.sum_append, sum_taskEntries_raise, sum_taskEntries_ground,
      Task.taskEntries]
    omega
  | claimed => exact hidle rfl
  | @ground p x hc hx hk hp hr =>
    have hafter : cardEntries (g.recast x .interpretation)
        ((g.parents x).map (.raise · x .interpretation true) ++ rest) x = 0 := by
      rw [cardEntries, if_pos (by simpa using hc), g.role_recast_self _ _ hk, if_pos rfl]
    have hbefore : cardEntries g (.lower p x .interpretation true :: rest) x =
        (g.parents x).length := by
      rw [cardEntries, if_pos hc, if_neg hr]
    have hsum := sum_add_le_sum (d := (g.parents x).length) (Graph.mem_keys.2 hk) (by omega) hother
    simp only [sum_taskEntries_raise, Task.taskEntries]
    omega
  | grounded => exact hidle rfl
  | settle hc => exact absurd (hs _ _ rfl) hc
  | settled => exact absurd (hs _ _ rfl) (by simpa [Task.Open] using ho.2.2.2)

end Turn

theorem Clears.calls_le {p q : Pass Graph} {agenda : List Task} {log : List Event}
    (h : Clears p agenda log q) (hg : p.graph.WellFormed) (hs : ∀ t ∈ agenda, t.Steady p.graph)
    (hb : Bounded p.graph agenda) :
    q.stats.calls ≤ p.stats.calls + agendaEntries p.graph agenda := by
  induction h with
  | done p => exact Nat.le_add_right _ _
  | @skip p q t rest log _ _ _ ih =>
    have hsum := sum_le_sum (s := p.graph.keys) fun y _ => cardEntries_cons_le p.graph t rest y
    have hrest := ih hg (fun t ht => hs t (List.mem_cons_of_mem _ ht))
      fun x c hc => le_trans (forcings_cons p.graph t rest x c) (hb x c hc)
    rw [agendaEntries] at hrest ⊢
    rw [List.map_cons, List.sum_cons]
    omega
  | visit _ ho _ hcalls _ hturn _ ih =>
    have hrest := ih (hturn.wellFormed hg)
      (hturn.steady_append fun t ht => hs t (List.mem_cons_of_mem _ ht)) (hturn.bounded hg hb)
    have hpaid := hturn.agendaEntries_add_one_le hg (hs _ List.mem_cons_self) ho hb
    omega

theorem Clears.counts_le {g : Graph} {p q : Pass Graph} {agenda : List Task} {log : List Event}
    (h : Clears p agenda log q) (hg : g.WellFormed) (hp : p.graph.WellFormed)
    (hids : p.graph.ids = g.ids)
    (hparents : ∀ x, (p.graph.parents x).length ≤ (g.parents x).length)
    (hchildren : ∀ x, (p.graph.children x).length ≤ (g.children x).length)
    (hs : ∀ t ∈ agenda, t.Steady p.graph) (hb : Bounded p.graph agenda) :
    q.stats.typeWrites ≤ p.stats.typeWrites + 2 * g.nodeCount ∧
      q.stats.calls ≤ p.stats.calls + 4 * g.edgeCount + (agenda.map Task.taskEntries).sum := by
  have hkeys : p.graph.keys = g.keys := by rw [Graph.keys, Graph.keys, hids]
  constructor
  · have hwrites := h.typeWrites_le hs
    have hroles := p.graph.sum_openRoles_le
    have hcard := g.card_keys_le
    rw [hkeys] at hwrites hroles
    omega
  · have hcalls := h.calls_le hp hs hb
    have hcards : ∑ x ∈ g.keys, cardEntries p.graph agenda x ≤
        3 * ∑ x ∈ g.keys, (g.parents x).length + ∑ x ∈ g.keys, (g.children x).length := by
      rw [mul_sum, ← sum_add_distrib]
      apply sum_le_sum
      intro x _
      apply (cardEntries_le hb x).trans
      have hpx := hparents x
      have hcx := hchildren x
      omega
    have hup := hg.sum_parents_le
    have hdown := g.sum_children_le
    rw [agendaEntries, hkeys] at hcalls
    omega

end Pass

end ArgumentMap
