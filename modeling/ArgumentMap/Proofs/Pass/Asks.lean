import ArgumentMap.Propagation
import Mathlib.Data.List.Nodup
import Mathlib.Tactic.ByContra
import Mathlib.Tactic.SplitIfs

/-!
# What a card gives up and what it asks

The support that a card sheds and keeps when it takes a role, and the tasks that
it puts on the agenda, as functions of its lists of neighbours.
-/

namespace ArgumentMap.Pass

/-- The support that a card gives up when it takes a role. -/
def surplus (role : Role) (origin : Option NodeId) (children : List NodeId) : List NodeId :=
  if role = .interpretation ∧ 1 < children.length then
    children.filter (· ∉ kept origin children)
  else []

def retained (role : Role) (origin : Option NodeId) (children : List NodeId) : List NodeId :=
  if role = .interpretation ∧ 1 < children.length then kept origin children else children

/-- What a card with these neighbours asks of them when it hands on a role. -/
def asks (id : NodeId) (children parents : List NodeId) (role : Role) : List Task :=
  if children = [] then parents.map (.raise · id .interpretation true)
  else match role with
  | .interpretation =>
    children.map (.lower id · .source false) ++ parents.map (.raise · id .assertion false)
  | .assertion =>
    children.map (.lower id · .interpretation true) ++ parents.map (.raise · id .assertion false)
  | .source | .unset => []

theorem kept_ne_nil (origin : Option NodeId) {children : List NodeId} (h : children ≠ []) :
    kept origin children ≠ [] := by
  cases children with
  | nil => exact absurd rfl h
  | cons c cs =>
    simp only [kept]
    cases origin.filter (· ∈ c :: cs) <;> simp

theorem kept_of_mem {c : NodeId} {cs : List NodeId} (h : c ∈ cs) : kept (some c) cs = [c] := by
  simp [kept, h]

theorem kept_of_foreign {origin : Option NodeId} {cs : List NodeId}
    (h : ∀ c, origin = some c → c ∉ cs) : kept origin cs = cs.head?.toList := by
  have hnone : origin.filter (· ∈ cs) = none := by
    rw [Option.filter_eq_none_iff]
    intro c hc
    simpa using h c hc
  rw [kept, hnone, Option.none_or]

theorem mem_of_mem_kept {origin : Option NodeId} {c : NodeId} {cs : List NodeId}
    (h : c ∈ kept origin cs) : c ∈ cs := by
  simp only [kept] at h
  cases hf : origin.filter (· ∈ cs) with
  | some d =>
    rw [hf] at h
    have hd := Option.filter_eq_some_iff.1 hf
    have hcd : c = d := by simpa using h
    simpa [hcd] using hd.2
  | none =>
    rw [hf] at h
    cases cs with
    | nil => simp at h
    | cons d ds =>
      have hcd : c = d := by simpa using h
      simp [hcd]

theorem kept_eq_singleton (origin : Option NodeId) {cs : List NodeId} (h : cs ≠ []) :
    ∃ c ∈ cs, kept origin cs = [c] := by
  have hne := kept_ne_nil origin h
  cases hk : kept origin cs with
  | nil => exact absurd hk hne
  | cons c rest =>
    have hrest : rest = [] := by
      have hlen : (kept origin cs).length ≤ 1 := by
        simp only [kept]
        cases (origin.filter (· ∈ cs)).or cs.head? <;> simp
      rw [hk] at hlen
      simpa using hlen
    exact ⟨c, mem_of_mem_kept (hk ▸ List.mem_cons_self), by rw [hrest]⟩

theorem surplus_of_fit {role : Role} {cs : List NodeId}
    (h : role = .interpretation → cs.length ≤ 1) (origin : Option NodeId) :
    surplus role origin cs = [] :=
  if_neg fun hc => absurd (h hc.1) (Nat.not_le_of_lt hc.2)

theorem retained_of_fit {role : Role} {cs : List NodeId}
    (h : role = .interpretation → cs.length ≤ 1) (origin : Option NodeId) :
    retained role origin cs = cs :=
  if_neg fun hc => absurd (h hc.1) (Nat.not_le_of_lt hc.2)

theorem mem_of_mem_surplus {role : Role} {origin : Option NodeId} {c : NodeId}
    {cs : List NodeId} (h : c ∈ surplus role origin cs) : c ∈ cs := by
  simp only [surplus] at h
  split_ifs at h
  · exact (List.mem_filter.1 h).1
  · simp at h

theorem retained_of_mem {c : NodeId} {cs : List NodeId} (h : c ∈ cs) :
    retained .interpretation (some c) cs = [c] := by
  simp only [retained]
  split_ifs with hl
  · exact kept_of_mem h
  · have hle : cs.length ≤ 1 := by simpa using hl
    obtain ⟨d, rfl⟩ : ∃ d, cs = [d] :=
      List.length_eq_one_iff.1 (Nat.le_antisymm hle (List.length_pos_of_mem h))
    have hcd : c = d := by simpa using h
    rw [hcd]

theorem retained_interpretation (origin : Option NodeId) {cs : List NodeId} (h : cs ≠ []) :
    retained .interpretation origin cs = kept origin cs := by
  obtain ⟨c, hc, hk⟩ := kept_eq_singleton origin h
  by_cases hmany : 1 < cs.length
  · exact if_pos ⟨rfl, hmany⟩
  · obtain ⟨d, rfl⟩ := List.length_eq_one_iff.1
      (Nat.le_antisymm (Nat.le_of_not_lt hmany) (List.length_pos_of_ne_nil h))
    rw [retained_of_fit (by simp), hk, List.mem_singleton.1 hc]

theorem surplus_interpretation {origin : Option NodeId} {c : NodeId} {cs : List NodeId}
    (hc : c ∈ cs) (hk : kept origin cs = [c]) :
    surplus .interpretation origin cs = cs.filter (· ≠ c) := by
  by_cases hmany : 1 < cs.length
  · rw [surplus, if_pos ⟨rfl, hmany⟩, hk]
    simp only [List.mem_singleton]
  · obtain ⟨d, rfl⟩ := List.length_eq_one_iff.1
      (Nat.le_antisymm (Nat.le_of_not_lt hmany) (List.length_pos_of_mem hc))
    rw [surplus_of_fit (by simp), List.mem_singleton.1 hc]
    simp

theorem filter_surplus {role : Role} {origin : Option NodeId} {cs : List NodeId} (h : cs.Nodup) :
    cs.filter (· ∉ surplus role origin cs) = retained role origin cs := by
  simp only [surplus, retained]
  split_ifs with hl
  · obtain ⟨c, hc, hk⟩ := kept_eq_singleton origin
      (List.ne_nil_of_length_pos (by omega : 0 < cs.length))
    rw [hk]
    have hf : cs.filter (· ∉ cs.filter (· ∉ [c])) = cs.filter (· = c) :=
      List.filter_congr fun d hd => by simp [hd]
    rw [hf, List.filter_eq, List.count_eq_one_of_mem h hc, List.replicate_one]
  · simp

theorem filter_surplus_eq_nil {role : Role} {origin : Option NodeId} {cs : List NodeId} :
    cs.filter (· ∉ surplus role origin cs) = [] ↔ cs = [] := by
  constructor
  · intro h
    by_contra hne
    obtain ⟨c, hc, hk⟩ := kept_eq_singleton origin hne
    have hns : c ∉ surplus role origin cs := by
      simp only [surplus]
      split_ifs <;> simp [hk]
    exact absurd h (List.ne_nil_of_mem (List.mem_filter.2 ⟨hc, by simpa using hns⟩))
  · intro h
    rw [h]
    rfl

section
variable {role : Role} {origin : Option NodeId}

theorem retained_eq_nil {cs : List NodeId} : retained role origin cs = [] ↔ cs = [] := by
  rw [retained]
  split_ifs with h
  · have hne : cs ≠ [] := List.ne_nil_of_length_pos (by omega)
    have hkept := kept_ne_nil origin hne
    simp [hne, hkept]
  · rfl

theorem retained_sublist (cs : List NodeId) : (retained role origin cs).Sublist cs := by
  rw [retained]
  split_ifs with h
  · obtain ⟨c, hc, hk⟩ := kept_eq_singleton origin
      (List.ne_nil_of_length_pos (by omega : 0 < cs.length))
    rw [hk, List.singleton_sublist]
    exact hc
  · exact List.Sublist.refl _

theorem length_retained_interpretation_le (origin : Option NodeId) (cs : List NodeId) :
    (retained .interpretation origin cs).length ≤ 1 := by
  rw [retained]
  split_ifs with h
  · obtain ⟨c, -, hk⟩ := kept_eq_singleton origin
      (List.ne_nil_of_length_pos (by omega : 0 < cs.length))
    simp only [hk, List.length_singleton, Nat.le_refl]
  · simpa using h

end

section
variable (id : NodeId) {cs : List NodeId} (ps : List NodeId)

theorem asks_leaf (role : Role) : asks id [] ps role = ps.map (.raise · id .interpretation true) :=
  if_pos rfl

theorem asks_interpretation (h : cs ≠ []) : asks id cs ps .interpretation =
    cs.map (.lower id · .source false) ++ ps.map (.raise · id .assertion false) :=
  if_neg h

theorem asks_assertion (h : cs ≠ []) : asks id cs ps .assertion =
    cs.map (.lower id · .interpretation true) ++ ps.map (.raise · id .assertion false) :=
  if_neg h

theorem asks_source (h : cs ≠ []) : asks id cs ps .source = [] := if_neg h

theorem asks_unset (h : cs ≠ []) : asks id cs ps .unset = [] := if_neg h

theorem read_mem_asks (role : Role) {p : NodeId} (hp : p ∈ ps) :
    .raise p id .interpretation true ∈ asks id [] ps role := by
  rw [asks_leaf]
  exact List.mem_map_of_mem hp

theorem claim_mem_asks {role : Role} (h : cs ≠ [])
    (hr : role = .interpretation ∨ role = .assertion) {p : NodeId} (hp : p ∈ ps) :
    .raise p id .assertion false ∈ asks id cs ps role := by
  rcases hr with rfl | rfl
  · rw [asks_interpretation id ps h]
    exact List.mem_append_right _ (List.mem_map_of_mem hp)
  · rw [asks_assertion id ps h]
    exact List.mem_append_right _ (List.mem_map_of_mem hp)

theorem ground_mem_asks {c : NodeId} (hc : c ∈ cs) :
    .lower id c .interpretation true ∈ asks id cs ps .assertion := by
  rw [asks_assertion id ps (List.ne_nil_of_mem hc)]
  exact List.mem_append_left _ (List.mem_map_of_mem hc)

theorem settle_mem_asks {c : NodeId} (hc : c ∈ cs) :
    .lower id c .source false ∈ asks id cs ps .interpretation := by
  rw [asks_interpretation id ps (List.ne_nil_of_mem hc)]
  exact List.mem_append_left _ (List.mem_map_of_mem hc)

theorem mem_asks_cases {id ps} {role : Role} {t : Task} (ht : t ∈ asks id cs ps role) :
    (cs = [] ∧ ∃ p ∈ ps, t = .raise p id .interpretation true) ∨
    (cs ≠ [] ∧ role = .interpretation ∧ ∃ c ∈ cs, t = .lower id c .source false) ∨
    (cs ≠ [] ∧ role = .assertion ∧ ∃ c ∈ cs, t = .lower id c .interpretation true) ∨
    (cs ≠ [] ∧ (role = .interpretation ∨ role = .assertion) ∧
      ∃ p ∈ ps, t = .raise p id .assertion false) := by
  by_cases hl : cs = []
  · rw [hl, asks_leaf] at ht
    obtain ⟨p, hp, rfl⟩ := List.mem_map.1 ht
    exact .inl ⟨hl, p, hp, rfl⟩
  · right
    cases role with
    | interpretation =>
      rw [asks_interpretation id ps hl] at ht
      rcases List.mem_append.1 ht with ht | ht
      · obtain ⟨c, hc, rfl⟩ := List.mem_map.1 ht
        exact .inl ⟨hl, rfl, c, hc, rfl⟩
      · obtain ⟨p, hp, rfl⟩ := List.mem_map.1 ht
        exact .inr (.inr ⟨hl, .inl rfl, p, hp, rfl⟩)
    | assertion =>
      rw [asks_assertion id ps hl] at ht
      rcases List.mem_append.1 ht with ht | ht
      · obtain ⟨c, hc, rfl⟩ := List.mem_map.1 ht
        exact .inr (.inl ⟨hl, rfl, c, hc, rfl⟩)
      · obtain ⟨p, hp, rfl⟩ := List.mem_map.1 ht
        exact .inr (.inr ⟨hl, .inr rfl, p, hp, rfl⟩)
    | source =>
      rw [asks_source id ps hl] at ht
      cases ht
    | unset =>
      rw [asks_unset id ps hl] at ht
      cases ht

end

theorem eq_of_lower_mem_asks {cs ps : List NodeId} {x y c : NodeId} {role asked : Role}
    {leaf : Bool} (h : .lower y c asked leaf ∈ asks x cs ps role) : y = x := by
  rcases mem_asks_cases h with ⟨-, p, -, he⟩ | ⟨-, -, d, -, he⟩ | ⟨-, -, d, -, he⟩ |
    ⟨-, -, p, -, he⟩ <;> cases he <;> rfl

theorem asks_subset {cs ps ps' : List NodeId} {x : NodeId} {role : Role} {t : Task}
    (hps : ps ⊆ ps') (h : t ∈ asks x cs ps role) : t ∈ asks x cs ps' role := by
  by_cases hl : cs = []
  · rw [hl, asks_leaf] at h ⊢
    exact List.map_subset _ hps h
  · cases role with
    | interpretation =>
      rw [asks_interpretation x _ hl, List.mem_append] at h ⊢
      exact h.imp_right fun h => List.map_subset _ hps h
    | assertion =>
      rw [asks_assertion x _ hl, List.mem_append] at h ⊢
      exact h.imp_right fun h => List.map_subset _ hps h
    | source => rwa [asks_source x _ hl] at h ⊢
    | unset => rwa [asks_unset x _ hl] at h ⊢

end ArgumentMap.Pass
