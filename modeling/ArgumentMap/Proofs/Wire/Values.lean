import ArgumentMap.Proofs.Json.Records
import ArgumentMap.Wire.Values

/-!
# Values that are read back

Scalars, identifiers and roles come back from their written form, and with them what
may be null instead.
-/

namespace ArgumentMap

theorem Json.nullable_optional {α : Type} {f : α → Json} {g : Json → Option α}
    (h : ∀ a, g (f a) = some a) (hnull : ∀ a, f a ≠ .null) (o : Option α) :
    nullable g (optional f o) = some o := by
  cases o with
  | none => rfl
  | some a =>
    rw [optional, nullable.eq_def]
    split
    · next h => exact absurd h (hnull a)
    · rw [h, Option.map_some]

namespace Scalar

theorem ofJson?_toJson (s : Scalar) : ofJson? s.toJson = some s := by
  cases s with
  | int i => simp [toJson, ofJson?]
  | _ => rfl

end Scalar

namespace Uuid

theorem hexDigit?_hexChar : ∀ d, hexDigit? (hexChar d) = some d := by decide

theorem hexChar_ne : ∀ d, hexChar d ≠ '-' ∧ hexChar d ≠ '\x7b' ∧ (hexChar d).toLower ≠ 'u' := by
  decide

theorem ofDigits?_map_hexChar (u : Uuid) : ofDigits? (u.digits.map hexChar) = some u := by
  rw [ofDigits?, mapM_of_undone hexDigit?_hexChar]
  simp [u.length_digits]

theorem filter_hyphenate {cs : List Char} (h : ∀ c ∈ cs, c ≠ '-') :
    (hyphenate cs).filter (· ≠ '-') = cs := by
  have hkeep : ∀ part : List Char, part ⊆ cs → part.filter (· ≠ '-') = part := fun part hpart =>
    List.filter_eq_self.2 fun c hc => decide_eq_true (h c (hpart hc))
  have hdrop : ∀ i, (cs.drop i).take 4 ++ cs.drop (i + 4) = cs.drop i := fun i => by
    rw [← List.drop_drop, List.take_append_drop]
  have hskip : ∀ part, ('-' :: part).filter (· ≠ '-') = part.filter (· ≠ '-') := fun _ => rfl
  simp only [hyphenate, List.filter_append, hskip, hkeep _ (List.take_subset _ _),
    hkeep _ (List.drop_subset _ _), hkeep _ (List.Subset.trans (List.take_subset _ _)
    (List.drop_subset _ _)), List.append_assoc, hdrop]
  exact List.take_append_drop 8 cs

theorem length_hyphenate {cs : List Char} (h : cs.length = 32) : (hyphenate cs).length = 36 := by
  simp [hyphenate, h]

theorem ofGroups?_hyphenate (u : Uuid) :
    ofGroups? (hyphenate (u.digits.map hexChar)) = some u := by
  have hbare : (hyphenate (u.digits.map hexChar)).filter (· ≠ '-') = u.digits.map hexChar := by
    apply filter_hyphenate
    intro c hc
    obtain ⟨d, -, rfl⟩ := List.mem_map.1 hc
    exact (hexChar_ne d).1
  rw [ofGroups?, hbare]
  simp [ofDigits?_map_hexChar]

theorem ofText?_toText (u : Uuid) : ofText? u.toText = some u := by
  -- The first digit tells that there are neither braces nor a namespace.
  have hlength : (u.digits.map hexChar).length = 32 := by rw [List.length_map, u.length_digits]
  obtain ⟨d, ds, hd⟩ := List.exists_cons_of_length_pos (by rw [u.length_digits]; decide :
    0 < u.digits.length)
  obtain ⟨-, hbrace, hurn⟩ := hexChar_ne d
  have hfirst : ∃ rest, hyphenate (u.digits.map hexChar) = hexChar d :: rest := by
    rw [hd]
    exact ⟨_, rfl⟩
  have hgroups := ofGroups?_hyphenate u
  have hlong := length_hyphenate hlength
  obtain ⟨rest, hrest⟩ := hfirst
  have hnone : dropUrn? (hexChar d :: rest) = none := by
    rw [dropUrn?, if_neg]
    intro h
    exact hurn (List.cons.inj h).1
  rw [ofText?, toText, String.toList_ofList, hrest]
  rw [hrest] at hgroups hlong
  split
  · next h => exact absurd (List.cons.inj h).1 hbrace
  · rw [hnone, if_neg (by omega)]
    exact hgroups

theorem ofJson?_toJson (u : Uuid) : ofJson? u.toJson = some u := ofText?_toText u

end Uuid

theorem NodeId.ofJson?_toJson (id : NodeId) : ofJson? id.toJson = some id := rfl

theorem Role.ofJson?_toJson (r : Role) : ofJson? r.toJson = some r := ofName?_name r

end ArgumentMap
