import ArgumentMap.Json.Layout
import ArgumentMap.Proofs.Json.Scanning

/-!
# What is written keeps to the grammar

Each token is written in one of its spellings, so a text that is laid out token by
token is one of the texts with these tokens.
-/

namespace ArgumentMap.Json

namespace Piece

def ofChar (c : Char) : Piece :=
  if c.toNat < 32 ∧ c ∉ ['\x08', '\x0c', '\n', '\r', '\t'] then .unit c.toNat else .char c

theorem denotes_map_ofChar (cs : List Char) : Denotes (cs.map ofChar) cs := by
  induction cs with
  | nil => exact .nil
  | cons c cs ih =>
    rw [List.map_cons, ofChar]
    split_ifs
    · exact .unit ih
    · exact .char ih

theorem hexValue?_digitChar : ∀ d < 16, hexValue? (Nat.digitChar d) = some d := by decide

theorem spelled_hex4 {n : Nat} (hn : n < 65536) :
    Spelled (.unit n) ('\\' :: 'u' :: Token.hex4 n) := by
  have hvalue :
      4096 * (n / 4096 % 16) + 256 * (n / 256 % 16) + 16 * (n / 16 % 16) + n % 16 = n := by omega
  have hdigit : ∀ k, hexValue? (Nat.digitChar (k % 16)) = some (k % 16) := fun k =>
    hexValue?_digitChar (k % 16) (Nat.mod_lt k (by decide))
  have hunit := Spelled.unit (hdigit (n / 4096)) (hdigit (n / 256)) (hdigit (n / 16)) (hdigit n)
  rwa [hvalue] at hunit

theorem spelled_escape (c : Char) : (ofChar c).Spelled (Token.escape c) := by
  simp only [Token.escape]
  split_ifs with hquote hslash hb hf hn hr ht hlow
  -- seven escapes by a letter, then the other controls, then what stands for itself
  · subst hquote; exact .escape (by decide)
  · subst hslash; exact .escape (by decide)
  · subst hb; exact .escape (by decide)
  · subst hf; exact .escape (by decide)
  · subst hn; exact .escape (by decide)
  · subst hr; exact .escape (by decide)
  · subst ht; exact .escape (by decide)
  · have hpiece : ofChar c = .unit c.toNat := by
      rw [ofChar, if_pos]
      simp [hlow, hb, hf, hn, hr, ht]
    rw [hpiece]
    exact spelled_hex4 (by omega)
  · rw [ofChar, if_neg fun h => hlow h.1]
    exact .plain (Nat.le_of_not_lt hlow) hquote hslash

theorem spelling_escapes (cs : List Char) :
    Spelling (cs.map ofChar) (cs.flatMap Token.escape) := by
  induction cs with
  | nil => exact .nil
  | cons c cs ih => exact .cons (spelled_escape c) ih

end Piece

namespace Numeral

theorem toDigits_of_pos {n : Nat} (hn : 0 < n) :
    ∃ c cs, Nat.toDigits 10 n = c :: cs ∧ c ≠ '0' := by
  induction n using Nat.strongRecOn with
  | ind n ih =>
    rw [Nat.toDigits_eq_if (by decide)]
    split_ifs with hlt
    · refine ⟨_, _, rfl, ?_⟩
      have hdigit : ∀ k < 10, 0 < k → Nat.digitChar k ≠ '0' := by decide
      exact hdigit n hlt hn
    · obtain ⟨c, cs, heq, hc⟩ := ih (n / 10) (by omega) (by omega)
      exact ⟨c, cs ++ [(n % 10).digitChar], by rw [heq, List.cons_append], hc⟩

theorem digits_toDigits (n : Nat) : Digits (Nat.toDigits 10 n) :=
  ⟨Nat.toDigits_ne_nil, fun _ => Nat.isDigit_of_mem_toDigits (by decide) (by decide)⟩

theorem whole_toDigits_of_pos {n : Nat} (hn : 0 < n) :
    Whole (Nat.toDigits 10 n) ∧ Nat.toDigits 10 n ≠ ['0'] := by
  have hdigits := digits_toDigits n
  obtain ⟨c, cs, heq, hc⟩ := toDigits_of_pos hn
  rw [heq] at hdigits ⊢
  exact ⟨.digits hdigits hc, fun h => hc (List.cons.inj h).1⟩

theorem whole_toDigits (n : Nat) : Whole (Nat.toDigits 10 n) := by
  rcases Nat.eq_zero_or_pos n with rfl | hn
  · exact .zero
  · exact (whole_toDigits_of_pos hn).1

theorem spelled_spellInt (i : Int) : Spelled (.int i) (Token.spellInt i) := by
  have hvalue : ∀ n, Nat.ofDigitChars 10 (Nat.toDigits 10 n) 0 = n := fun n =>
    Nat.ofDigitChars_toDigits (by decide) (by decide)
  cases i with
  | ofNat n =>
    have hspelled := Spelled.natural (whole_toDigits n)
    rwa [hvalue] at hspelled
  | negSucc n =>
    obtain ⟨hwhole, hne⟩ := whole_toDigits_of_pos n.succ_pos
    have hspelled := Spelled.negative hwhole hne
    rwa [hvalue] at hspelled

end Numeral

theorem Token.spelled_spell (t : Token) : t.Spelled t.spell := by
  cases t with
  | bool b => cases b <;> exact .fixed (by decide)
  | int i => exact .number (Numeral.spelled_spellInt i)
  | real => exact .number .minusZero
  | text s =>
    cases s with
    | some s => exact .text (Piece.spelling_escapes s.toList) (Piece.denotes_map_ofChar s.toList)
    | none =>
      exact .brokenText (.cons (Piece.spelled_hex4 (by decide : 0xd800 < 65536)) .nil)
        (Piece.not_denotes (by decide))
  | _ => exact .fixed (by decide)

open Scanner (Blank)

theorem blank_nil : Blank [] := List.forall_mem_nil _

theorem Written.append {as bs : List Token} {cs ds : List Char} (has : Written as cs)
    (hbs : Written bs ds) : Written (as ++ bs) (cs ++ ds) := by
  induction has with
  | nil hblank =>
    cases hbs with
    | nil hblank' => exact .nil (List.forall_mem_append.2 ⟨hblank, hblank'⟩)
    | cons hblank' ht hrest =>
      rw [← List.append_assoc]
      exact .cons (List.forall_mem_append.2 ⟨hblank, hblank'⟩) ht hrest
  | cons hblank ht _ ih =>
    rw [List.append_assoc, List.append_assoc]
    exact .cons hblank ht ih

theorem written_of_spelled {t : Token} {cs : List Char} (h : t.Spelled cs) : Written [t] cs := by
  have hcons := Written.cons blank_nil h (.nil blank_nil)
  rwa [List.nil_append, List.append_nil] at hcons

theorem written_spell (ts : List Token) : Written ts (ts.flatMap Token.spell) := by
  induction ts with
  | nil => exact .nil blank_nil
  | cons t ts ih => exact .cons blank_nil t.spelled_spell ih

end ArgumentMap.Json
