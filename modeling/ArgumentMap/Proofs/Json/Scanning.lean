import ArgumentMap.Json.Grammar
import Mathlib.Data.List.TakeWhile
import Mathlib.Tactic.SplitIfs

/-!
# Scanning what keeps to the grammar

A token is found again from each of its spellings, whatever stands before and behind
it, as long as no number or word runs into another one. So a text that is written
token by token, with or without blanks between them, is cut into these tokens.
-/

namespace ArgumentMap.Json

section
variable {α σ : Type} {f : σ → α → Option σ} {s t : σ}

theorem foldlM_cons_of_eq_some {a : α} (h : f s a = some t) (as : List α) :
    (a :: as).foldlM f s = as.foldlM f t := by
  rw [List.foldlM_cons, h]
  rfl

theorem foldlM_append_of_eq_some {as : List α} (h : as.foldlM f s = some t) (bs : List α) :
    (as ++ bs).foldlM f s = bs.foldlM f t := by
  rw [List.foldlM_append, h]
  rfl

end

variable {found : List Token}

theorem hexValue?_lt {c : Char} {d : Nat} (h : hexValue? c = some d) : d < 16 := by
  have hval : ∀ a b : Char, a ≤ b → a.toNat ≤ b.toNat := fun _ _ h => h
  rw [hexValue?] at h
  split_ifs at h with hdigit hlower hupper
  · have hc : c.toNat ≤ '9'.toNat := of_decide_eq_true (Bool.and_eq_true_iff.1 hdigit).2
    cases h
    exact Nat.lt_of_le_of_lt (Nat.sub_le_sub_right hc _) (by decide)
  · cases h
    have hc := Nat.sub_le_sub_right (hval _ _ hlower.2) 'a'.toNat
    exact Nat.lt_of_le_of_lt (Nat.add_le_add_right hc 10) (by decide)
  · cases h
    have hc := Nat.sub_le_sub_right (hval _ _ hupper.2) 'A'.toNat
    exact Nat.lt_of_le_of_lt (Nat.add_le_add_right hc 10) (by decide)

namespace Piece

theorem Denotes.join_eq {ps : List Piece} {cs : List Char} (h : Denotes ps cs) :
    join ps = some cs := by
  induction h with
  | nil => rfl
  | char _ ih => rw [join, ih, Option.map_some]
  | @unit c _ _ _ ih =>
    have hvalid : c.toNat < 0xD800 ∨ 0xDFFF < c.toNat ∧ c.toNat < 0x110000 := c.valid
    have hhigh : ¬ (0xD800 ≤ c.toNat ∧ c.toNat < 0xDC00) := by omega
    have hlow : ¬ (0xDC00 ≤ c.toNat ∧ c.toNat < 0xE000) := by omega
    rw [join.eq_def]
    simp only [if_neg hhigh, if_neg hlow, Char.ofNat_toNat, ih, Option.map_some]
  | @pair high low c _ _ hhigh hhigh' hlow hlow' hc _ ih =>
    rw [join.eq_def]
    simp only [if_pos (And.intro hhigh hhigh'), if_pos (And.intro hlow hlow'), ih, Option.map_some,
      Piece.pair, ← hc, Char.ofNat_toNat]

theorem not_denotes {ps : List Piece} (h : join ps = none) (cs : List Char) : ¬ Denotes ps cs := by
  intro hcs
  rw [hcs.join_eq] at h
  cases h

theorem toNat_ofNat {n : Nat} (h : n < 0xD800 ∨ 0xDFFF < n ∧ n < 0x110000) :
    (Char.ofNat n).toNat = n := by
  rw [Char.ofNat, dif_pos (show n.isValidChar from h)]
  rfl

theorem denotes_of_join {ps : List Piece} {cs : List Char} (hps : ∀ n, .unit n ∈ ps → n < 65536)
    (h : join ps = some cs) : Denotes ps cs := by
  -- nothing, a character, a pair, three ways to break a pair, and any other number
  fun_induction join ps generalizing cs with
  | case1 =>
    cases h
    exact .nil
  | case2 c ps ih =>
    obtain ⟨cs, hcs, rfl⟩ := Option.map_eq_some_iff.1 h
    exact .char (ih (fun n hn => hps n (List.mem_cons_of_mem _ hn)) hcs)
  | case3 high hhigh low ps hlow ih =>
    obtain ⟨cs, hcs, rfl⟩ := Option.map_eq_some_iff.1 h
    have hrest : ∀ n, .unit n ∈ ps → n < 65536 := fun n hn => hps n (by simp [hn])
    refine .pair hhigh.1 hhigh.2 hlow.1 hlow.2 (toNat_ofNat ?_) (ih hrest hcs)
    omega
  | case4 => cases h
  | case5 => cases h
  | case6 => cases h
  | case7 n ps hhigh hlow ih =>
    obtain ⟨cs, hcs, rfl⟩ := Option.map_eq_some_iff.1 h
    have hn : n < 65536 := hps n List.mem_cons_self
    have hchar : (Char.ofNat n).toNat = n := toNat_ofNat (by omega)
    have hunit := Denotes.unit (c := Char.ofNat n)
      (ih (fun n hn => hps n (List.mem_cons_of_mem _ hn)) hcs)
    rwa [hchar] at hunit

theorem Spelling.unit_lt {ps : List Piece} {cs : List Char} (h : Spelling ps cs) :
    ∀ n, .unit n ∈ ps → n < 65536 := by
  induction h with
  | nil => exact fun _ hn => absurd hn List.not_mem_nil
  | cons hp _ ih =>
    intro n hn
    rcases List.mem_cons.1 hn with rfl | hn
    · cases hp with
      | unit ha hb hc hd =>
        have hi := hexValue?_lt ha
        have hj := hexValue?_lt hb
        have hk := hexValue?_lt hc
        have hl := hexValue?_lt hd
        omega
    · exact ih n hn

theorem Spelling.join_eq_none {ps : List Piece} {cs : List Char} (h : Spelling ps cs)
    (hnone : ∀ s, ¬ Denotes ps s) : join ps = none :=
  Option.eq_none_iff_forall_not_mem.2 fun s hs => hnone s (denotes_of_join h.unit_lt hs)

end Piece

namespace Scanner

theorem feed_hexDigit {pieces : List Piece} {digits value d : Nat} {c : Char}
    (h : hexValue? c = some d) :
    feed ⟨found, .coded pieces digits value⟩ c =
      some (if digits = 3 then ⟨found, .quoted (.unit (16 * value + d) :: pieces)⟩
        else ⟨found, .coded pieces (digits + 1) (16 * value + d)⟩) := by
  simp only [feed, h, Option.map_some]

theorem ofEscape?_of_mem {letter c : Char} (h : (letter, c) ∈ Piece.escapes) :
    letter ≠ 'u' ∧ Piece.ofEscape? letter = some (.char c) := by
  simp only [Piece.escapes, List.mem_cons, List.not_mem_nil, or_false, Prod.mk.injEq] at h
  rcases h with ⟨rfl, rfl⟩ | ⟨rfl, rfl⟩ | ⟨rfl, rfl⟩ | ⟨rfl, rfl⟩ | ⟨rfl, rfl⟩ | ⟨rfl, rfl⟩ |
    ⟨rfl, rfl⟩ | ⟨rfl, rfl⟩ <;> exact ⟨by decide, rfl⟩

theorem scan_piece {p : Piece} {cs : List Char} (h : p.Spelled cs) (pieces : List Piece) :
    cs.foldlM feed ⟨found, .quoted pieces⟩ = some ⟨found, .quoted (p :: pieces)⟩ := by
  cases h with
  | plain hlow hquote hslash =>
    simp [feed, hquote, hslash, Nat.not_lt.2 hlow]
  | escape hmem =>
    obtain ⟨hne, hpiece⟩ := ofEscape?_of_mem hmem
    have hslash : feed ⟨found, .quoted pieces⟩ '\\' = some ⟨found, .escaped pieces⟩ := rfl
    rw [foldlM_cons_of_eq_some hslash]
    simp [feed, hne, hpiece]
  | @unit a b c d i j k l ha hb hc hd =>
    have hstart : ∀ cs, List.foldlM feed ⟨found, .quoted pieces⟩ ('\\' :: 'u' :: cs) =
        List.foldlM feed ⟨found, .coded pieces 0 0⟩ cs := fun _ => rfl
    have hvalue : 16 * (16 * (16 * (16 * 0 + i) + j) + k) + l =
        4096 * i + 256 * j + 16 * k + l := by omega
    rw [hstart]
    simp only [List.foldlM_cons, List.foldlM_nil, feed_hexDigit ha, feed_hexDigit hb,
      feed_hexDigit hc, feed_hexDigit hd, Option.bind_eq_bind, Option.bind_some, reduceIte,
      Nat.reduceEqDiff, hvalue, Option.pure_def]

theorem scan_spelling {ps : List Piece} {cs : List Char} (h : Piece.Spelling ps cs)
    (pieces : List Piece) :
    cs.foldlM feed ⟨found, .quoted pieces⟩ = some ⟨found, .quoted (ps.reverse ++ pieces)⟩ := by
  induction h generalizing pieces with
  | nil => rfl
  | cons hp _ ih =>
    rw [foldlM_append_of_eq_some (scan_piece hp pieces), ih]
    simp

theorem scan_quoted {ps : List Piece} {cs : List Char} (h : Piece.Spelling ps cs) :
    ('"' :: (cs ++ ['"'])).foldlM feed ⟨found, .between⟩ =
      some ⟨.text ((Piece.join ps).map String.ofList) :: found, .between⟩ := by
  have hstart : feed ⟨found, .between⟩ '"' = some ⟨found, .quoted []⟩ := rfl
  rw [foldlM_cons_of_eq_some hstart, foldlM_append_of_eq_some (scan_spelling h [])]
  simp [feed]

end Scanner

namespace Numeral

variable {cs ds : List Char}

theorem ne_of_isDigit {c d : Char} (hc : c.isDigit = true) (hd : d.isDigit = false) : c ≠ d := by
  rintro rfl
  rw [hc] at hd
  cases hd

theorem isExponentMark_of_isDigit {c : Char} (h : c.isDigit = true) :
    isExponentMark c = false := by
  simp [isExponentMark, ne_of_isDigit h (d := 'e') rfl, ne_of_isDigit h (d := 'E') rfl]

theorem Digits.isDigits (h : Digits cs) : isDigits cs = true := by
  simpa [Numeral.isDigits, h.1] using h.2

theorem Digits.isExponent (h : Digits cs) : isExponent cs = true := by
  rw [isExponent.eq_def]
  split
  · exact absurd (h.2 '+' List.mem_cons_self) (by decide)
  · exact absurd (h.2 '-' List.mem_cons_self) (by decide)
  · exact h.isDigits

theorem Whole.digits_self (h : Whole ds) : Digits ds := by
  cases h with
  | zero => exact ⟨nofun, List.forall_mem_singleton.2 rfl⟩
  | digits h => exact h

theorem Whole.isWhole (h : Whole ds) : isWhole ds = true := by
  cases h with
  | zero => rfl
  | digits _ hc =>
    rw [isWhole.eq_def]
    split
    · next h => cases h
    · next h => exact absurd (List.cons.inj h).1 hc
    · rfl

theorem le_ofDigitChars (n : Nat) : n ≤ Nat.ofDigitChars 10 cs n := by
  induction cs generalizing n with
  | nil => exact Nat.le_refl n
  | cons c cs ih =>
    rw [Nat.ofDigitChars_cons]
    exact Nat.le_trans (by omega) (ih _)

theorem Whole.value_ne_zero (h : Whole ds) (hne : ds ≠ ['0']) : Nat.ofDigitChars 10 ds 0 ≠ 0 := by
  cases h with
  | zero => exact absurd rfl hne
  | @digits c cs hd hc =>
    have hdigit : '0'.toNat ≤ c.toNat :=
      of_decide_eq_true (Bool.and_eq_true_iff.1 (hd.2 c List.mem_cons_self)).1
    have hzero : c.toNat ≠ '0'.toNat := fun h => hc (Char.toNat_inj.1 h)
    rw [Nat.ofDigitChars_cons]
    have hle := @le_ofDigitChars cs (10 * 0 + (c.toNat - '0'.toNat))
    omega

theorem isTail_append {fraction exponent : List Char} (hf : Fraction fraction)
    (he : Exponent exponent) (hne : fraction ++ exponent ≠ []) :
    isTail (fraction ++ exponent) = true ∧
      ∃ c cs, fraction ++ exponent = c :: cs ∧ c.isDigit = false := by
  have hexponent : ∀ {sign cs : List Char}, sign ∈ [[], ['+'], ['-']] → Digits cs →
      isExponent (sign ++ cs) = true := by
    intro sign cs hsign hcs
    simp only [List.mem_cons, List.not_mem_nil, or_false] at hsign
    rcases hsign with rfl | rfl | rfl
    · exact hcs.isExponent
    · exact hcs.isDigits
    · exact hcs.isDigits
  have hmark : ∀ {mark : Char}, mark ∈ ['e', 'E'] →
      isExponentMark mark = true ∧ mark ≠ '.' ∧ mark.isDigit = false := by
    intro mark hm
    simp only [List.mem_cons, List.not_mem_nil, or_false] at hm
    rcases hm with rfl | rfl <;> exact ⟨rfl, by decide, rfl⟩
  cases hf with
  | absent =>
    cases he with
    | absent => exact absurd rfl hne
    | marked hm hsign hcs =>
      obtain ⟨hmark, hpoint, hdigit⟩ := hmark hm
      exact ⟨by simp [isTail, hpoint, hmark, hexponent hsign hcs], _, _, rfl, hdigit⟩
  | @point ds hds =>
    have hrun : ∀ c ∈ ds, (!isExponentMark c) = true := fun c hc => by
      rw [isExponentMark_of_isDigit (hds.2 c hc)]
      rfl
    refine ⟨?_, _, _, rfl, rfl⟩
    rw [List.cons_append, isTail, if_pos rfl, List.takeWhile_append_of_pos hrun,
      List.dropWhile_append_of_pos hrun]
    cases he with
    | absent => simp [hds.isDigits]
    | marked hm hsign hcs => simp [(hmark hm).1, hds.isDigits, hexponent hsign hcs]

theorem ofUnsigned?_whole (negative : Bool) (h : Whole ds) :
    ofUnsigned? negative ds =
      some (if negative then
        if Nat.ofDigitChars 10 ds 0 = 0 then .real else .int (-(Nat.ofDigitChars 10 ds 0))
        else .int (Nat.ofDigitChars 10 ds 0)) := by
  have hdigits := h.digits_self.2
  rw [ofUnsigned?, List.takeWhile_eq_self_iff.2 hdigits, List.dropWhile_eq_nil_iff.2 hdigits,
    h.isWhole]
  cases negative <;> simp

theorem ofUnsigned?_real (negative : Bool) {fraction exponent : List Char} (h : Whole ds)
    (hf : Fraction fraction) (he : Exponent exponent) (hne : fraction ++ exponent ≠ []) :
    ofUnsigned? negative (ds ++ (fraction ++ exponent)) = some .real := by
  obtain ⟨htail, c, cs, heq, hc⟩ := isTail_append hf he hne
  have hdigits := h.digits_self.2
  rw [ofUnsigned?, List.takeWhile_append_of_pos hdigits, List.dropWhile_append_of_pos hdigits]
  rw [heq] at htail ⊢
  simp [hc, htail, h.isWhole]

theorem ofChars?_whole (h : Whole ds) (tail : List Char) :
    ofChars? (ds ++ tail) = ofUnsigned? false (ds ++ tail) := by
  rw [ofChars?.eq_def]
  split
  · next rest heq =>
    obtain ⟨c, cs, rfl⟩ := List.exists_cons_of_ne_nil h.digits_self.1
    have hminus := h.digits_self.2 c List.mem_cons_self
    rw [(List.cons.inj heq).1] at hminus
    cases hminus
  · rfl

theorem Spelled.ofChars?_eq {t : Token} (h : Spelled t cs) : ofChars? cs = some t := by
  cases h with
  | natural hw =>
    have hplain := ofChars?_whole hw []
    rw [List.append_nil] at hplain
    rw [hplain, ofUnsigned?_whole false hw]
    rfl
  | negative hw hne =>
    rw [ofChars?, ofUnsigned?_whole true hw, if_pos rfl, if_neg (hw.value_ne_zero hne)]
  | minusZero => decide
  | real hsign hw hf he hne =>
    simp only [List.mem_cons, List.not_mem_nil, or_false] at hsign
    rcases hsign with rfl | rfl
    · rw [List.nil_append, ofChars?_whole hw, ofUnsigned?_real false hw hf he hne]
    · exact ofUnsigned?_real true hw hf he hne

theorem Spelled.exists_cons {t : Token} (h : Spelled t cs) :
    ∃ c rest, cs = c :: rest ∧ (c.isDigit = true ∨ c = '-') := by
  have hfirst : ∀ {ds : List Char}, Whole ds → ∀ tail, ∃ c rest, ds ++ tail = c :: rest ∧
      (c.isDigit = true ∨ c = '-') := by
    intro ds hw tail
    obtain ⟨c, cs, rfl⟩ := List.exists_cons_of_ne_nil hw.digits_self.1
    exact ⟨c, cs ++ tail, rfl, .inl (hw.digits_self.2 c List.mem_cons_self)⟩
  cases h with
  | natural hw =>
    have h := hfirst hw []
    rwa [List.append_nil] at h
  | negative => exact ⟨_, _, rfl, .inr rfl⟩
  | minusZero => exact ⟨_, _, rfl, .inr rfl⟩
  | real hsign hw =>
    simp only [List.mem_cons, List.not_mem_nil, or_false] at hsign
    rcases hsign with rfl | rfl
    · exact hfirst hw _
    · exact ⟨_, _, rfl, .inr rfl⟩

end Numeral

namespace Scanner

open Numeral

theorem isNumeric_of_isDigit {c : Char} (h : c.isDigit = true) : isNumeric c = true := by
  rw [isNumeric, h]
  rfl

theorem isNumeric_of_digits {cs : List Char} (h : Digits cs) : ∀ c ∈ cs, isNumeric c = true :=
  fun c hc => isNumeric_of_isDigit (h.2 c hc)

theorem isNumeric_of_sign {sign : List Char} (h : sign ∈ [[], ['+'], ['-']]) :
    ∀ c ∈ sign, isNumeric c = true := by
  simp only [List.mem_cons, List.not_mem_nil, or_false] at h
  rcases h with rfl | rfl | rfl
  · exact List.forall_mem_nil _
  · exact List.forall_mem_singleton.2 rfl
  · exact List.forall_mem_singleton.2 rfl

theorem isNumeric_of_fraction {cs : List Char} (h : Fraction cs) :
    ∀ c ∈ cs, isNumeric c = true := by
  cases h with
  | absent => exact List.forall_mem_nil _
  | point h => exact List.forall_mem_cons.2 ⟨rfl, isNumeric_of_digits h⟩

theorem isNumeric_of_exponent {cs : List Char} (h : Exponent cs) :
    ∀ c ∈ cs, isNumeric c = true := by
  cases h with
  | absent => exact List.forall_mem_nil _
  | marked hmark hsign h =>
    have hrest := List.forall_mem_append.2 ⟨isNumeric_of_sign hsign, isNumeric_of_digits h⟩
    simp only [List.mem_cons, List.not_mem_nil, or_false] at hmark
    rcases hmark with rfl | rfl <;> exact List.forall_mem_cons.2 ⟨rfl, hrest⟩

theorem isNumeric_of_spelled {t : Token} {cs : List Char} (h : Numeral.Spelled t cs) :
    ∀ c ∈ cs, isNumeric c = true := by
  cases h with
  | natural hw => exact isNumeric_of_digits hw.digits_self
  | negative hw => exact List.forall_mem_cons.2 ⟨rfl, isNumeric_of_digits hw.digits_self⟩
  | minusZero => exact List.forall_mem_cons.2 ⟨rfl, List.forall_mem_singleton.2 rfl⟩
  | real hsign hw hf he =>
    have hsign := isNumeric_of_sign (List.cons_subset_cons _ (List.subset_cons_self _ _) hsign)
    have hwhole := isNumeric_of_digits hw.digits_self
    exact List.forall_mem_append.2 ⟨List.forall_mem_append.2 ⟨hsign, hwhole⟩,
      List.forall_mem_append.2 ⟨isNumeric_of_fraction hf, isNumeric_of_exponent he⟩⟩

theorem isLower_of_isDigit {c : Char} (h : c.isDigit = true) : c.isLower = false := by
  have hdigit : c.val ≤ '9'.val := of_decide_eq_true (Bool.and_eq_true_iff.1 h).2
  rw [Bool.eq_false_iff]
  intro hlower
  have hletter : 'a'.val ≤ c.val := of_decide_eq_true (Bool.and_eq_true_iff.1 hlower).1
  exact absurd (UInt32.le_trans hletter hdigit) (by decide)

theorem start_numeric {c : Char} (h : c.isDigit = true ∨ c = '-') :
    start found c = some ⟨found, .number [c]⟩ := by
  rcases h with h | rfl
  · have hlower := isLower_of_isDigit h
    have hne : ∀ d : Char, d.isDigit = false → c ≠ d := fun d => ne_of_isDigit h
    have hblank : isBlank c = false := by
      simp [isBlank, hne ' ' rfl, hne '\t' rfl, hne '\n' rfl, hne '\r' rfl]
    simp [start, hblank, hne '"' rfl, hlower, h]
  · rfl

theorem scan_numeric {cs : List Char} (hcs : ∀ c ∈ cs, isNumeric c = true) (run : List Char) :
    cs.foldlM feed ⟨found, .number run⟩ = some ⟨found, .number (cs.reverse ++ run)⟩ := by
  induction cs generalizing run with
  | nil => rfl
  | cons c cs ih =>
    obtain ⟨hc, hrest⟩ := List.forall_mem_cons.1 hcs
    have hfeed : feed ⟨found, .number run⟩ c = some ⟨found, .number (c :: run)⟩ := by
      simp only [feed, hc, if_true]
    rw [foldlM_cons_of_eq_some hfeed, ih hrest]
    simp

theorem scan_number {t : Token} {cs : List Char} (h : Numeral.Spelled t cs) :
    cs.foldlM feed ⟨found, .between⟩ = some ⟨found, .number cs.reverse⟩ := by
  have hnumeric := isNumeric_of_spelled h
  obtain ⟨c, cs, rfl, hc⟩ := h.exists_cons
  have hfeed : feed ⟨found, .between⟩ c = some ⟨found, .number [c]⟩ := start_numeric hc
  rw [foldlM_cons_of_eq_some hfeed, scan_numeric (List.forall_mem_cons.1 hnumeric).2,
    List.reverse_cons]

end Scanner

def Token.bare : Token → Bool
  | null | bool _ | int _ | real => true
  | _ => false

namespace Scanner

def Stops (c : Char) : Prop := c.isLower = false ∧ isNumeric c = false

/-- The scanner has found these tokens. If the last one is bare, it takes the end of the
text, or a character that stops it, to know. -/
structure Rests (s : Scanner) (bare : Bool) (found : List Token) : Prop where
  finish : s.finish = some found
  feed : ∀ c, (bare = true → Stops c) → s.feed c = start found c

section
variable {s : Scanner} {bare : Bool} {t : Token} {run cs : List Char}

theorem rests_between (bare : Bool) (found : List Token) :
    Rests ⟨found, .between⟩ bare found :=
  ⟨rfl, fun _ _ => rfl⟩

theorem rests_word (h : ofWord? run.reverse = some t) :
    Rests ⟨found, .word run⟩ true (t :: found) := by
  refine ⟨?_, fun c hc => ?_⟩
  · simp only [finish, h, Option.map_some]
  · simp only [Scanner.feed, (hc rfl).1, h, Option.bind_some, Bool.false_eq_true, if_false]

theorem rests_number (h : Numeral.ofChars? run.reverse = some t) :
    Rests ⟨found, .number run⟩ true (t :: found) := by
  refine ⟨?_, fun c hc => ?_⟩
  · simp only [finish, h, Option.map_some]
  · simp only [Scanner.feed, (hc rfl).2, h, Option.bind_some, Bool.false_eq_true, if_false]

theorem bare_of_number (h : Numeral.Spelled t cs) : t.bare = true := by
  cases h <;> rfl

theorem scan_token (h : t.Spelled cs) : ∃ s, cs.foldlM feed ⟨found, .between⟩ = some s ∧
    Rests s t.bare (t :: found) := by
  cases h with
  | fixed ht =>
    simp only [List.mem_cons, List.not_mem_nil, or_false] at ht
    rcases ht with rfl | rfl | rfl | rfl | rfl | rfl | rfl | rfl | rfl
    -- six marks, then three words
    iterate 6 exact ⟨_, rfl, rests_between _ _⟩
    iterate 3 exact ⟨_, rfl, rests_word (by decide)⟩
  | number hn =>
    rw [bare_of_number hn]
    refine ⟨_, scan_number hn, rests_number ?_⟩
    rw [List.reverse_reverse, hn.ofChars?_eq]
  | text hps hs =>
    have hscan := @scan_quoted found _ _ hps
    rw [hs.join_eq, Option.map_some, String.ofList_toList] at hscan
    exact ⟨_, hscan, rests_between _ _⟩
  | brokenText hps hs =>
    have hscan := @scan_quoted found _ _ hps
    rw [hps.join_eq_none hs, Option.map_none] at hscan
    exact ⟨_, hscan, rests_between _ _⟩

theorem exists_cons_of_spelled (h : t.Spelled cs) :
    ∃ c rest, cs = c :: rest ∧ (t.bare = false → Stops c) := by
  cases h with
  | fixed ht =>
    simp only [List.mem_cons, List.not_mem_nil, or_false] at ht
    rcases ht with rfl | rfl | rfl | rfl | rfl | rfl | rfl | rfl | rfl
    iterate 6 exact ⟨_, _, rfl, fun _ => ⟨rfl, rfl⟩⟩
    iterate 3 exact ⟨_, _, rfl, nofun⟩
  | number hn =>
    obtain ⟨c, rest, rfl, -⟩ := hn.exists_cons
    rw [bare_of_number hn]
    exact ⟨c, rest, rfl, nofun⟩
  | text | brokenText => exact ⟨_, _, rfl, fun _ => ⟨rfl, rfl⟩⟩

theorem Rests.scan_token (hs : Rests s bare found) (ht : bare = true → t.bare = false)
    (hcs : t.Spelled cs) :
    ∃ s', cs.foldlM Scanner.feed s = some s' ∧ Rests s' t.bare (t :: found) := by
  obtain ⟨s', hscan, hrests⟩ := @Scanner.scan_token found _ _ hcs
  obtain ⟨c, rest, rfl, hstops⟩ := exists_cons_of_spelled hcs
  refine ⟨s', ?_, hrests⟩
  rw [List.foldlM_cons] at hscan ⊢
  rw [hs.feed c fun hb => hstops (ht hb)]
  exact hscan

theorem Rests.scan_blanks (hs : Rests s bare found) (hcs : Blank cs) :
    ∃ s', cs.foldlM Scanner.feed s = some s' ∧ Rests s' bare found := by
  induction cs generalizing s with
  | nil => exact ⟨s, rfl, hs⟩
  | cons c cs ih =>
    obtain ⟨hc, hrest⟩ := List.forall_mem_cons.1 hcs
    have hstops : Stops c := by
      simp only [isBlank, Bool.or_eq_true, decide_eq_true_eq] at hc
      rcases hc with ((rfl | rfl) | rfl) | rfl <;> exact ⟨rfl, rfl⟩
    have hfeed : s.feed c = some ⟨found, .between⟩ := by
      rw [hs.feed c fun _ => hstops, start, if_pos hc]
    obtain ⟨s', hscan, hrests⟩ := ih (rests_between bare found) hrest
    exact ⟨s', (foldlM_cons_of_eq_some hfeed cs).trans hscan, hrests⟩

end

end Scanner

/-- Bare tokens have others between them; `bare` tells whether one stands before. -/
def Spaced (bare : Bool) : List Token → Prop
  | [] => True
  | t :: ts => (bare = true → t.bare = false) ∧ Spaced t.bare ts

theorem Scanner.Rests.scan_written {ts : List Token} {cs : List Char} {s : Scanner} {bare : Bool}
    (hs : s.Rests bare found) (hcs : Written ts cs) (hspaced : Spaced bare ts) :
    ∃ s', cs.foldlM Scanner.feed s = some s' ∧ s'.finish = some (ts.reverse ++ found) := by
  induction hcs generalizing s bare found with
  | nil hblank =>
    obtain ⟨s', hscan, hrests⟩ := hs.scan_blanks hblank
    exact ⟨s', hscan, hrests.finish⟩
  | cons hblank ht _ ih =>
    obtain ⟨s₁, hscan₁, hrests₁⟩ := hs.scan_blanks hblank
    obtain ⟨s₂, hscan₂, hrests₂⟩ := hrests₁.scan_token hspaced.1 ht
    obtain ⟨s₃, hscan₃, hfinish⟩ := ih hrests₂ hspaced.2
    refine ⟨s₃, ?_, ?_⟩
    · rw [foldlM_append_of_eq_some hscan₁, foldlM_append_of_eq_some hscan₂, hscan₃]
    · rw [hfinish, List.reverse_cons, List.append_assoc]
      rfl

theorem scan_written {ts : List Token} {cs : List Char} (hcs : Written ts cs)
    (hspaced : Spaced false ts) : scan cs = some ts := by
  obtain ⟨s, hscan, hfinish⟩ := (Scanner.rests_between false []).scan_written hcs hspaced
  rw [scan, hscan, Option.bind_some, hfinish, List.append_nil, Option.map_some,
    List.reverse_reverse]

end ArgumentMap.Json
