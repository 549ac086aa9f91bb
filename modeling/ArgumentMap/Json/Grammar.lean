import ArgumentMap.Json.Layout
import ArgumentMap.Json.Scan

/-! The strict syntax of a text, as a grammar: every way to spell a token, and every way to write
tokens down with blanks between them. -/

namespace ArgumentMap.Json

namespace Numeral

def Digits (cs : List Char) : Prop := cs ≠ [] ∧ ∀ c ∈ cs, c.isDigit = true

inductive Whole : List Char → Prop
  | zero : Whole ['0']
  | digits {c : Char} {cs : List Char} : Digits (c :: cs) → c ≠ '0' → Whole (c :: cs)

inductive Fraction : List Char → Prop
  | absent : Fraction []
  | point {cs : List Char} : Digits cs → Fraction ('.' :: cs)

inductive Exponent : List Char → Prop
  | absent : Exponent []
  | marked {mark : Char} {sign cs : List Char} : mark ∈ ['e', 'E'] → sign ∈ [[], ['+'], ['-']] →
      Digits cs → Exponent (mark :: (sign ++ cs))

inductive Spelled : Token → List Char → Prop
  | natural {ds : List Char} : Whole ds → Spelled (.int (Nat.ofDigitChars 10 ds 0)) ds
  | negative {ds : List Char} : Whole ds → ds ≠ ['0'] →
      Spelled (.int (-(Nat.ofDigitChars 10 ds 0))) ('-' :: ds)
  | minusZero : Spelled .real ['-', '0']
  | real {sign ds fraction exponent : List Char} : sign ∈ [[], ['-']] → Whole ds →
      Fraction fraction → Exponent exponent → fraction ++ exponent ≠ [] →
      Spelled .real (sign ++ ds ++ (fraction ++ exponent))

end Numeral

namespace Piece

def escapes : List (Char × Char) :=
  [('"', '"'), ('\\', '\\'), ('/', '/'), ('b', '\x08'), ('f', '\x0c'), ('n', '\n'), ('r', '\r'),
    ('t', '\t')]

inductive Spelled : Piece → List Char → Prop
  | plain {c : Char} : 32 ≤ c.toNat → c ≠ '"' → c ≠ '\\' → Spelled (.char c) [c]
  | escape {letter c : Char} : (letter, c) ∈ escapes → Spelled (.char c) ['\\', letter]
  | unit {a b c d : Char} {i j k l : Nat} : hexValue? a = some i → hexValue? b = some j →
      hexValue? c = some k → hexValue? d = some l →
      Spelled (.unit (4096 * i + 256 * j + 16 * k + l)) ['\\', 'u', a, b, c, d]

inductive Spelling : List Piece → List Char → Prop
  | nil : Spelling [] []
  | cons {p : Piece} {ps : List Piece} {as bs : List Char} :
      p.Spelled as → Spelling ps bs → Spelling (p :: ps) (as ++ bs)

/-- The characters that pieces stand for. A number is that of a character, or the high half of a
surrogate pair whose low half comes next. -/
inductive Denotes : List Piece → List Char → Prop
  | nil : Denotes [] []
  | char {c : Char} {ps : List Piece} {cs : List Char} :
      Denotes ps cs → Denotes (.char c :: ps) (c :: cs)
  | unit {c : Char} {ps : List Piece} {cs : List Char} :
      Denotes ps cs → Denotes (.unit c.toNat :: ps) (c :: cs)
  | pair {high low : Nat} {c : Char} {ps : List Piece} {cs : List Char} :
      0xD800 ≤ high → high < 0xDC00 → 0xDC00 ≤ low → low < 0xE000 →
      c.toNat = 0x10000 + (high - 0xD800) * 0x400 + (low - 0xDC00) →
      Denotes ps cs → Denotes (.unit high :: .unit low :: ps) (c :: cs)

end Piece

inductive Token.Spelled : Token → List Char → Prop
  | fixed {t : Token} : t ∈ [openArray, closeArray, openObject, closeObject, comma, colon, null,
      bool true, bool false] → Spelled t t.spell
  | number {t : Token} {cs : List Char} : Numeral.Spelled t cs → Spelled t cs
  | text {ps : List Piece} {cs : List Char} {s : String} : Piece.Spelling ps cs →
      Piece.Denotes ps s.toList → Spelled (text (some s)) ('"' :: (cs ++ ['"']))
  | brokenText {ps : List Piece} {cs : List Char} : Piece.Spelling ps cs →
      (∀ s, ¬ Piece.Denotes ps s) → Spelled (text none) ('"' :: (cs ++ ['"']))

def Scanner.Blank (cs : List Char) : Prop := ∀ c ∈ cs, isBlank c = true

/-- Some spelling of each token in their order, with blanks or not before each and at the end. -/
inductive Written : List Token → List Char → Prop
  | nil {blanks : List Char} : Scanner.Blank blanks → Written [] blanks
  | cons {blanks cs rest : List Char} {t : Token} {ts : List Token} :
      Scanner.Blank blanks → t.Spelled cs → Written ts rest →
      Written (t :: ts) (blanks ++ (cs ++ rest))

def WrittenAs (v : Json) (text : String) : Prop := Written v.tokens text.toList

end ArgumentMap.Json
