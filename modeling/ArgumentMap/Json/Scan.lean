import ArgumentMap.Json.Basic

/-! Cutting a text into tokens, one character at a time. The syntax is the strict one: four
blanks, no leading zeros, no controls inside strings, and only the escapes of the format. -/

namespace ArgumentMap.Json

/-- A piece of a string as it is written: a character, or the number behind `\u`. -/
inductive Piece
  | char (c : Char)
  | unit (n : Nat)
  deriving DecidableEq

namespace Piece

def pair (high low : Nat) : Char := Char.ofNat (0x10000 + (high - 0xD800) * 0x400 + (low - 0xDC00))

/-- The characters that the pieces stand for. Half a surrogate pair stands for none. -/
def join : List Piece → Option (List Char)
  | [] => some []
  | char c :: rest => (join rest).map (c :: ·)
  | unit n :: rest =>
    if 0xD800 ≤ n ∧ n < 0xDC00 then
      match rest with
      | unit m :: rest =>
        if 0xDC00 ≤ m ∧ m < 0xE000 then (join rest).map (pair n m :: ·) else none
      | _ => none
    else if 0xDC00 ≤ n ∧ n < 0xE000 then none
    else (join rest).map (Char.ofNat n :: ·)

def ofEscape? (c : Char) : Option Piece :=
  if c = '"' then some (char '"')
  else if c = '\\' then some (char '\\')
  else if c = '/' then some (char '/')
  else if c = 'b' then some (char '\x08')
  else if c = 'f' then some (char '\x0c')
  else if c = 'n' then some (char '\n')
  else if c = 'r' then some (char '\r')
  else if c = 't' then some (char '\t')
  else none

end Piece

def hexValue? (c : Char) : Option Nat :=
  if c.isDigit then some (c.toNat - '0'.toNat)
  else if 'a' ≤ c ∧ c ≤ 'f' then some (c.toNat - 'a'.toNat + 10)
  else if 'A' ≤ c ∧ c ≤ 'F' then some (c.toNat - 'A'.toNat + 10)
  else none

namespace Numeral

def isDigits (cs : List Char) : Bool := !cs.isEmpty && cs.all Char.isDigit

def isExponent (cs : List Char) : Bool :=
  match cs with
  | '+' :: rest => isDigits rest
  | '-' :: rest => isDigits rest
  | _ => isDigits cs

def isExponentMark (c : Char) : Bool := c = 'e' || c = 'E'

/-- What may follow the whole part of a number that is no integer: a fraction, an exponent, or the
one and then the other. -/
def isTail (cs : List Char) : Bool :=
  match cs with
  | [] => false
  | c :: rest =>
    if c = '.' then
      isDigits (rest.takeWhile (!isExponentMark ·)) &&
        match rest.dropWhile (!isExponentMark ·) with
        | [] => true
        | _ :: exponent => isExponent exponent
    else isExponentMark c && isExponent rest

def isWhole : List Char → Bool
  | [] => false
  | '0' :: rest => rest.isEmpty
  | _ => true

def ofUnsigned? (negative : Bool) (cs : List Char) : Option Token :=
  let whole := cs.takeWhile Char.isDigit
  let tail := cs.dropWhile Char.isDigit
  let n := Nat.ofDigitChars 10 whole 0
  if !isWhole whole then none
  else if tail ≠ [] then if isTail tail then some .real else none
  else if negative then some (if n = 0 then .real else .int (-n))
  else some (.int n)

def ofChars? : List Char → Option Token
  | '-' :: rest => ofUnsigned? true rest
  | cs => ofUnsigned? false cs

end Numeral

def ofWord? (cs : List Char) : Option Token :=
  [Token.null, .bool true, .bool false].find? (·.spell = cs)

/-- What the scanner is in the middle of; runs are kept newest character first. -/
inductive Mode
  | between
  | word (run : List Char)
  | number (run : List Char)
  | quoted (pieces : List Piece)
  | escaped (pieces : List Piece)
  | coded (pieces : List Piece) (digits : Nat) (value : Nat)

structure Scanner where
  found : List Token := []
  mode : Mode := .between

namespace Scanner

def isBlank (c : Char) : Bool := c = ' ' || c = '\t' || c = '\n' || c = '\r'

def isNumeric (c : Char) : Bool :=
  c.isDigit || c = '-' || c = '+' || c = '.' || c = 'e' || c = 'E'

def mark? (c : Char) : Option Token :=
  [Token.openArray, .closeArray, .openObject, .closeObject, .comma, .colon].find? (·.spell = [c])

def start (found : List Token) (c : Char) : Option Scanner :=
  if isBlank c then some { found := found }
  else if c = '"' then some { found := found, mode := .quoted [] }
  else if c.isLower then some { found := found, mode := .word [c] }
  else if c.isDigit || c = '-' then some { found := found, mode := .number [c] }
  else (mark? c).map fun t => { found := t :: found }

def feed (s : Scanner) (c : Char) : Option Scanner :=
  match s.mode with
  | .between => start s.found c
  | .word run =>
    if c.isLower then some { s with mode := .word (c :: run) }
    else (ofWord? run.reverse).bind fun t => start (t :: s.found) c
  | .number run =>
    if isNumeric c then some { s with mode := .number (c :: run) }
    else (Numeral.ofChars? run.reverse).bind fun t => start (t :: s.found) c
  | .quoted pieces =>
    if c = '"' then
      some { found := .text ((Piece.join pieces.reverse).map String.ofList) :: s.found }
    else if c = '\\' then some { s with mode := .escaped pieces }
    else if c.toNat < 32 then none
    else some { s with mode := .quoted (.char c :: pieces) }
  | .escaped pieces =>
    if c = 'u' then some { s with mode := .coded pieces 0 0 }
    else (Piece.ofEscape? c).map fun p => { s with mode := .quoted (p :: pieces) }
  | .coded pieces digits value =>
    (hexValue? c).map fun d =>
      if digits = 3 then { s with mode := .quoted (.unit (16 * value + d) :: pieces) }
      else { s with mode := .coded pieces (digits + 1) (16 * value + d) }

def finish (s : Scanner) : Option (List Token) :=
  match s.mode with
  | .between => some s.found
  | .word run => (ofWord? run.reverse).map (· :: s.found)
  | .number run => (Numeral.ofChars? run.reverse).map (· :: s.found)
  | _ => none

end Scanner

def scan (cs : List Char) : Option (List Token) :=
  ((cs.foldlM Scanner.feed {}).bind Scanner.finish).map List.reverse

end ArgumentMap.Json
