/-! Universally unique identifiers as 32 hexadecimal digits. Four spellings are read, in any letter
case; one is written: lower case, with hyphens after the digits 8, 12, 16 and 20. -/

namespace ArgumentMap

structure Uuid where
  digits : List (Fin 16)
  length_digits : digits.length = 32
  deriving DecidableEq

namespace Uuid

def nil : Uuid := ⟨List.replicate 32 0, rfl⟩

def hexDigit? (c : Char) : Option (Fin 16) :=
  "0123456789abcdef".toList.finIdxOf? c.toLower |>.map fun i => ⟨i.1, i.2⟩

def hexChar (d : Fin 16) : Char := "0123456789abcdef".toList[d.1]

def hyphenate (cs : List Char) : List Char :=
  cs.take 8 ++ '-' :: (cs.drop 8).take 4 ++ '-' :: (cs.drop 12).take 4 ++
    '-' :: (cs.drop 16).take 4 ++ '-' :: cs.drop 20

def toText (u : Uuid) : String := String.ofList (hyphenate (u.digits.map hexChar))

def ofDigits? (cs : List Char) : Option Uuid :=
  match cs.mapM hexDigit? with
  | some ds => if h : ds.length = 32 then some ⟨ds, h⟩ else none
  | none => none

def ofGroups? (cs : List Char) : Option Uuid :=
  let bare := cs.filter (· ≠ '-')
  if hyphenate bare = cs then ofDigits? bare else none

/-- The text without the name of its namespace, if it starts with one, in any letter case. -/
def dropUrn? (cs : List Char) : Option (List Char) :=
  if (cs.take 9).map Char.toLower = "urn:uuid:".toList then some (cs.drop 9) else none

/-- Reads 32 digits, or the groups alone, in braces, or after `urn:uuid:`. -/
def ofText? (text : String) : Option Uuid :=
  let cs := text.toList
  match cs with
  | '\x7b' :: rest =>
    if rest.getLast? = some '\x7d' then ofGroups? rest.dropLast else none
  | _ =>
    match dropUrn? cs with
    | some rest => ofGroups? rest
    | none => if cs.length = 32 then ofDigits? cs else ofGroups? cs

end Uuid

end ArgumentMap
