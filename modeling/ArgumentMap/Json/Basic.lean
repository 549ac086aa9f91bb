/-! Values of the data format, and the tokens that a text of it consists of. A number is kept only
if it is an integer, and a string only if its escapes make characters: nothing that is stored here
is of any other kind, but a text may still hold such a value where it is skipped. -/

namespace ArgumentMap

/-- A `real` stands for any number with a fraction, an exponent or a minus before zero. `text none`
stands for a string with half of a surrogate pair in it. -/
inductive Json
  | null
  | bool (b : Bool)
  | int (i : Int)
  | real
  | text (s : Option String)
  | array (items : List Json)
  | object (members : List (Option String × Json))

namespace Json

def string (s : String) : Json := text (some s)

def record (members : List (String × Json)) : Json :=
  object (members.map fun m => (some m.1, m.2))

def optional {α : Type} (f : α → Json) : Option α → Json
  | some a => f a
  | none => null

def string? : Json → Option String
  | text s => s
  | _ => none

def bool? : Json → Option Bool
  | bool b => some b
  | _ => none

def items? : Json → Option (List Json)
  | array items => some items
  | _ => none

def members? : Json → Option (List (String × Json))
  | object members => members.mapM fun m => m.1.map (·, m.2)
  | _ => none

inductive Token
  | openArray
  | closeArray
  | openObject
  | closeObject
  | comma
  | colon
  | null
  | bool (b : Bool)
  | int (i : Int)
  | real
  | text (s : Option String)
  deriving DecidableEq

namespace Token

def hex4 (n : Nat) : List Char :=
  [n / 4096 % 16, n / 256 % 16, n / 16 % 16, n % 16].map Nat.digitChar

/-- Quotes, backslashes and controls are escaped, by a letter where there is one. -/
def escape (c : Char) : List Char :=
  if c = '"' then ['\\', '"']
  else if c = '\\' then ['\\', '\\']
  else if c = '\x08' then ['\\', 'b']
  else if c = '\x0c' then ['\\', 'f']
  else if c = '\n' then ['\\', 'n']
  else if c = '\r' then ['\\', 'r']
  else if c = '\t' then ['\\', 't']
  else if c.toNat < 32 then '\\' :: 'u' :: hex4 c.toNat
  else [c]

def quote (cs : List Char) : List Char := '"' :: cs.flatMap escape ++ ['"']

def spellInt : Int → List Char
  | .ofNat n => Nat.toDigits 10 n
  | .negSucc n => '-' :: Nat.toDigits 10 (n + 1)

/-- The spelling of a token. Of the numbers that are not kept the shortest one is written, and of
the strings that cannot be read one that is half a surrogate pair. -/
def spell : Token → List Char
  | openArray => ['[']
  | closeArray => [']']
  | openObject => ['\x7b']
  | closeObject => ['\x7d']
  | comma => [',']
  | colon => [':']
  | null => "null".toList
  | bool true => "true".toList
  | bool false => "false".toList
  | int i => spellInt i
  | real => "-0".toList
  | text (some s) => quote s.toList
  | text none => "\"\\ud800\"".toList

end Token

end Json

end ArgumentMap
