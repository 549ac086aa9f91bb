import ArgumentMap.Json.Basic

/-! Writing a value: without blanks, or with one item a line and two blanks for each level. Both
layouts have the same tokens. -/

namespace ArgumentMap.Json

/-- A token behind the blanks that separate it from the one before. -/
structure Placed where
  blanks : List Char := []
  token : Token
  deriving DecidableEq

def separate {α : Type} (comma : α) : List (List α) → List α
  | [] => []
  | first :: rest => first ++ rest.flatMap (comma :: ·)

mutual

def tokens : Json → List Token
  | null => [.null]
  | bool b => [.bool b]
  | int i => [.int i]
  | real => [.real]
  | text s => [.text s]
  | array items => .openArray :: separate .comma (itemTokens items) ++ [.closeArray]
  | object members => .openObject :: separate .comma (memberTokens members) ++ [.closeObject]

def itemTokens : List Json → List (List Token)
  | [] => []
  | v :: rest => tokens v :: itemTokens rest

def memberTokens : List (Option String × Json) → List (List Token)
  | [] => []
  | (name, v) :: rest => (.text name :: .colon :: tokens v) :: memberTokens rest

end

def newline (depth : Nat) : List Char := '\n' :: List.replicate (2 * depth) ' '

mutual

/-- The value at the given level, with `lead` before its first token. -/
def place (depth : Nat) (lead : List Char) : Json → List Placed
  | null => [⟨lead, .null⟩]
  | bool b => [⟨lead, .bool b⟩]
  | int i => [⟨lead, .int i⟩]
  | real => [⟨lead, .real⟩]
  | text s => [⟨lead, .text s⟩]
  | array items =>
    ⟨lead, .openArray⟩ :: separate ⟨[], .comma⟩ (placeItems (depth + 1) items) ++
      [⟨if items.isEmpty then [] else newline depth, .closeArray⟩]
  | object members =>
    ⟨lead, .openObject⟩ :: separate ⟨[], .comma⟩ (placeMembers (depth + 1) members) ++
      [⟨if members.isEmpty then [] else newline depth, .closeObject⟩]

def placeItems (depth : Nat) : List Json → List (List Placed)
  | [] => []
  | v :: rest => place depth (newline depth) v :: placeItems depth rest

def placeMembers (depth : Nat) : List (Option String × Json) → List (List Placed)
  | [] => []
  | (name, v) :: rest =>
    (⟨newline depth, .text name⟩ :: ⟨[], .colon⟩ :: place depth [' '] v) ::
      placeMembers depth rest

end

def compact (v : Json) : String := String.ofList (v.tokens.flatMap Token.spell)

def write (ps : List Placed) : List Char := ps.flatMap fun p => p.blanks ++ p.token.spell

def pretty (v : Json) : String := String.ofList (write (place 0 [] v))

end ArgumentMap.Json
