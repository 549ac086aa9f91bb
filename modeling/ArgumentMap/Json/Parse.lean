import ArgumentMap.Json.Basic
import ArgumentMap.Json.Scan

/-! Building a value from its tokens. The reader keeps a stack of the containers that are open, so
the depth of a value is not limited. -/

namespace ArgumentMap.Json

abbrev Member := Option String × Json

/-- An open container with what it holds so far, newest first; `member` is an object in which a name
waits for its value. -/
inductive Frame
  | array (items : List Json)
  | object (members : List Member)
  | member (members : List Member) (name : Option String)

/-- What may come next: a value; a value or the end of an empty array; a name; a name or the end of
an empty object; a colon; what follows an item; or nothing, after the whole value. -/
inductive Awaited
  | value
  | firstItem
  | name
  | firstName
  | colon
  | next
  | done (v : Json)

structure Cursor where
  stack : List Frame := []
  awaited : Awaited := .value

namespace Cursor

def complete (v : Json) : List Frame → Option Cursor
  | [] => some ⟨[], .done v⟩
  | .array items :: rest => some ⟨.array (v :: items) :: rest, .next⟩
  | .member members name :: rest => some ⟨.object ((name, v) :: members) :: rest, .next⟩
  | .object _ :: _ => none

def begin (stack : List Frame) : Token → Option Cursor
  | .null => complete .null stack
  | .bool b => complete (.bool b) stack
  | .int i => complete (.int i) stack
  | .real => complete .real stack
  | .text s => complete (.text s) stack
  | .openArray => some ⟨.array [] :: stack, .firstItem⟩
  | .openObject => some ⟨.object [] :: stack, .firstName⟩
  | _ => none

def close : List Frame → Token → Option Cursor
  | .array items :: rest, .closeArray => complete (.array items.reverse) rest
  | .object members :: rest, .closeObject => complete (.object members.reverse) rest
  | _, _ => none

def nameMember : List Frame → Token → Option Cursor
  | .object members :: rest, .text name => some ⟨.member members name :: rest, .colon⟩
  | _, _ => none

def step (c : Cursor) (t : Token) : Option Cursor :=
  match c.awaited with
  | .value => begin c.stack t
  | .firstItem => if t = .closeArray then close c.stack t else begin c.stack t
  | .name => nameMember c.stack t
  | .firstName => if t = .closeObject then close c.stack t else nameMember c.stack t
  | .colon => if t = .colon then some { c with awaited := .value } else none
  | .next =>
    match t, c.stack with
    | .comma, .array _ :: _ => some { c with awaited := .value }
    | .comma, .object _ :: _ => some { c with awaited := .name }
    | _, stack => close stack t
  | .done _ => none

def result? (c : Cursor) : Option Json :=
  match c.awaited with
  | .done v => some v
  | _ => none

end Cursor

def ofTokens? (ts : List Token) : Option Json := (ts.foldlM Cursor.step {}).bind Cursor.result?

def parse? (text : String) : Option Json := (scan text.toList).bind ofTokens?

end ArgumentMap.Json
