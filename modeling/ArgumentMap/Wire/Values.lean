import ArgumentMap.Gesture
import ArgumentMap.Json.Fields
import ArgumentMap.Json.Layout
import ArgumentMap.Json.Parse
import ArgumentMap.Snapshot

/-! The written form of bodies, cards and snapshots, of tools and of the settings. -/

namespace ArgumentMap

namespace Scalar

def toJson : Scalar → Json
  | text s => .string s
  | int i => .int i.toInt
  | bool b => .bool b
  | null => .null

/-- Integers outside 64 bits, and numbers that are no integers, are no values of a body. -/
def ofJson? : Json → Option Scalar
  | .text (some s) => some (text s)
  | .int i => if i = (Int64.ofInt i).toInt then some (int (Int64.ofInt i)) else none
  | .bool b => some (bool b)
  | .null => some null
  | _ => none

end Scalar

namespace Body

def toJson (b : Body) : Json := .record (b.entries.map fun e => (e.1, e.2.toJson))

/-- Every value must be one of a body, also one that a later value of that name replaces. -/
def ofJson? (v : Json) : Option Body := do
  let members ← v.members?
  let entries ← members.mapM fun m => (Scalar.ofJson? m.2).map (m.1, ·)
  return ofList entries

def toText (b : Body) : String := b.toJson.compact

end Body

def NodeId.toJson (id : NodeId) : Json := .string id.text

def NodeId.ofJson? (v : Json) : Option NodeId := v.string?.map NodeId.mk

def Role.toJson (r : Role) : Json := .string r.name

def Role.ofJson? (v : Json) : Option Role := v.choice?.bind Role.ofName?

def Uuid.toJson (u : Uuid) : Json := .string u.toText

def Uuid.ofJson? (v : Json) : Option Uuid := v.string?.bind Uuid.ofText?

namespace Snapshot

namespace Card

def fieldNames : List String := ["id", "stableId", "type", "body"]

def toJson (c : Card) : Json := .record [
  ("id", c.id.toJson),
  ("stableId", .optional Uuid.toJson c.stableId),
  ("type", c.role.toJson),
  ("body", c.body.toJson)]

def ofJson? (v : Json) : Option Card := do
  match ← v.fields? fieldNames with
  | [id, stableId, role, body] =>
    return {
      id := ← Json.required NodeId.ofJson? id
      stableId := ← Json.withDefault none (Json.nullable Uuid.ofJson?) stableId
      role := ← Json.required Role.ofJson? role
      body := ← Json.withDefault .empty Body.ofJson? body }
  | _ => none

end Card

namespace Edge

def fieldNames : List String := ["parent", "child"]

def toJson (e : Edge) : Json := .record [("parent", e.parent.toJson), ("child", e.child.toJson)]

def ofJson? (v : Json) : Option Edge := do
  match ← v.fields? fieldNames with
  | [parent, child] =>
    return {
      parent := ← Json.required NodeId.ofJson? parent
      child := ← Json.required NodeId.ofJson? child }
  | _ => none

end Edge

def fieldNames : List String := ["rootId", "nodes", "edges"]

def toJson (s : Snapshot) : Json := .record [
  ("rootId", .optional NodeId.toJson s.root),
  ("nodes", .array (s.cards.map Card.toJson)),
  ("edges", .array (s.edges.map Edge.toJson))]

def ofJson? (v : Json) : Option Snapshot := do
  match ← v.fields? fieldNames with
  | [root, cards, edges] =>
    return {
      root := ← Json.withDefault none (Json.nullable NodeId.ofJson?) root
      cards := ← Json.withDefault [] (fun v => v.items?.bind (·.mapM Card.ofJson?)) cards
      edges := ← Json.withDefault [] (fun v => v.items?.bind (·.mapM Edge.ofJson?)) edges }
  | _ => none

def toText (s : Snapshot) : String := s.toJson.compact

def ofText? (text : String) : Except Failure Snapshot :=
  match (Json.parse? text).bind ofJson? with
  | some s => .ok s
  | none => .error .malformedSnapshot

end Snapshot

namespace Config

def fieldNames : List String :=
  ["sketch_id_prefix", "reset_on_persisted_parent", "flip_reverse_edges"]

def toJson (c : Config) : Json := .record [
  ("sketch_id_prefix", .string c.idStem),
  ("reset_on_persisted_parent", .bool c.resetOnPersistedParent),
  ("flip_reverse_edges", .bool c.flipReverseEdges)]

/-- What is left out has its usual setting. -/
def ofJson? (v : Json) : Option Config := do
  match ← v.fields? fieldNames with
  | [stem, reset, flip] =>
    return {
      idStem := ← Json.withDefault "sketch-" Json.string? stem
      resetOnPersistedParent := ← Json.withDefault true Json.bool? reset
      flipReverseEdges := ← Json.withDefault true Json.bool? flip }
  | _ => none

def toText (c : Config) : String := c.toJson.compact

def ofText? (text : String) : Except Failure Config :=
  match (Json.parse? text).bind ofJson? with
  | some c => .ok c
  | none => .error .malformedConfig

end Config

namespace Tool

def toJson (t : Tool) : Json := .string t.name

def ofJson? (v : Json) : Option Tool := v.choice?.bind Tool.ofName?

end Tool

end ArgumentMap
