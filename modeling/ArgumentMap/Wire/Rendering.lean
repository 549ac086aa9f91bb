import ArgumentMap.Json.Fields
import ArgumentMap.Json.Grammar
import ArgumentMap.Wire.Values
import Mathlib.Data.List.Forall2

/-! All renderings of snapshots and settings as values of the data format, and the values that are
flawed, whatever else is in them. -/

namespace ArgumentMap

def Body.RenderedAs (b : Body) (v : Json) : Prop :=
  ∃ entries : List Entry, entries.Perm b.entries ∧
    v = .record (entries.map fun e => (e.1, e.2.toJson))

namespace Config

def fields (c : Config) : List Json.Field := [
  ⟨"sketch_id_prefix", (· = .string c.idStem), c.idStem = ({} : Config).idStem⟩,
  ⟨"reset_on_persisted_parent", (· = .bool c.resetOnPersistedParent),
    c.resetOnPersistedParent = ({} : Config).resetOnPersistedParent⟩,
  ⟨"flip_reverse_edges", (· = .bool c.flipReverseEdges),
    c.flipReverseEdges = ({} : Config).flipReverseEdges⟩]

def RenderedAs (c : Config) (v : Json) : Prop := Json.Arranged c.fields v

def Flawed (v : Json) : Prop := Json.Flawed fieldNames [] v

end Config

namespace Snapshot

namespace Card

def fields (c : Card) : List Json.Field := [
  ⟨"id", (· = c.id.toJson), False⟩,
  ⟨"stableId", (· = .optional Uuid.toJson c.stableId), c.stableId = none⟩,
  ⟨"type", (· = c.role.toJson), False⟩,
  ⟨"body", c.body.RenderedAs, c.body = .empty⟩]

def RenderedAs (c : Card) (v : Json) : Prop := Json.Arranged c.fields v

def Flawed (v : Json) : Prop := Json.Flawed fieldNames ["id", "type"] v

end Card

namespace Edge

def fields (e : Edge) : List Json.Field :=
  [⟨"parent", (· = e.parent.toJson), False⟩, ⟨"child", (· = e.child.toJson), False⟩]

def RenderedAs (e : Edge) (v : Json) : Prop := Json.Arranged e.fields v

def Flawed (v : Json) : Prop := Json.Flawed fieldNames ["parent", "child"] v

end Edge

def fields (s : Snapshot) : List Json.Field := [
  ⟨"rootId", (· = .optional NodeId.toJson s.root), s.root = none⟩,
  ⟨"nodes", fun v => ∃ items, v = .array items ∧ List.Forall₂ Card.RenderedAs s.cards items,
    s.cards = []⟩,
  ⟨"edges", fun v => ∃ items, v = .array items ∧ List.Forall₂ Edge.RenderedAs s.edges items,
    s.edges = []⟩]

def RenderedAs (s : Snapshot) (v : Json) : Prop := Json.Arranged s.fields v

def FlawedItem (name : String) (Flawed : Json → Prop) (v : Json) : Prop :=
  ∃ members items, v = .object members ∧ (some name, .array items) ∈ members ∧
    ∃ item ∈ items, Flawed item

def Flawed (v : Json) : Prop :=
  Json.Flawed fieldNames [] v ∨ FlawedItem "nodes" Card.Flawed v ∨ FlawedItem "edges" Edge.Flawed v

end Snapshot

end ArgumentMap
