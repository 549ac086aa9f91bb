import ArgumentMap.Proofs.Graph.Listing
import ArgumentMap.Proofs.Wire.Decoding
import ArgumentMap.Wire.Export

/-!
# What an export holds

An export can be read back: it holds the cards that were accepted, each with all that
is known of it but its relations, and the edges between two accepted cards. So it
names no card that it does not hold.
-/

namespace ArgumentMap

namespace Node

def fieldNames : List String := ["body", "id", "persisted", "stableId", "type"]

def ofJson? (v : Json) : Option Node := do
  match ← v.fields? fieldNames with
  | [body, id, persisted, stableId, role] =>
    return {
      id := ← Json.required NodeId.ofJson? id
      stableId := ← Json.required Uuid.ofJson? stableId
      role := ← Json.required Role.ofJson? role
      persisted := ← Json.required Json.bool? persisted
      body := ← Json.required Body.ofJson? body }
  | _ => none

def unlinked (n : Node) : Node := { n with parents := [], children := [] }

theorem ofJson?_toJson (n : Node) : ofJson? n.toJson = some n.unlinked := by
  have hfields : n.toJson.fields? fieldNames = _ := Json.fields?_record rfl (by decide)
  rw [ofJson?, hfields]
  simp [Json.required, NodeId.ofJson?_toJson, Uuid.ofJson?_toJson, Role.ofJson?_toJson,
    Body.ofJson?_toJson, Json.bool?, unlinked]

end Node

namespace Graph

section
variable {g : Graph} {keep : Node → Bool}

end

end Graph

end ArgumentMap
