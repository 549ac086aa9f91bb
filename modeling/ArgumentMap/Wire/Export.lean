import ArgumentMap.Graph.Basic
import ArgumentMap.Wire.Values

/-! What is only written: events, notices and faults, and exports of a graph, or of some of its
cards with the links between the cards that are exported. -/

namespace ArgumentMap

def Notice.members : Notice → List (String × Json)
  | typeChanged node before after =>
    [("kind", .string "type_changed"), ("node", node.toJson), ("from", before.toJson),
      ("to", after.toJson)]
  | nodesDetached node detached =>
    [("kind", .string "nodes_detached"), ("node", node.toJson),
      ("detached", .array (detached.map NodeId.toJson))]
  | rejected reason => [("kind", .string "rejected"), ("reason", .string reason.name)]

def Event.members : Event → List (String × Json)
  | nodeAdded parent node => [("parent", .optional NodeId.toJson parent), ("node", node.toJson)]
  | edgeAdded parent child | edgeRemoved parent child =>
    [("parent", parent.toJson), ("child", child.toJson)]
  | nodeHighlighted node => [("node", node.toJson)]
  | graphLoaded root => [("root", .optional NodeId.toJson root)]
  | notice n => n.members

def Notice.toJson (n : Notice) : Json := .record n.members

def Event.toJson (e : Event) : Json := .record (("topic", .string e.topic.name) :: e.members)

def Fault.toJson : Fault → Json
  | selfLoop node => .record [("kind", .string "self_loop"), ("node", node.toJson)]
  | asymmetricEdge parent child =>
    .record [("kind", .string "asymmetric_edge"), ("parent", parent.toJson),
      ("child", child.toJson)]
  | overfullInterpretation node children =>
    .record [("kind", .string "overfull_interpretation"), ("node", node.toJson),
      ("children", .int children)]

def Node.toJson (n : Node) : Json := .record [
  ("body", n.body.toJson),
  ("id", n.id.toJson),
  ("persisted", .bool n.persisted),
  ("stableId", n.stableId.toJson),
  ("type", n.role.toJson)]

namespace Graph

def keptNodes (keep : Node → Bool) (g : Graph) : List Node := g.nodes.filter keep

/-- The edges between two cards that are kept. -/
def keptEdges (keep : Node → Bool) (g : Graph) : List (NodeId × NodeId) :=
  let ids := (g.keptNodes keep).map (·.id)
  g.edges.filter fun e => e.1 ∈ ids ∧ e.2 ∈ ids

def linkJson (e : NodeId × NodeId) : Json :=
  .record [("source", e.1.toJson), ("target", e.2.toJson)]

def exportJson (keep : Node → Bool) (g : Graph) : Json := .record [
  ("links", .array ((g.keptEdges keep).map linkJson)),
  ("nodes", .array ((g.keptNodes keep).map Node.toJson))]

def exportText (keep : Node → Bool) (g : Graph) : String := (g.exportJson keep).pretty

end Graph

end ArgumentMap
