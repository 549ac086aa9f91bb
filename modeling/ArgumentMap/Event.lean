import ArgumentMap.Node

/-! What is announced while a graph is edited, by topic, the words shown to the user, and why an
edit fails. -/

namespace ArgumentMap

inductive Topic
  | nodeAdded
  | edgeAdded
  | edgeRemoved
  | nodeHighlighted
  | graphLoaded
  | notice
  deriving DecidableEq

namespace Topic

def all : List Topic := [nodeAdded, edgeAdded, edgeRemoved, nodeHighlighted, graphLoaded, notice]

def name : Topic → String
  | nodeAdded => "nodeAdded"
  | edgeAdded => "edgeAdded"
  | edgeRemoved => "edgeRemoved"
  | nodeHighlighted => "nodeHighlighted"
  | graphLoaded => "graphLoaded"
  | notice => "notice"

def ofName? (text : String) : Option Topic := all.find? (·.name = text)

end Topic

inductive Rejection
  | selfLoop
  | persistedParent
  | duplicateEdge
  | reverseEdgeExists
  | persistedNode
  | nothingHighlighted
  deriving DecidableEq

namespace Rejection

def all : List Rejection :=
  [selfLoop, persistedParent, duplicateEdge, reverseEdgeExists, persistedNode, nothingHighlighted]

def name : Rejection → String
  | selfLoop => "self_loop"
  | persistedParent => "persisted_parent"
  | duplicateEdge => "duplicate_edge"
  | reverseEdgeExists => "reverse_edge_exists"
  | persistedNode => "persisted_node"
  | nothingHighlighted => "nothing_highlighted"

def ofName? (text : String) : Option Rejection := all.find? (·.name = text)

def message : Rejection → String
  | selfLoop => "A card can't support itself."
  | persistedParent => "Can't use the sketch tool to add support to this node."
  | duplicateEdge => "Those cards are already connected."
  | reverseEdgeExists => "Those cards are already connected the other way."
  | persistedNode => "Can't change the type of a published card."
  | nothingHighlighted => "Select a card first."

end Rejection

/-- A message for the user: a repair that a pass made, or a refusal. -/
inductive Notice
  | typeChanged (node : NodeId) (before after : Role)
  | nodesDetached (node : NodeId) (detached : List NodeId)
  | rejected (reason : Rejection)
  deriving DecidableEq

namespace Notice

def isError : Notice → Bool
  | rejected _ => true
  | _ => false

def message : Notice → String
  | typeChanged .. => "Changed a card type to keep everything proper!"
  | nodesDetached .. => "Detached some nodes to keep everything proper!"
  | rejected reason => reason.message

end Notice

inductive Event
  | nodeAdded (parent : Option NodeId) (node : NodeId)
  | edgeAdded (parent child : NodeId)
  | edgeRemoved (parent child : NodeId)
  | nodeHighlighted (node : NodeId)
  | graphLoaded (root : Option NodeId)
  | notice (n : Notice)
  deriving DecidableEq

namespace Event

def topic : Event → Topic
  | nodeAdded .. => .nodeAdded
  | edgeAdded .. => .edgeAdded
  | edgeRemoved .. => .edgeRemoved
  | nodeHighlighted _ => .nodeHighlighted
  | graphLoaded _ => .graphLoaded
  | notice _ => .notice

def notice? : Event → Option Notice
  | notice n => some n
  | _ => none

end Event

inductive Failure
  | nodeNotFound (id : NodeId)
  | duplicateNode (id : NodeId)
  | selfLoop (id : NodeId)
  | malformedConfig
  | malformedSnapshot
  deriving DecidableEq

def Failure.message : Failure → String
  | nodeNotFound id => "Node not found: " ++ id.text
  | duplicateNode id => "Duplicate node: " ++ id.text
  | selfLoop id => "Invalid operation: Edge " ++ id.text ++ " -> " ++ id.text ++ " is a self-loop"
  | malformedConfig => "Serialization error: Failed to deserialize config"
  | malformedSnapshot => "Serialization error: Failed to deserialize graph snapshot"

end ArgumentMap
