import ArgumentMap.Propagation

/-! What the user does to a graph: highlighting a card, taking one off what it supports, and drawing
an edge with two selections, first the parent, then the child. -/

namespace ArgumentMap

/-- The text `idStem` stands before the number in a minted identifier. `resetOnPersistedParent`
makes the edge tool choose a new parent after a persisted one was refused. `flipReverseEdges` lets
an edge replace the one in the opposite direction. -/
structure Config where
  idStem : String := "sketch-"
  resetOnPersistedParent : Bool := true
  flipReverseEdges : Bool := true
  deriving DecidableEq

namespace Config

def compatible : Config := { resetOnPersistedParent := false }

end Config

/-- Taps highlight a card, choose the ends of a new edge, or detach a card from its parents. -/
inductive Tool
  | selection
  | edge
  | detach
  deriving DecidableEq

namespace Tool

def all : List Tool := [selection, edge, detach]

def name : Tool → String
  | selection => "selectionTool"
  | edge => "edgeTool"
  | detach => "detachTool"

def ofName? (text : String) : Option Tool := all.find? (·.name = text)

end Tool

variable {σ : Type} [Store σ]

def highlight (s : σ) (id : NodeId) : Edit (Option NodeId) Unit := do
  let _ ← Edit.ask fun _ => Store.node s id
  Edit.change fun _ => some id
  Edit.announce (.nodeHighlighted id)

namespace Graph

def detachFrom (id : NodeId) : List NodeId → Edit σ (List NodeId)
  | [] => return []
  | p :: rest => do
    let parent ← Edit.ask (Store.node · p)
    if parent.persisted then
      detachFrom id rest
    else if ← Edit.attempt (Store.disconnect · p id) then
      Edit.announce (.edgeRemoved p id)
      return p :: (← detachFrom id rest)
    else
      detachFrom id rest

/-- Removes every edge down to `id` whose parent is not persisted. No role changes. -/
def detachParents (id : NodeId) : Edit σ (List NodeId) := do
  let n ← Edit.ask (Store.node · id)
  detachFrom id n.parents

end Graph

inductive EdgeTool
  | inactive
  | seekingParent
  | seekingChild (parent : NodeId)
  deriving DecidableEq

inductive EdgeOutcome
  | ignored
  | parentSelected (node : NodeId)
  | committed (parent child : NodeId) (flipped : Bool) (stats : Stats)
  | rejected (reason : Rejection)
  deriving DecidableEq

namespace Graph

/-- The first objection to an edge: that it is a loop, that the parent is persisted, that the edge
exists, or that the opposite one exists and may not be flipped. -/
def objection? (config : Config) (parent child : NodeId) (s : σ) :
    Except Failure (Option Rejection) :=
  if parent = child then
    .ok (some .selfLoop)
  else
    match Store.node s parent with
    | .error e => .error e
    | .ok p =>
      if p.persisted then
        .ok (some .persistedParent)
      else if Store.hasEdge s parent child then
        .ok (some .duplicateEdge)
      else if Store.hasEdge s child parent ∧ !config.flipReverseEdges then
        .ok (some .reverseEdgeExists)
      else
        .ok none

def clearReverse (parent child : NodeId) : Edit σ Bool := do
  if ← Edit.view (Store.hasEdge · child parent) then
    let _ ← Edit.attempt (Store.disconnect · child parent)
    Edit.announce (.edgeRemoved child parent)
    return true
  else
    return false

/-- Where neither end of a new edge has a role, the child becomes an assertion. -/
def seedRole (parent child : NodeId) : Edit σ Unit := do
  let p ← Edit.ask (Store.node · parent)
  let c ← Edit.ask (Store.node · child)
  if !p.role.isSet ∧ !c.role.isSet ∧ !c.persisted then
    Edit.change (Store.setRole · child .assertion)

/-- Repairs the roles around a new edge: from the parent where its role fits its new position and
the child may be written, otherwise from the child. -/
def settleEdge (parent child : NodeId) : Edit σ Stats := do
  let p ← Edit.ask (Store.node · parent)
  let c ← Edit.ask (Store.node · child)
  if p.allows p.role ∧ !c.persisted then
    propagate parent p.role none true
  else
    propagate child c.legalRole none true

def commitEdge (parent child : NodeId) : Edit σ EdgeOutcome := do
  let flipped ← clearReverse parent child
  let _ ← Edit.attempt (Store.connect · parent child)
  Edit.announce (.edgeAdded parent child)
  seedRole parent child
  let stats ← settleEdge parent child
  return .committed parent child flipped stats

def drawEdge (config : Config) (parent child : NodeId) : Edit σ EdgeOutcome := do
  match ← Edit.ask (objection? config parent child) with
  | some reason =>
    Edit.announce (.notice (.rejected reason))
    return .rejected reason
  | none => commitEdge parent child

end Graph

namespace EdgeTool

def respond (config : Config) (tool : EdgeTool) (id : NodeId) : Edit σ EdgeOutcome := do
  let _ ← Edit.ask (Store.node · id)
  match tool with
  | inactive => return .ignored
  | seekingParent => return .parentSelected id
  | seekingChild parent => Graph.drawEdge config parent id

/-- The tool after a selection. It starts over after an edge, and where the settings say so after
a refused persisted parent. -/
def next (config : Config) (tool : EdgeTool) : EdgeOutcome → EdgeTool
  | .ignored => tool
  | .parentSelected id => seekingChild id
  | .committed .. => seekingParent
  | .rejected reason =>
    if reason = .persistedParent ∧ config.resetOnPersistedParent then seekingParent else tool

def select (config : Config) (id : NodeId) : Edit (EdgeTool × σ) EdgeOutcome := do
  let tool ← Edit.view (·.1)
  let outcome ← Edit.zoom (·.2) (fun g s => (s.1, g)) (respond config tool id)
  Edit.change fun s => (s.1.next config outcome, s.2)
  return outcome

end EdgeTool

end ArgumentMap
