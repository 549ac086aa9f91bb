import ArgumentMap.Edit
import ArgumentMap.Graph.Basic

/-!
Propagation of roles. After a local change, a pass gives every card that is not persisted a role
that fits its position:

- the parents of a leaf are interpretations;
- an interpretation reads at most one card, which is a source unless it is a leaf, and its parents
  are assertions;
- the leaves below an assertion are interpretations, and its parents are assertions.

A pass works through an agenda, newest task first. A card on the agenda is given a role and puts
its neighbours on the agenda; it lists them as they stand then, so whether an edge is still there is
looked up again when its turn comes. The agenda runs empty because leaves stay leaves: a leaf takes
at most two roles in a pass, a card read by a leaf alone keeps its role from then on, and any
other card takes at most three.
-/

namespace ArgumentMap

/-- What a pass did: cards entered, roles written, edges removed. -/
structure Stats where
  calls : Nat := 0
  typeWrites : Nat := 0
  edgesDetached : Nat := 0
  deriving DecidableEq

structure Pass (σ : Type) where
  graph : σ
  stats : Stats := {}
  deriving DecidableEq

/-- To `enter` a card gives it a role, at the instance of its neighbour `origin`; if forced, also
when it has that role already. To `raise` enters a parent and to `lower` a child at the instance of
the other end, if the edge is still there and the card is the user's own; `lower` also says whether
the child must be a leaf. -/
inductive Task
  | enter (node : NodeId) (role : Role) (origin : Option NodeId) (force : Bool)
  | raise (parent child : NodeId) (role : Role) (force : Bool)
  | lower (parent child : NodeId) (role : Role) (leaf : Bool)
  deriving DecidableEq

namespace Pass

variable {σ : Type} [Store σ]

def countCall (p : Pass σ) : Pass σ :=
  { p with stats := { p.stats with calls := p.stats.calls + 1 } }

def writeRole (id : NodeId) (role : Role) (p : Pass σ) : Pass σ :=
  { graph := Store.setRole p.graph id role
    stats := { p.stats with typeWrites := p.stats.typeWrites + 1 } }

def countDetached (p : Pass σ) : Pass σ :=
  { p with stats := { p.stats with edgesDetached := p.stats.edgesDetached + 1 } }

def disconnect (parent child : NodeId) (p : Pass σ) : Except Failure (Bool × Pass σ) :=
  (Store.disconnect p.graph parent child).map fun (removed, s) => (removed, { p with graph := s })

/-- Changes the role of a card. The user hears of it unless the card had no role before. -/
def assign (n : Node) (role : Role) : Edit (Pass σ) Unit := do
  if n.role.isSet then
    Edit.announce (.notice (.typeChanged n.id n.role role))
  Edit.change (writeRole n.id role)

def detachEach (parent : NodeId) : List NodeId → Edit (Pass σ) (List NodeId)
  | [] => return []
  | c :: rest => do
    if ← Edit.attempt (disconnect parent c) then
      Edit.change countDetached
      Edit.announce (.edgeRemoved parent c)
      return c :: (← detachEach parent rest)
    else
      detachEach parent rest

/-- The child that an interpretation keeps: the origin if it is among them, or else the first. -/
def kept (origin : Option NodeId) (children : List NodeId) : List NodeId :=
  ((origin.filter (· ∈ children)).or children.head?).toList

def reduce (n : Node) (origin : Option NodeId) : Edit (Pass σ) (List NodeId) := do
  let keep := kept origin n.children
  let detached ← detachEach n.id (n.children.filter (· ∉ keep))
  if detached ≠ [] then
    Edit.announce (.notice (.nodesDetached n.id detached))
  return keep

/-- What a card in the given role asks of its neighbours. -/
def demands (n : Node) (children : List NodeId) : Role → List Task
  | .interpretation =>
    children.map (.lower n.id · .source false) ++ n.parents.map (.raise · n.id .assertion false)
  | .assertion =>
    children.map (.lower n.id · .interpretation true) ++
      n.parents.map (.raise · n.id .assertion false)
  | .source | .unset => []

/-- Hands on the role of a card to its neighbours; a leaf asks the same of its parents in every
role. With `repair`, an interpretation first sheds all support but one card. -/
def spread (n : Node) (role : Role) (origin : Option NodeId) (repair : Bool) :
    Edit (Pass σ) (List Task) := do
  if n.isLeaf then
    return n.parents.map (.raise · n.id .interpretation true)
  else if role = .interpretation ∧ repair ∧ 1 < n.children.length then
    return demands n (← reduce n origin) role
  else
    return demands n n.children role

/-- A persisted card is not written: if forced, it hands on the role that it ought to have. Any
other card takes the role and hands it on, unless it has the role and is not forced. -/
def enter (id : NodeId) (role : Role) (origin : Option NodeId) (force : Bool) :
    Edit (Pass σ) (List Task) := do
  Edit.change countCall
  let n ← Edit.ask (Store.node ·.graph id)
  if n.persisted then
    if force then spread n n.legalRole origin false else return []
  else if n.role = role then
    if force then spread n role origin true else return []
  else
    assign n role
    spread n role origin true

def perform : Task → Edit (Pass σ) (List Task)
  | .enter id role origin force => enter id role origin force
  | .raise parent child role force => do
    if ← Edit.view (Store.hasEdge ·.graph parent child) then
      let p ← Edit.ask (Store.node ·.graph parent)
      return if p.persisted then [] else [.enter parent role (some child) force]
    else return []
  | .lower parent child role leaf => do
    if ← Edit.view (Store.hasEdge ·.graph parent child) then
      let c ← Edit.ask (Store.node ·.graph child)
      return if c.persisted || c.isLeaf ≠ leaf then [] else [.enter child role (some parent) false]
    else return []

/-- Works through the agenda for at most `steps` tasks and returns what is left of it. -/
def work : Nat → List Task → Edit (Pass σ) (List Task)
  | _, [] => return []
  | 0, agenda => return agenda
  | steps + 1, task :: agenda => do
    let more ← perform task
    work steps (more ++ agenda)

end Pass

def relationCount (nodes : List Node) : Nat :=
  nodes.foldr (fun n total => n.parents.length + n.children.length + total) 0

/-- More tasks than any pass over these cards has. -/
def passBound (nodes : List Node) : Nat :=
  let size := nodes.length + relationCount nodes + 1
  16 * size * size

namespace Graph

def relationCount (g : Graph) : Nat := ArgumentMap.relationCount g.nodes

def passBound (g : Graph) : Nat := ArgumentMap.passBound g.nodes

theorem passBound_eq (g : Graph) : g.passBound =
    16 * (g.nodeCount + g.relationCount + 1) * (g.nodeCount + g.relationCount + 1) := rfl

end Graph

variable {σ : Type} [Store σ]

def Pass.run (id : NodeId) (role : Role) (origin : Option NodeId) (force : Bool) :
    Edit (Pass σ) Unit := do
  let bound ← Edit.view fun p => passBound (Store.nodes p.graph)
  let _ ← work bound [.enter id role origin force]

def Graph.propagate (id : NodeId) (role : Role) (origin : Option NodeId) (force : Bool) :
    Edit σ Stats := fun s =>
  let pass := Pass.run id role origin force { graph := s }
  ⟨pass.state.graph, pass.events, pass.result.map fun _ => pass.state.stats⟩

end ArgumentMap
