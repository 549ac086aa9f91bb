import ArgumentMap.Edit
import ArgumentMap.Store

/-! Stored arguments, and loading them into a store. Everything is checked before anything is
added, so a refused snapshot changes nothing. -/

namespace ArgumentMap

namespace Snapshot

structure Card where
  id : NodeId
  stableId : Option Uuid := none
  role : Role
  body : Body := .empty
  deriving DecidableEq

structure Edge where
  parent : NodeId
  child : NodeId
  deriving DecidableEq

end Snapshot

structure Snapshot where
  root : Option NodeId := none
  cards : List Snapshot.Card := []
  edges : List Snapshot.Edge := []
  deriving DecidableEq

namespace Snapshot

/-- The stored card as it is kept; one that comes without a stable identifier gets a `fresh` one. -/
def Card.toNode (fresh : NodeId → Uuid) (c : Card) : Node where
  id := c.id
  stableId := c.stableId.getD (fresh c.id)
  role := c.role
  persisted := true
  body := c.body

variable {σ : Type} [Store σ]

/-- No card repeats an identifier of the store, of `seen` or of an earlier card. -/
def checkCards (store : σ) (seen : List NodeId) : List Card → Except Failure Unit
  | [] => .ok ()
  | c :: rest =>
    if c.id ∈ seen ∨ Store.contains store c.id then .error (.duplicateNode c.id)
    else checkCards store (c.id :: seen) rest

def checkKnown (known : NodeId → Bool) (id : NodeId) : Except Failure Unit :=
  if known id then .ok () else .error (.nodeNotFound id)

def Edge.check (known : NodeId → Bool) (e : Edge) : Except Failure Unit :=
  if e.parent = e.child then .error (.selfLoop e.parent)
  else do
    checkKnown known e.parent
    checkKnown known e.child

def knows (s : Snapshot) (store : σ) (id : NodeId) : Bool :=
  id ∈ s.cards.map (·.id) || Store.contains store id

/-- The first thing wrong with a snapshot for this store: cards come first, then edges, then the
root. -/
def check (s : Snapshot) (store : σ) : Except Failure Unit := do
  checkCards store [] s.cards
  s.edges.forM (·.check (s.knows store))
  s.root.forM (checkKnown (s.knows store))

def addCards (fresh : NodeId → Uuid) : List Card → Edit σ Unit
  | [] => return ()
  | c :: rest => do
    Edit.attempt fun s => (Store.insert s (c.toNode fresh)).map ((), ·)
    addCards fresh rest

def addEdges : List Edge → Edit σ Unit
  | [] => return ()
  | e :: rest => do
    let _ ← Edit.attempt (Store.connect · e.parent e.child)
    addEdges rest

/-- Checks the snapshot, adds its cards and its edges, each in their order, and returns its root. -/
def load (s : Snapshot) (fresh : NodeId → Uuid) : Edit σ (Option NodeId) := do
  Edit.ask s.check
  addCards fresh s.cards
  addEdges s.edges
  return s.root

end Snapshot

end ArgumentMap
