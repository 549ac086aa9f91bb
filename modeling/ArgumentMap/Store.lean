import ArgumentMap.Event

/-! Stores of cards: what can be asked of one and done to it, and the checks over a whole one.
Gestures and sessions use nothing else, so they run on every store. -/

namespace ArgumentMap

/-- The `nodes` are listed in the order in which they were added. The edge added by `connect` comes
last among the children of the parent and among the parents of the child; `connect` and `disconnect`
tell whether anything changed. To `mint` is to add a card with a number that no card has yet. -/
class Store (σ : Type) where
  nodes : σ → List Node
  node : σ → NodeId → Except Failure Node
  contains : σ → NodeId → Bool
  hasEdge (s : σ) (parent child : NodeId) : Bool
  nodeCount : σ → Nat
  edgeCount : σ → Nat
  insert : σ → Node → Except Failure σ
  mint (s : σ) (stableId : Uuid) : NodeId × σ
  setRole : σ → NodeId → Role → σ
  setText : σ → NodeId → String → Except Failure σ
  connect (s : σ) (parent child : NodeId) : Except Failure (Bool × σ)
  disconnect (s : σ) (parent child : NodeId) : Except Failure (Bool × σ)

inductive Fault
  | selfLoop (node : NodeId)
  | asymmetricEdge (parent child : NodeId)
  | overfullInterpretation (node : NodeId) (children : Nat)
  deriving DecidableEq

namespace Store

variable {σ : Type} [Store σ]

def edges (s : σ) : List (NodeId × NodeId) :=
  (nodes s).flatMap fun n => n.children.map fun c => (n.id, c)

def recordsParent (s : σ) (parent child : NodeId) : Bool :=
  match node s child with
  | .ok n => parent ∈ n.parents
  | .error _ => false

/-- The faults seen from one card: a loop, then children that do not know it, then parents that do
not know it, then more support than an interpretation may have. -/
def faultsAt (s : σ) (n : Node) : List Fault :=
  (if n.id ∈ n.children ∨ n.id ∈ n.parents then [.selfLoop n.id] else []) ++
  (n.children.filter fun c => !recordsParent s n.id c).map (.asymmetricEdge n.id ·) ++
  (n.parents.filter fun p => !hasEdge s p n.id).map (.asymmetricEdge · n.id) ++
  (if n.role = .interpretation ∧ 1 < n.children.length
    then [.overfullInterpretation n.id n.children.length] else [])

def audit (s : σ) : List Fault := (nodes s).flatMap (faultsAt s)

end Store

/-- The first number from `k` on that is not taken, looking at most `tries` numbers ahead. -/
def firstFree (taken : Nat → Bool) : Nat → Nat → Nat
  | 0, k => k
  | tries + 1, k => if taken k then firstFree taken tries (k + 1) else k

end ArgumentMap
