import ArgumentMap.Store
import Std.Data.HashMap

/-! A store that finds its cards fast: a map holds them by identifier, and a list beside it has the
identifiers in the order in which the cards were added. The two are read and written apart. -/

namespace ArgumentMap

structure Arena where
  stem : String := "sketch-"
  counter : Nat := 0
  cards : Std.HashMap NodeId Node := {}
  order : List NodeId := []

namespace Arena

def contains (a : Arena) (id : NodeId) : Bool := a.cards.contains id

def node (a : Arena) (id : NodeId) : Except Failure Node :=
  match a.cards[id]? with
  | some n => .ok n
  | none => .error (.nodeNotFound id)

/-- An identifier without a card is passed over. -/
def nodes (a : Arena) : List Node := a.order.filterMap (a.cards[·]?)

def hasEdge (a : Arena) (parent child : NodeId) : Bool :=
  match a.cards[parent]? with
  | some n => child ∈ n.children
  | none => false

def nodeCount (a : Arena) : Nat := a.cards.size

def edgeCount (a : Arena) : Nat := a.cards.fold (fun total _ n => total + n.children.length) 0

def insert (a : Arena) (n : Node) : Except Failure Arena :=
  if a.contains n.id then .error (.duplicateNode n.id)
  else .ok { a with cards := a.cards.insert n.id n, order := a.order ++ [n.id] }

def numbered (a : Arena) (k : Nat) : NodeId := .numbered a.stem k

def mint (a : Arena) (stableId : Uuid) : NodeId × Arena :=
  let k := firstFree (fun k => a.contains (a.numbered k)) a.nodeCount a.counter
  let id := a.numbered k
  (id, { a with
    counter := k + 1
    cards := a.cards.insert id { id := id, stableId := stableId }
    order := a.order ++ [id] })

def modify (a : Arena) (id : NodeId) (f : Node → Node) : Arena :=
  { a with cards := a.cards.modify id f }

def setRole (a : Arena) (id : NodeId) (role : Role) : Arena :=
  a.modify id fun n => { n with role := role }

def setText (a : Arena) (id : NodeId) (text : String) : Except Failure Arena := do
  let _ ← a.node id
  return a.modify id fun n => { n with body := n.body.setText text }

def connect (a : Arena) (parent child : NodeId) : Except Failure (Bool × Arena) := do
  let _ ← a.node child
  if parent = child then
    return (false, a)
  else
    let p ← a.node parent
    if child ∈ p.children then
      return (false, a)
    else
      return (true, (a.modify parent (·.addChild child)).modify child (·.addParent parent))

def disconnect (a : Arena) (parent child : NodeId) : Except Failure (Bool × Arena) := do
  let c ← a.node child
  let p ← a.node parent
  return (decide (child ∈ p.children) || decide (parent ∈ c.parents),
    (a.modify parent (·.dropChild child)).modify child (·.dropParent parent))

end Arena

instance : Store Arena where
  nodes := Arena.nodes
  node := Arena.node
  contains := Arena.contains
  hasEdge := Arena.hasEdge
  nodeCount := Arena.nodeCount
  edgeCount := Arena.edgeCount
  insert := Arena.insert
  mint := Arena.mint
  setRole := Arena.setRole
  setText := Arena.setText
  connect := Arena.connect
  disconnect := Arena.disconnect

end ArgumentMap
