import ArgumentMap.Store

/-! Argument graphs: a store that keeps its cards in one list, in the order in which they were
added, and looks them up there. Each support relation is recorded with both of its cards, and
editing keeps the two records in step. -/

namespace ArgumentMap

/-- The graph mints identifiers by writing a running number behind `stem`. -/
structure Graph where
  stem : String := "sketch-"
  counter : Nat := 0
  nodes : List Node := []
  deriving DecidableEq

namespace Graph

def find? (g : Graph) (id : NodeId) : Option Node := g.nodes.find? (·.id = id)

theorem mem_of_find? {g : Graph} {id : NodeId} {n : Node} (h : g.find? id = some n) :
    n ∈ g.nodes := List.mem_of_find?_eq_some h

theorem id_of_find? {g : Graph} {id : NodeId} {n : Node} (h : g.find? id = some n) :
    n.id = id := by
  simpa using List.find?_some h

def contains (g : Graph) (id : NodeId) : Bool := (g.find? id).isSome

def node (g : Graph) (id : NodeId) : Except Failure Node :=
  match g.find? id with
  | some n => .ok n
  | none => .error (.nodeNotFound id)

theorem node_eq_ok_iff {g : Graph} {id : NodeId} {n : Node} :
    g.node id = .ok n ↔ g.find? id = some n := by
  simp only [node]
  cases g.find? id <;> simp

theorem node_eq_error_iff {g : Graph} {id : NodeId} {e : Failure} :
    g.node id = .error e ↔ g.find? id = none ∧ e = .nodeNotFound id := by
  simp only [node]
  cases g.find? id <;> simp [eq_comm]

def ids (g : Graph) : List NodeId := g.nodes.map (·.id)

theorem contains_iff_mem_ids {g : Graph} {id : NodeId} : g.contains id ↔ id ∈ g.ids := by
  simp [contains, find?, ids]

/-- The cards that support `id`; like its parents, none if the card is unknown. -/
def children (g : Graph) (id : NodeId) : List NodeId :=
  match g.find? id with
  | some n => n.children
  | none => []

def parents (g : Graph) (id : NodeId) : List NodeId :=
  match g.find? id with
  | some n => n.parents
  | none => []

def hasEdge (g : Graph) (parent child : NodeId) : Bool := child ∈ g.children parent

def nodeCount (g : Graph) : Nat := g.nodes.length

def edgeCount (g : Graph) : Nat := g.nodes.foldr (fun n total => n.children.length + total) 0

def modify (g : Graph) (id : NodeId) (f : Node → Node) : Graph :=
  { g with nodes := g.nodes.map fun n => if n.id = id then f n else n }

theorem find?_modify {g : Graph} {id : NodeId} {f : Node → Node} (hf : ∀ n, (f n).id = n.id)
    (x : NodeId) : (g.modify id f).find? x = if x = id then (g.find? x).map f else g.find? x := by
  have hid : ∀ n : Node, (if n.id = id then f n else n).id = n.id := fun n => by
    split <;> simp [hf]
  simp only [find?, modify]
  induction g.nodes with
  | nil => simp
  | cons n rest ih =>
    by_cases hn : n.id = x
    · subst hn
      by_cases h : n.id = id <;> simp [h, hf]
    · simp only [List.map_cons, List.find?_cons, hid, hn, decide_false]
      exact ih

theorem ids_modify {g : Graph} {id : NodeId} {f : Node → Node} (hf : ∀ n, (f n).id = n.id) :
    (g.modify id f).ids = g.ids := by
  simp only [ids, modify, List.map_map]
  refine List.map_congr_left fun n _ => ?_
  simp only [Function.comp_apply]
  split <;> simp [hf]

def setRole (g : Graph) (id : NodeId) (role : Role) : Graph :=
  g.modify id fun n => { n with role := role }

theorem find?_setRole {g : Graph} {id : NodeId} {role : Role} (x : NodeId) :
    (g.setRole id role).find? x =
      if x = id then (g.find? x).map (fun n => { n with role := role }) else g.find? x := by
  rw [setRole, find?_modify]
  exact fun _ => rfl

def setText (g : Graph) (id : NodeId) (text : String) : Except Failure Graph := do
  let _ ← g.node id
  return g.modify id fun n => { n with body := n.body.setText text }

def insert (g : Graph) (n : Node) : Except Failure Graph :=
  if g.contains n.id then .error (.duplicateNode n.id)
  else .ok { g with nodes := g.nodes ++ [n] }

theorem insert_eq_ok_iff {g h : Graph} {n : Node} :
    g.insert n = .ok h ↔ g.contains n.id = false ∧ h = { g with nodes := g.nodes ++ [n] } := by
  simp only [insert]
  cases g.contains n.id <;> simp [eq_comm]

def numbered (g : Graph) (k : Nat) : NodeId := .numbered g.stem k

/-- Adds a card under a fresh identifier. Loaded cards may hold numbered identifiers too, so taken
numbers are skipped; each card can take only one. -/
def mint (g : Graph) (stableId : Uuid) : NodeId × Graph :=
  let k := firstFree (fun k => g.contains (g.numbered k)) g.nodeCount g.counter
  let id := g.numbered k
  (id, { g with counter := k + 1, nodes := g.nodes ++ [{ id := id, stableId := stableId }] })

/-- A card does not support itself, and an edge is not repeated. -/
def connect (g : Graph) (parent child : NodeId) : Except Failure (Bool × Graph) := do
  let _ ← g.node child
  if parent = child then
    return (false, g)
  else
    let p ← g.node parent
    if child ∈ p.children then
      return (false, g)
    else
      return (true, (g.modify parent (·.addChild child)).modify child (·.addParent parent))

def disconnect (g : Graph) (parent child : NodeId) : Except Failure (Bool × Graph) := do
  let c ← g.node child
  let p ← g.node parent
  return (decide (child ∈ p.children) || decide (parent ∈ c.parents),
    (g.modify parent (·.dropChild child)).modify child (·.dropParent parent))

theorem disconnect_eq_ok {g : Graph} {parent child : NodeId} {p c : Node}
    (hp : g.find? parent = some p) (hc : g.find? child = some c) :
    g.disconnect parent child = .ok (decide (child ∈ p.children) || decide (parent ∈ c.parents),
      (g.modify parent (·.dropChild child)).modify child (·.dropParent parent)) := by
  simp [disconnect, node_eq_ok_iff.2 hp, node_eq_ok_iff.2 hc, bind, Except.bind, pure, Except.pure]

structure WellFormed (g : Graph) : Prop where
  nodup_ids : g.ids.Nodup
  nodup_children : ∀ n ∈ g.nodes, n.children.Nodup
  nodup_parents : ∀ n ∈ g.nodes, n.parents.Nodup
  irreflexive : ∀ n ∈ g.nodes, n.id ∉ n.children
  child_knows : ∀ p ∈ g.nodes, ∀ c ∈ p.children, ∃ n ∈ g.nodes, n.id = c ∧ p.id ∈ n.parents
  parent_knows : ∀ c ∈ g.nodes, ∀ p ∈ c.parents, ∃ n ∈ g.nodes, n.id = p ∧ c.id ∈ n.children

/-- No interpretation of the user's own reads more than one card. -/
def SinglySupported (g : Graph) : Prop :=
  ∀ n ∈ g.nodes, n.persisted = false → n.role = .interpretation → n.children.length ≤ 1

end Graph

instance : Store Graph where
  nodes := Graph.nodes
  node := Graph.node
  contains := Graph.contains
  hasEdge := Graph.hasEdge
  nodeCount := Graph.nodeCount
  edgeCount := Graph.edgeCount
  insert := Graph.insert
  mint := Graph.mint
  setRole := Graph.setRole
  setText := Graph.setText
  connect := Graph.connect
  disconnect := Graph.disconnect

namespace Graph

def edges (g : Graph) : List (NodeId × NodeId) := Store.edges g

theorem edges_eq (g : Graph) :
    g.edges = g.nodes.flatMap fun n => n.children.map fun c => (n.id, c) := rfl

def audit (g : Graph) : List Fault := Store.audit g

theorem audit_eq (g : Graph) : g.audit = g.nodes.flatMap (Store.faultsAt g) := rfl

end Graph

end ArgumentMap
