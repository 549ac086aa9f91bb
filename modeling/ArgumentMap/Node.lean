import ArgumentMap.Body
import ArgumentMap.Uuid

/-! Cards, the roles that they can play in an argument, and the roles that their position allows. -/

namespace ArgumentMap

/-- A source is cited material, an interpretation reads one piece of support, and an assertion is
a claim supported by interpretations or further assertions. A new card has no role yet. -/
inductive Role
  | unset
  | source
  | interpretation
  | assertion
  deriving DecidableEq

namespace Role

def all : List Role := [unset, source, interpretation, assertion]

def name : Role → String
  | unset => "unset"
  | source => "source"
  | interpretation => "interpretation"
  | assertion => "assertion"

def ofName? (text : String) : Option Role := all.find? (·.name = text)

def isSet (r : Role) : Bool := r ≠ unset

theorem ofName?_name (r : Role) : ofName? r.name = some r := by
  cases r <;> decide

end Role

structure NodeId where
  text : String
  deriving DecidableEq, Hashable

def NodeId.numbered (stem : String) (k : Nat) : NodeId := ⟨stem ++ k.repr⟩

/-- A card with the cards it supports and the cards that support it, each in the order in which
they were attached. Its stable identifier outlives its versions. A persisted card is stored
elsewhere and is not retyped here. -/
structure Node where
  id : NodeId
  stableId : Uuid := .nil
  role : Role := .unset
  persisted : Bool := false
  body : Body := .empty
  parents : List NodeId := []
  children : List NodeId := []
  deriving DecidableEq

namespace Node

def isLeaf (n : Node) : Bool := n.children.isEmpty

/-- Whether the position of the card fits the role: a source has no support, an interpretation
reads at most one card, an assertion stands anywhere. -/
def allows (n : Node) : Role → Bool
  | .unset => false
  | .source => n.isLeaf
  | .interpretation => n.children.length ≤ 1
  | .assertion => true

/-- The present role where it fits, and otherwise the first one that does, in the order source,
interpretation, assertion. -/
def legalRole (n : Node) : Role :=
  if n.allows n.role then n.role
  else if n.allows .source then .source
  else if n.allows .interpretation then .interpretation
  else .assertion

theorem allows_legalRole (n : Node) : n.allows n.legalRole = true := by
  simp only [legalRole]
  split
  · assumption
  · split
    · assumption
    · split
      · assumption
      · rfl

def addChild (n : Node) (c : NodeId) : Node := { n with children := n.children ++ [c] }

def addParent (n : Node) (p : NodeId) : Node := { n with parents := n.parents ++ [p] }

def dropChild (n : Node) (c : NodeId) : Node := { n with children := n.children.filter (· ≠ c) }

def dropParent (n : Node) (p : NodeId) : Node := { n with parents := n.parents.filter (· ≠ p) }

@[simp] theorem mem_children_dropChild {n : Node} {c x : NodeId} :
    x ∈ (n.dropChild c).children ↔ x ∈ n.children ∧ x ≠ c := by
  simp [dropChild]

@[simp] theorem mem_parents_dropParent {n : Node} {p x : NodeId} :
    x ∈ (n.dropParent p).parents ↔ x ∈ n.parents ∧ x ≠ p := by
  simp [dropParent]

end Node

end ArgumentMap
