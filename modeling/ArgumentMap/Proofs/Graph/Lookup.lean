import ArgumentMap.Graph.Basic
import Mathlib.Tactic.SplitIfs

/-!
# One card at a time

What a graph says about a single card, whether the card is known or not, and
how each edit changes it. Everything later speaks of a graph through these
observations, so the list of cards stays closed.
-/

namespace ArgumentMap.Graph

def role (g : Graph) (id : NodeId) : Role :=
  match g.find? id with
  | some n => n.role
  | none => .unset

def persists (g : Graph) (id : NodeId) : Bool :=
  match g.find? id with
  | some n => n.persisted
  | none => false

def legalRole (g : Graph) (id : NodeId) : Role :=
  match g.find? id with
  | some n => n.legalRole
  | none => .unset

section
variable {g : Graph} {id : NodeId} {n : Node}

theorem contains_iff_find? : g.contains id = true ↔ ∃ n, g.find? id = some n := by
  simp [contains, Option.isSome_iff_exists]

theorem contains_of_find? (h : g.find? id = some n) : g.contains id = true :=
  contains_iff_find?.2 ⟨n, h⟩

theorem role_of_find? (h : g.find? id = some n) : g.role id = n.role := by simp [role, h]

theorem persists_of_find? (h : g.find? id = some n) : g.persists id = n.persisted := by
  simp [persists, h]

theorem legalRole_of_find? (h : g.find? id = some n) : g.legalRole id = n.legalRole := by
  simp [legalRole, h]

theorem children_of_find? (h : g.find? id = some n) : g.children id = n.children := by
  simp [children, h]

theorem parents_of_find? (h : g.find? id = some n) : g.parents id = n.parents := by
  simp [parents, h]

theorem contains_of_mem_children {c : NodeId} (h : c ∈ g.children id) : g.contains id = true := by
  cases hf : g.find? id with
  | none => simp [children, hf] at h
  | some n => exact contains_of_find? hf

theorem contains_of_mem_parents {p : NodeId} (h : p ∈ g.parents id) : g.contains id = true := by
  cases hf : g.find? id with
  | none => simp [parents, hf] at h
  | some n => exact contains_of_find? hf

theorem legalRole_of_support (h : g.children id ≠ []) :
    g.legalRole id = .interpretation ∨ g.legalRole id = .assertion := by
  obtain ⟨c, hc⟩ := List.exists_mem_of_ne_nil _ h
  obtain ⟨n, hf⟩ := contains_iff_find?.1 (contains_of_mem_children hc)
  have hallows := n.allows_legalRole
  rw [children_of_find? hf] at h
  rw [legalRole_of_find? hf]
  cases hr : n.legalRole with
  | unset => simp [hr, Node.allows] at hallows
  | source => simp [hr, Node.allows, Node.isLeaf, h] at hallows
  | interpretation => exact .inl rfl
  | assertion => exact .inr rfl

theorem contains_of_persists (h : g.persists id = true) : g.contains id = true := by
  cases hf : g.find? id with
  | none => simp [persists, hf] at h
  | some n => exact contains_of_find? hf

theorem hasEdge_iff {p c : NodeId} : g.hasEdge p c = true ↔ c ∈ g.children p := by
  simp [hasEdge]

theorem store_node_of_find? (h : g.find? id = some n) : Store.node g id = .ok n :=
  node_eq_ok_iff.2 h

theorem store_node_of_unknown (h : g.find? id = none) :
    Store.node g id = .error (.nodeNotFound id) :=
  node_eq_error_iff.2 ⟨h, rfl⟩

theorem store_hasEdge_iff {p c : NodeId} : Store.hasEdge g p c = true ↔ c ∈ g.children p :=
  hasEdge_iff

theorem find?_of_mem (hg : g.ids.Nodup) (h : n ∈ g.nodes) : g.find? n.id = some n := by
  simp only [ids, find?] at hg ⊢
  induction hn : g.nodes generalizing g with
  | nil => simp [hn] at h
  | cons m rest ih =>
    rw [hn, List.map_cons, List.nodup_cons] at hg
    rw [hn] at h
    rcases List.mem_cons.1 h with rfl | hr
    · simp
    · have hne : m.id ≠ n.id := fun he => hg.1 (he ▸ List.mem_map_of_mem hr)
      rw [List.find?_cons_of_neg (by simpa using hne)]
      exact ih (g := { g with nodes := rest }) hg.2 hr rfl

end

/-- A field of a card that may be unknown. -/
def readOff {α : Type} (unknown : α) (field : Node → α) : Option Node → α
  | some n => field n
  | none => unknown

section
variable {g : Graph} {id : NodeId} {f : Node → Node} (hf : ∀ n, (f n).id = n.id)
include hf

theorem read_modify {α : Type} (read : Option Node → α)
    (hread : ∀ n, read (some (f n)) = read (some n)) (x : NodeId) :
    read ((g.modify id f).find? x) = read (g.find? x) := by
  rw [find?_modify hf]
  split_ifs
  · cases g.find? x with
    | none => rfl
    | some n => exact hread n
  · rfl

theorem contains_modify (x : NodeId) : (g.modify id f).contains x = g.contains x :=
  read_modify hf Option.isSome (fun _ => rfl) x

theorem children_modify (hc : ∀ n, (f n).children = n.children) (x : NodeId) :
    (g.modify id f).children x = g.children x :=
  read_modify hf (readOff [] Node.children) hc x

theorem parents_modify (hp : ∀ n, (f n).parents = n.parents) (x : NodeId) :
    (g.modify id f).parents x = g.parents x :=
  read_modify hf (readOff [] Node.parents) hp x

theorem role_modify (hr : ∀ n, (f n).role = n.role) (x : NodeId) :
    (g.modify id f).role x = g.role x :=
  read_modify hf (readOff Role.unset Node.role) hr x

theorem persists_modify (hp : ∀ n, (f n).persisted = n.persisted) (x : NodeId) :
    (g.modify id f).persists x = g.persists x :=
  read_modify hf (readOff false Node.persisted) hp x

end

section
variable (g : Graph) (id : NodeId) (r : Role) (x : NodeId)

@[simp] theorem ids_setRole : (g.setRole id r).ids = g.ids := ids_modify fun _ => rfl

@[simp] theorem children_setRole : (g.setRole id r).children x = g.children x := by
  rw [setRole, children_modify] <;> exact fun _ => rfl

@[simp] theorem parents_setRole : (g.setRole id r).parents x = g.parents x := by
  rw [setRole, parents_modify] <;> exact fun _ => rfl

@[simp] theorem persists_setRole : (g.setRole id r).persists x = g.persists x := by
  rw [setRole, persists_modify] <;> exact fun _ => rfl

@[simp] theorem contains_setRole : (g.setRole id r).contains x = g.contains x := by
  rw [setRole, contains_modify]
  exact fun _ => rfl

theorem find?_setRole_of_ne {g : Graph} {id x : NodeId} {r : Role} (h : x ≠ id) :
    (g.setRole id r).find? x = g.find? x := by
  rw [find?_setRole, if_neg h]

theorem role_setRole :
    (g.setRole id r).role x = if x = id ∧ g.contains id = true then r else g.role x := by
  rw [role, find?_setRole, role, contains]
  by_cases h : x = id
  · subst h
    cases g.find? x <;> simp
  · simp [h]

end

end ArgumentMap.Graph

namespace ArgumentMap

def Node.release (n : Node) (parent : NodeId) (cs : List NodeId) : Node :=
  { n with
    children := if n.id = parent then n.children.filter (· ∉ cs) else n.children
    parents := if n.id ∈ cs then n.parents.filter (· ≠ parent) else n.parents }

theorem Node.release_nil (n : Node) (parent : NodeId) : n.release parent [] = n := by
  cases n
  simp [release, List.filter_eq_self.2]

theorem Node.release_release (n : Node) (parent c : NodeId) (cs : List NodeId) :
    (n.release parent [c]).release parent cs = n.release parent (c :: cs) := by
  simp only [release, List.mem_cons, Node.mk.injEq, true_and]
  refine ⟨?_, ?_⟩
  · split_ifs <;> simp_all
  · split_ifs
    · simp [List.filter_filter, Bool.and_comm]
    · rfl

namespace Graph

def shed (g : Graph) (parent : NodeId) (cs : List NodeId) : Graph :=
  { g with nodes := g.nodes.map (·.release parent cs) }

section
variable (g : Graph) (parent : NodeId) (cs : List NodeId) (x : NodeId)

theorem find?_shed : (g.shed parent cs).find? x = (g.find? x).map (·.release parent cs) := by
  have hp : (fun n => decide (n.id = x)) ∘ (fun n : Node => n.release parent cs) =
      fun n : Node => decide (n.id = x) := rfl
  rw [find?, shed, List.find?_map, hp, find?]

@[simp] theorem ids_shed : (g.shed parent cs).ids = g.ids := by
  simp [ids, shed, Function.comp_def, Node.release]

@[simp] theorem role_shed : (g.shed parent cs).role x = g.role x := by
  simp only [role, find?_shed]
  cases g.find? x <;> rfl

@[simp] theorem persists_shed : (g.shed parent cs).persists x = g.persists x := by
  simp only [persists, find?_shed]
  cases g.find? x <;> rfl

@[simp] theorem contains_shed : (g.shed parent cs).contains x = g.contains x := by
  simp only [contains, find?_shed]
  cases g.find? x <;> rfl

theorem children_shed : (g.shed parent cs).children x =
    if x = parent then (g.children x).filter (· ∉ cs) else g.children x := by
  simp only [children, find?_shed]
  cases h : g.find? x with
  | none => simp
  | some n => simp [Node.release, id_of_find? h]

theorem parents_shed : (g.shed parent cs).parents x =
    if x ∈ cs then (g.parents x).filter (· ≠ parent) else g.parents x := by
  simp only [parents, find?_shed]
  cases h : g.find? x with
  | none => simp
  | some n => simp [Node.release, id_of_find? h]

@[simp] theorem shed_nil : g.shed parent [] = g := by
  simp [shed, Node.release_nil]

theorem shed_shed (c : NodeId) : (g.shed parent [c]).shed parent cs = g.shed parent (c :: cs) := by
  simp only [shed, List.map_map, Function.comp_def, Node.release_release]

end

section
variable {g : Graph} {parent x y : NodeId} {cs : List NodeId}

theorem mem_children_of_shed (h : y ∈ (g.shed parent cs).children x) : y ∈ g.children x := by
  rw [children_shed] at h
  split_ifs at h
  · exact (List.mem_filter.1 h).1
  · exact h

theorem mem_parents_of_shed (h : y ∈ (g.shed parent cs).parents x) : y ∈ g.parents x := by
  rw [parents_shed] at h
  split_ifs at h
  · exact (List.mem_filter.1 h).1
  · exact h

theorem find?_shed_of_ne (hp : x ≠ parent) (hc : x ∉ cs) :
    (g.shed parent cs).find? x = g.find? x := by
  rw [find?_shed]
  cases hf : g.find? x with
  | none => rfl
  | some n =>
    rw [← id_of_find? hf] at hp hc
    rw [Option.map_some, Node.release, if_neg hp, if_neg hc]

end

theorem release_of_drop (n : Node) (parent child : NodeId) :
    (if (if n.id = parent then n.dropChild child else n).id = child then
      (if n.id = parent then n.dropChild child else n).dropParent parent
    else if n.id = parent then n.dropChild child else n) = n.release parent [child] := by
  by_cases h : n.id = parent
  · simp only [if_pos h]
    by_cases hc : n.id = child <;>
      simp [Node.release, Node.dropChild, Node.dropParent, hc, ← h]
  · simp only [if_neg h]
    by_cases hc : n.id = child
    · simp [Node.release, Node.dropParent, ← hc, h]
    · simp [Node.release, hc, h]

theorem disconnect_eq_shed {g : Graph} {parent child : NodeId} (hp : g.contains parent = true)
    (hc : g.contains child = true) : g.disconnect parent child =
      .ok (decide (child ∈ g.children parent) || decide (parent ∈ g.parents child),
        g.shed parent [child]) := by
  obtain ⟨p, hp⟩ := contains_iff_find?.1 hp
  obtain ⟨c, hc⟩ := contains_iff_find?.1 hc
  rw [disconnect_eq_ok hp hc, children_of_find? hp, parents_of_find? hc]
  congr 2
  simp only [modify, shed, List.map_map, Graph.mk.injEq, true_and]
  exact List.map_congr_left fun n _ => release_of_drop n parent child

theorem disconnect_eq_ok_iff {g : Graph} {parent child : NodeId} {r : Bool × Graph} :
    g.disconnect parent child = .ok r ↔ g.contains parent = true ∧ g.contains child = true ∧
      r = (decide (child ∈ g.children parent) || decide (parent ∈ g.parents child),
        g.shed parent [child]) := by
  constructor
  · intro h
    have hp : g.contains parent = true := by
      cases hn : g.find? parent with
      | some p => exact contains_of_find? hn
      | none =>
        cases hc : g.node child <;>
          simp [disconnect, hc, node_eq_error_iff.2 ⟨hn, rfl⟩, bind, Except.bind] at h
    have hc : g.contains child = true := by
      cases hn : g.find? child with
      | some c => exact contains_of_find? hn
      | none => simp [disconnect, node_eq_error_iff.2 ⟨hn, rfl⟩, bind, Except.bind] at h
    rw [disconnect_eq_shed hp hc] at h
    exact ⟨hp, hc, (Except.ok.inj h).symm⟩
  · intro h
    obtain ⟨hp, hc, rfl⟩ := h
    exact disconnect_eq_shed hp hc

end Graph

end ArgumentMap
