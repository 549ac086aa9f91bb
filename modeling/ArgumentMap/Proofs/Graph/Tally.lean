import ArgumentMap.Proofs.Graph.Relations
import ArgumentMap.Propagation
import Mathlib.Algebra.Order.BigOperators.Group.Finset
import Mathlib.Combinatorics.Enumerative.DoubleCounting

/-!
# Counting over the cards of a graph

Sums over the identifiers of a graph against the counts that walk its list of
cards. On a well-formed graph every edge is counted once from either end.
-/

open Finset

namespace ArgumentMap

theorem sum_add_le_sum {s : Finset NodeId} {f f' : NodeId → Nat} {x : NodeId} {d : Nat}
    (hx : x ∈ s) (hd : f' x + d ≤ f x) (ho : ∀ y, y ≠ x → f' y ≤ f y) :
    ∑ y ∈ s, f' y + d ≤ ∑ y ∈ s, f y := by
  have hrest : ∑ y ∈ s.erase x, f' y ≤ ∑ y ∈ s.erase x, f y :=
    sum_le_sum fun y hy => ho y (ne_of_mem_erase hy)
  rw [← add_sum_erase s f hx, ← add_sum_erase s f' hx]
  omega

theorem sum_le_sum_add {s : Finset NodeId} {f f' : NodeId → Nat} {x : NodeId} {d : Nat}
    (hx : x ∈ s) (hd : f' x ≤ f x + d) (ho : ∀ y, y ≠ x → f' y ≤ f y) :
    ∑ y ∈ s, f' y ≤ ∑ y ∈ s, f y + d := by
  have hrest : ∑ y ∈ s.erase x, f' y ≤ ∑ y ∈ s.erase x, f y :=
    sum_le_sum fun y hy => ho y (ne_of_mem_erase hy)
  rw [← add_sum_erase s f hx, ← add_sum_erase s f' hx]
  omega

namespace Graph

def keys (g : Graph) : Finset NodeId := g.ids.toFinset

section
variable {g : Graph}

theorem mem_keys {x : NodeId} : x ∈ g.keys ↔ g.contains x = true := by
  rw [keys, List.mem_toFinset, contains_iff_mem_ids]

theorem card_keys_le (g : Graph) : #g.keys ≤ g.nodeCount := by
  have h := g.ids.toFinset_card_le
  simpa [keys, ids, nodeCount] using h

theorem sum_find?_le (nodes : List Node) (f : Node → Nat) :
    ∑ x ∈ (nodes.map (·.id)).toFinset, ((nodes.find? (·.id = x)).elim 0 f) ≤
      nodes.foldr (fun n total => f n + total) 0 := by
  induction nodes with
  | nil => simp
  | cons n rest ih =>
    have hhead : ((n :: rest).find? (·.id = n.id)).elim 0 f = f n := by simp
    have htail : ∑ x ∈ ((rest.map (·.id)).toFinset).erase n.id,
        (((n :: rest).find? (·.id = x)).elim 0 f) ≤
          ∑ x ∈ (rest.map (·.id)).toFinset, ((rest.find? (·.id = x)).elim 0 f) := by
      refine le_trans (sum_le_sum fun x hx => ?_) (sum_le_sum_of_subset (erase_subset _ _))
      have hne : n.id ≠ x := fun he => ne_of_mem_erase hx he.symm
      rw [List.find?_cons_of_neg (by simpa using hne)]
    rw [List.map_cons, List.toFinset_cons, ← add_sum_erase _ _ (mem_insert_self n.id _), hhead,
      erase_insert_eq_erase, List.foldr_cons]
    omega

theorem length_children_eq (x : NodeId) :
    (g.children x).length = (g.find? x).elim 0 fun n => n.children.length := by
  rw [children]
  cases g.find? x <;> rfl

theorem length_parents_eq (x : NodeId) :
    (g.parents x).length = (g.find? x).elim 0 fun n => n.parents.length := by
  rw [parents]
  cases g.find? x <;> rfl

theorem sum_relations_le (g : Graph) :
    ∑ x ∈ g.keys, ((g.parents x).length + (g.children x).length) ≤ g.relationCount := by
  have h := sum_find?_le g.nodes fun n => n.parents.length + n.children.length
  apply le_trans _ h
  apply sum_le_sum
  intro x _
  simp only [length_children_eq, length_parents_eq, find?]
  cases g.nodes.find? (·.id = x) <;> simp

theorem sum_children_le (g : Graph) : ∑ x ∈ g.keys, (g.children x).length ≤ g.edgeCount := by
  have h := sum_find?_le g.nodes fun n => n.children.length
  apply le_trans _ h
  apply sum_le_sum
  intro x _
  rw [length_children_eq, find?]

theorem le_sum_keys (g : Graph) {f : NodeId → Nat} (hf : ∀ x, g.find? x = none → f x = 0)
    (x : NodeId) : f x ≤ ∑ y ∈ g.keys, f y := by
  by_cases hx : g.contains x = true
  · exact single_le_sum (fun _ _ => Nat.zero_le _) (mem_keys.2 hx)
  · have hnone : g.find? x = none := by simpa [contains] using hx
    rw [hf x hnone]
    exact Nat.zero_le _

theorem length_relations_le (g : Graph) (x : NodeId) :
    (g.parents x).length + (g.children x).length ≤ g.relationCount := by
  have hx := g.le_sum_keys (f := fun x => (g.parents x).length + (g.children x).length)
    (fun x hx => by simp [parents, children, hx]) x
  exact le_trans hx g.sum_relations_le

theorem length_children_le (g : Graph) (x : NodeId) : (g.children x).length ≤ g.edgeCount := by
  have hx := g.le_sum_keys (f := fun x => (g.children x).length)
    (fun x hx => by simp [children, hx]) x
  exact le_trans hx g.sum_children_le

namespace WellFormed

theorem sum_parents_eq (hg : g.WellFormed) :
    ∑ x ∈ g.keys, (g.parents x).length = ∑ x ∈ g.keys, (g.children x).length := by
  have hcount := sum_card_bipartiteAbove_eq_sum_card_bipartiteBelow (s := g.keys) (t := g.keys)
    fun p c => c ∈ g.children p
  have hbelow : ∀ c ∈ g.keys, #(g.keys.bipartiteBelow (fun p c => c ∈ g.children p) c) =
      (g.parents c).length := by
    intro c _
    have hset : g.keys.bipartiteBelow (fun p c => c ∈ g.children p) c = (g.parents c).toFinset := by
      ext p
      rw [mem_bipartiteBelow, List.mem_toFinset, ← hg.mem_children_iff, mem_keys]
      exact ⟨fun h => h.2, fun h => ⟨contains_of_mem_children h, h⟩⟩
    rw [hset, List.toFinset_card_of_nodup (hg.nodup_parents_of c)]
  have habove : ∀ p ∈ g.keys, #(g.keys.bipartiteAbove (fun p c => c ∈ g.children p) p) =
      (g.children p).length := by
    intro p _
    have hset : g.keys.bipartiteAbove (fun p c => c ∈ g.children p) p =
        (g.children p).toFinset := by
      ext c
      rw [mem_bipartiteAbove, List.mem_toFinset, mem_keys]
      exact ⟨fun h => h.2, fun h => ⟨hg.contains_child h, h⟩⟩
    rw [hset, List.toFinset_card_of_nodup (hg.nodup_children_of p)]
  rw [← sum_congr rfl hbelow, ← hcount, sum_congr rfl habove]

theorem sum_parents_le (hg : g.WellFormed) :
    ∑ x ∈ g.keys, (g.parents x).length ≤ g.edgeCount := by
  rw [hg.sum_parents_eq]
  exact g.sum_children_le

theorem length_parents_le (hg : g.WellFormed) (x : NodeId) :
    (g.parents x).length ≤ g.edgeCount := by
  have hx := g.le_sum_keys (f := fun x => (g.parents x).length)
    (fun x hx => by simp [parents, hx]) x
  exact le_trans hx hg.sum_parents_le

end WellFormed

end

end Graph

end ArgumentMap
