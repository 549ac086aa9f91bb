import ArgumentMap.Graph.Arena
import ArgumentMap.Proofs.Alike
import ArgumentMap.Proofs.Graph.Growth
import ArgumentMap.Proofs.Graph.Listing

/-!
# The arena does what the list does

An arena represents a graph if its map finds the cards of the list, by identifiers of
which none is repeated, and its order names them as they stand in the list. Then both
answer every question alike, and every operation on both keeps it so.
-/

namespace ArgumentMap

theorem Graph.filterMap_find?_ids {g : Graph} (hg : g.ids.Nodup) :
    g.ids.filterMap g.find? = g.nodes := by
  rw [Graph.ids, List.filterMap_map]
  calc
    g.nodes.filterMap (g.find? ∘ Node.id)
        = g.nodes.filterMap some := List.filterMap_congr fun n hn => Graph.find?_of_mem hg hn
    _ = g.nodes := List.filterMap_some

namespace Arena

structure Represents (a : Arena) (g : Graph) : Prop where
  stem : a.stem = g.stem
  counter : a.counter = g.counter
  order : a.order = g.ids
  nodup : g.ids.Nodup
  card : ∀ id, a.cards[id]? = g.find? id

namespace Represents

section
variable {a : Arena} {g : Graph} (h : a.Represents g)
include h

theorem contains (id : NodeId) : a.contains id = g.contains id := by
  rw [Arena.contains, Std.HashMap.contains_eq_isSome_getElem?, h.card, Graph.contains]

theorem node (id : NodeId) : a.node id = g.node id := by
  cases hf : g.find? id <;> simp [Arena.node, Graph.node, h.card, hf]

theorem hasEdge (parent child : NodeId) : a.hasEdge parent child = g.hasEdge parent child := by
  rw [Arena.hasEdge, Graph.hasEdge, Graph.children, h.card]
  cases g.find? parent <;> simp

theorem nodes : a.nodes = g.nodes := by
  have hcard : (fun id => a.cards[id]?) = g.find? := funext h.card
  rw [Arena.nodes, hcard, h.order, Graph.filterMap_find?_ids h.nodup]

theorem toList_perm : List.Perm (a.cards.toList.map (·.2)) g.nodes := by
  have hperm : List.Perm a.cards.toList (g.nodes.map fun n => (n.id, n)) := by
    have hkeys : (a.cards.toList.map Prod.fst).Nodup := by
      rw [Std.HashMap.map_fst_toList_eq_keys]
      exact Std.HashMap.nodup_keys
    have hids : ((g.nodes.map fun n => (n.id, n)).map Prod.fst).Nodup := by
      rw [List.map_map]
      exact h.nodup
    refine (List.perm_ext_iff_of_nodup hkeys.of_map hids.of_map).2 fun ⟨id, n⟩ => ?_
    rw [Std.HashMap.mem_toList_iff_getElem?_eq_some, h.card, List.mem_map]
    constructor
    · intro hn
      exact ⟨n, Graph.mem_of_find? hn, by rw [Graph.id_of_find? hn]⟩
    · rintro ⟨m, hm, heq⟩
      obtain ⟨rfl, rfl⟩ := Prod.mk.inj heq
      exact Graph.find?_of_mem h.nodup hm
  simpa [Function.comp_def] using hperm.map Prod.snd

theorem nodeCount : a.nodeCount = g.nodeCount := by
  rw [Arena.nodeCount, ← Std.HashMap.length_toList, Graph.nodeCount, ← h.toList_perm.length_eq,
    List.length_map]

theorem edgeCount : a.edgeCount = g.edgeCount := calc
  a.edgeCount = ((a.cards.toList.map (·.2)).map (·.children.length)).sum := by
    rw [Arena.edgeCount, Std.HashMap.fold_eq_foldl_toList, List.sum_eq_foldl, List.foldl_map,
      List.foldl_map]
  _ = (g.nodes.map (·.children.length)).sum := (h.toList_perm.map _).sum_eq
  _ = g.edgeCount := by rw [Graph.edgeCount, List.sum, List.foldr_map]

theorem push {n : Node} (hnew : g.contains n.id = false) :
    Represents { a with cards := a.cards.insert n.id n, order := a.order ++ [n.id] }
      (g.push n) where
  stem := h.stem
  counter := h.counter
  order := by rw [Graph.ids_push, h.order]
  nodup := by
    have hid : n.id ∉ g.ids := by
      rw [← Graph.contains_iff_mem_ids, hnew]
      exact Bool.false_ne_true
    rw [Graph.ids_push]
    exact h.nodup.append (List.nodup_singleton _) (List.disjoint_singleton.2 hid)
  card x := by
    rw [Std.HashMap.getElem?_insert, h.card, Graph.find?_push hnew]
    by_cases hx : x = n.id
    · simp [hx]
    · simp [hx, Ne.symm hx]

theorem recount (k : Nat) : Represents { a with counter := k } { g with counter := k } :=
  { h with counter := rfl }

theorem modify (id : NodeId) (f : Node → Node) (hf : ∀ n, (f n).id = n.id) :
    Represents (a.modify id f) (g.modify id f) where
  stem := h.stem
  counter := h.counter
  order := by rw [Graph.ids_modify hf]; exact h.order
  nodup := by rw [Graph.ids_modify hf]; exact h.nodup
  card x := by
    rw [Graph.find?_modify hf, Arena.modify, Std.HashMap.getElem?_modify, h.card, h.card]
    by_cases hx : x = id
    · simp [hx]
    · simp [hx, Ne.symm hx]

theorem insert (n : Node) : Agrees Represents (a.insert n) (g.insert n) := by
  rw [Arena.insert, Graph.insert, h.contains]
  split_ifs with hnew
  · exact .error _
  · exact .ok (h.push (Bool.eq_false_iff.2 hnew))

theorem mint (stableId : Uuid) :
    (a.mint stableId).1 = (g.mint stableId).1 ∧
      Represents (a.mint stableId).2 (g.mint stableId).2 := by
  have hnumbered : a.numbered = g.numbered := by
    funext k
    rw [Arena.numbered, Graph.numbered, h.stem]
  have hfree : firstFree (fun k => a.contains (a.numbered k)) a.nodeCount a.counter =
      firstFree (fun k => g.contains (g.numbered k)) g.nodeCount g.counter := by
    simp only [h.contains, hnumbered, h.nodeCount, h.counter]
  have hnew := g.mint_fresh stableId
  rw [Graph.mint] at hnew ⊢
  rw [Arena.mint, hfree, hnumbered]
  generalize firstFree (fun k => g.contains (g.numbered k)) g.nodeCount g.counter = k at hnew ⊢
  have hpush := h.push (n := { id := g.numbered k, stableId := stableId }) hnew
  exact ⟨rfl, hpush.recount (k + 1)⟩

theorem setText (x : NodeId) (text : String) :
    Agrees Represents (a.setText x text) (g.setText x text) := by
  rw [Arena.setText, Graph.setText, h.node]
  cases g.node x with
  | error e => exact .error e
  | ok _ => exact .ok (h.modify x _ fun _ => rfl)

theorem connect (parent child : NodeId) :
    Agrees (fun r r' => r.1 = r'.1 ∧ Represents r.2 r'.2) (a.connect parent child)
      (g.connect parent child) := by
  rw [Arena.connect, Graph.connect, h.node, h.node]
  cases g.node child with
  | error e => exact .error e
  | ok _ =>
    change Agrees _ (if parent = child then _ else _) (if parent = child then _ else _)
    split_ifs
    · exact .ok ⟨rfl, h⟩
    · cases g.node parent with
      | error e => exact .error e
      | ok p =>
        change Agrees _ (if child ∈ p.children then _ else _) (if child ∈ p.children then _ else _)
        split_ifs
        · exact .ok ⟨rfl, h⟩
        · have hparent := h.modify parent (·.addChild child) fun _ => rfl
          exact .ok ⟨rfl, hparent.modify child (·.addParent parent) fun _ => rfl⟩

theorem disconnect (parent child : NodeId) :
    Agrees (fun r r' => r.1 = r'.1 ∧ Represents r.2 r'.2) (a.disconnect parent child)
      (g.disconnect parent child) := by
  rw [Arena.disconnect, Graph.disconnect, h.node, h.node]
  cases g.node child with
  | error e => exact .error e
  | ok c =>
    cases g.node parent with
    | error e => exact .error e
    | ok p =>
      have hparent := h.modify parent (·.dropChild child) fun _ => rfl
      exact .ok ⟨rfl, hparent.modify child (·.dropParent parent) fun _ => rfl⟩

theorem edges : Store.edges a = g.edges := by
  rw [Graph.edges_eq, ← h.nodes]
  rfl

theorem audit : Store.audit a = g.audit := by
  have hfaults : Store.faultsAt a = Store.faultsAt g := by
    have hrecords : Store.recordsParent a = Store.recordsParent g := by
      funext p c
      have hnode : Store.node a c = Store.node g c := h.node c
      rw [Store.recordsParent, Store.recordsParent, hnode]
    funext n
    have hedge : ∀ p, Store.hasEdge a p n.id = Store.hasEdge g p n.id := fun p =>
      h.hasEdge p n.id
    simp only [Store.faultsAt, hrecords, hedge]
  rw [Graph.audit_eq, ← hfaults, ← h.nodes]
  rfl

end

theorem empty (stem : String) : Represents { stem := stem } { stem := stem } where
  stem := rfl
  counter := rfl
  order := rfl
  nodup := List.nodup_nil
  card id := by simp [Graph.find?]

end Represents

/-- The two containers of an arena name the same cards, each under its own identifier, and the two
records of an edge agree. -/
structure WellFormed (a : Arena) : Prop where
  nodup_order : a.order.Nodup
  mem_order : ∀ id, id ∈ a.order ↔ id ∈ a.cards
  id_card : ∀ (id : NodeId) (n : Node), a.cards[id]? = some n → n.id = id
  known : ∀ (id : NodeId) (n : Node), a.cards[id]? = some n →
    ∀ x, x ∈ n.children ∨ x ∈ n.parents → x ∈ a.cards
  symmetric : ∀ (p c : NodeId) (m n : Node), a.cards[p]? = some m → a.cards[c]? = some n →
    (c ∈ m.children ↔ p ∈ n.parents)
  irreflexive : ∀ (id : NodeId) (n : Node), a.cards[id]? = some n →
    id ∉ n.children ∧ id ∉ n.parents
  nodup : ∀ (id : NodeId) (n : Node), a.cards[id]? = some n → n.children.Nodup ∧ n.parents.Nodup

section
variable {a : Arena} {g : Graph}

theorem mem_cards_iff {id : NodeId} : id ∈ a.cards ↔ ∃ n, a.cards[id]? = some n := by
  rw [Std.HashMap.mem_iff_isSome_getElem?, Option.isSome_iff_exists]

theorem Represents.wellFormed (h : a.Represents g) (hg : g.WellFormed) : a.WellFormed where
  nodup_order := by rw [h.order]; exact hg.nodup_ids
  mem_order id := by
    rw [h.order, mem_cards_iff, h.card, ← Graph.contains_iff_mem_ids, Graph.contains_iff_find?]
  id_card id n hn := by
    rw [h.card] at hn
    exact Graph.id_of_find? hn
  known id n hn x hx := by
    rw [h.card] at hn
    rw [← Graph.children_of_find? hn, ← Graph.parents_of_find? hn] at hx
    rw [mem_cards_iff, h.card, ← Graph.contains_iff_find?]
    rcases hx with hc | hp
    · exact hg.contains_child hc
    · exact Graph.contains_of_mem_children (hg.mem_children_iff.2 hp)
  symmetric p c m n hm hn := by
    rw [h.card] at hm hn
    rw [← Graph.children_of_find? hm, ← Graph.parents_of_find? hn]
    exact hg.mem_children_iff
  irreflexive id n hn := by
    rw [h.card] at hn
    rw [← Graph.children_of_find? hn, ← Graph.parents_of_find? hn, ← hg.mem_children_iff, and_self]
    exact hg.notMem_children_self id
  nodup id n hn := by
    rw [h.card] at hn
    rw [← Graph.children_of_find? hn, ← Graph.parents_of_find? hn]
    exact ⟨hg.nodup_children_of id, hg.nodup_parents_of id⟩

def toGraph (a : Arena) : Graph where
  stem := a.stem
  counter := a.counter
  nodes := a.nodes

theorem WellFormed.represents (ha : a.WellFormed) : a.Represents a.toGraph := by
  have hids : a.toGraph.ids = a.order := by
    have hself : ∀ id ∈ a.order, (a.cards[id]?).map Node.id = some id := by
      intro id hid
      obtain ⟨n, hn⟩ := mem_cards_iff.1 ((ha.mem_order id).1 hid)
      rw [hn, Option.map_some, ha.id_card id n hn]
    rw [Graph.ids, toGraph, nodes, List.map_filterMap]
    exact (List.filterMap_congr hself).trans List.filterMap_some
  have hnodup : a.toGraph.ids.Nodup := by
    rw [hids]
    exact ha.nodup_order
  refine ⟨rfl, rfl, hids.symm, hnodup, fun id => Option.ext fun n => ?_⟩
  constructor
  · intro hn
    have hid := (ha.mem_order id).2 (mem_cards_iff.2 ⟨n, hn⟩)
    have hmem : n ∈ a.toGraph.nodes := List.mem_filterMap.2 ⟨id, hid, hn⟩
    rw [← ha.id_card id n hn]
    exact Graph.find?_of_mem hnodup hmem
  · intro hn
    obtain ⟨x, -, hx⟩ := List.mem_filterMap.1 (Graph.mem_of_find? hn)
    rwa [← Graph.id_of_find? hn, ha.id_card x n hx]

theorem WellFormed.toGraph (ha : a.WellFormed) : a.toGraph.WellFormed := by
  have h := ha.represents
  have hcard : ∀ n ∈ a.toGraph.nodes, a.cards[n.id]? = some n := fun n hn => by
    rw [h.card]
    exact Graph.find?_of_mem h.nodup hn
  have hknown : ∀ x, x ∈ a.cards → ∃ n ∈ a.toGraph.nodes, n.id = x ∧ a.cards[x]? = some n := by
    intro x hx
    obtain ⟨n, hn⟩ := mem_cards_iff.1 hx
    have hf := h.card x ▸ hn
    exact ⟨n, Graph.mem_of_find? hf, Graph.id_of_find? hf, hn⟩
  refine ⟨h.nodup, fun n hn => (ha.nodup n.id n (hcard n hn)).1,
    fun n hn => (ha.nodup n.id n (hcard n hn)).2,
    fun n hn => (ha.irreflexive n.id n (hcard n hn)).1, fun p hp c hc => ?_, fun c hc p hp => ?_⟩
  · obtain ⟨n, hn, hid, hk⟩ := hknown c (ha.known p.id p (hcard p hp) c (.inl hc))
    exact ⟨n, hn, hid, (ha.symmetric p.id c p n (hcard p hp) hk).1 hc⟩
  · obtain ⟨n, hn, hid, hk⟩ := hknown p (ha.known c.id c (hcard c hc) p (.inr hp))
    exact ⟨n, hn, hid, (ha.symmetric p c.id n c hk (hcard c hc)).2 hp⟩

theorem WellFormed.asymmetricEdge_notMem_audit (ha : a.WellFormed) (p c : NodeId) :
    .asymmetricEdge p c ∉ Store.audit a := by
  rw [ha.represents.audit, Graph.mem_audit_iff ha.toGraph]
  rintro ⟨n, -, -, -, hf⟩
  cases hf

theorem WellFormed.count_edges (ha : a.WellFormed) (p c : NodeId) :
    (Store.edges a).count (p, c) = if Store.hasEdge a p c then 1 else 0 := by
  have hedge : Store.hasEdge a p c = a.toGraph.hasEdge p c := ha.represents.hasEdge p c
  rw [ha.represents.edges, hedge, Graph.count_edges ha.toGraph]

theorem WellFormed.edgeCount_eq (ha : a.WellFormed) :
    Store.edgeCount a = (Store.edges a).length := by
  have hcount : Store.edgeCount a = a.toGraph.edgeCount := ha.represents.edgeCount
  rw [ha.represents.edges, hcount, Graph.edgeCount_eq]

end

end Arena

end ArgumentMap
