import ArgumentMap.Proofs.Alike
import ArgumentMap.Proofs.Graph.Change
import ArgumentMap.Proofs.Graph.Loading

/-!
# Cards without their content

The outline of a graph has its cards in their places with their roles, marks and
relations, but without what is written on them and without their stable
identifiers. No edit of a graph needs more than the outline.
-/

namespace ArgumentMap

def Node.outline (n : Node) : Node := { n with stableId := .nil, body := .empty }

theorem Node.congr_outline {α : Type} {f : Node → α} (hf : ∀ n, f n.outline = f n) {n m : Node}
    (h : n.outline = m.outline) : f n = f m := by
  rw [← hf n, h, hf m]

namespace Graph

def outline (g : Graph) : Graph := { g with nodes := g.nodes.map Node.outline }

/-- The graphs say the same of a card, or both do not know it, but for its content. -/
def SameAt (g h : Graph) (x : NodeId) : Prop :=
  (g.find? x).map Node.outline = (h.find? x).map Node.outline

namespace SameAt

variable {g h : Graph} {x : NodeId} (hs : g.SameAt h x)
include hs

theorem read {α : Type} (read : Option Node → α)
    (hread : ∀ n, read (some n.outline) = read (some n)) : read (g.find? x) = read (h.find? x) := by
  have hmap : ∀ o : Option Node, read (o.map Node.outline) = read o := by
    intro o
    cases o with
    | none => rfl
    | some n => exact hread n
  rw [← hmap, hs, hmap]

theorem contains : g.contains x = h.contains x := hs.read Option.isSome fun _ => rfl

theorem children : g.children x = h.children x := hs.read (readOff [] Node.children) fun _ => rfl

theorem parents : g.parents x = h.parents x := hs.read (readOff [] Node.parents) fun _ => rfl

theorem find? {n : Node} (hn : g.find? x = some n) :
    ∃ m, h.find? x = some m ∧ n.outline = m.outline := by
  rw [SameAt, hn, Option.map_some] at hs
  obtain ⟨m, hm, he⟩ := Option.map_eq_some_iff.1 hs.symm
  exact ⟨m, hm, he.symm⟩

theorem find?_none (hn : g.find? x = none) : h.find? x = none := by
  rw [SameAt, hn, Option.map_none] at hs
  exact Option.map_eq_none_iff.1 hs.symm

theorem node_known : Agrees (fun n m => n.outline = m.outline ∧ g.find? x = some n) (g.node x)
    (h.node x) := by
  cases hn : g.find? x with
  | none =>
    rw [node_eq_error_iff.2 ⟨hn, rfl⟩, node_eq_error_iff.2 ⟨hs.find?_none hn, rfl⟩]
    exact .error _
  | some n =>
    obtain ⟨m, hm, he⟩ := hs.find? hn
    rw [node_eq_ok_iff.2 hn, node_eq_ok_iff.2 hm]
    exact .ok ⟨he, rfl⟩

theorem node : Agrees (fun n m => n.outline = m.outline) (g.node x) (h.node x) :=
  hs.node_known.mono fun _ _ hboth => hboth.1

end SameAt

theorem disconnect_unknown_child {g : Graph} {parent child : NodeId}
    (hc : g.find? child = none) : g.disconnect parent child = .error (.nodeNotFound child) := by
  rw [disconnect, node_eq_error_iff.2 ⟨hc, rfl⟩]
  rfl

theorem disconnect_unknown_parent {g : Graph} {parent child : NodeId} {c : Node}
    (hc : g.find? child = some c) (hp : g.find? parent = none) :
    g.disconnect parent child = .error (.nodeNotFound parent) := by
  rw [disconnect, node_eq_ok_iff.2 hc, node_eq_error_iff.2 ⟨hp, rfl⟩]
  rfl

theorem SameAt.disconnect {g h : Graph} {parent child : NodeId} (hp : g.SameAt h parent)
    (hc : g.SameAt h child) :
    Agrees (fun r r' => r.1 = r'.1 ∧ r.2 = g.shed parent [child] ∧ r'.2 = h.shed parent [child])
      (g.disconnect parent child) (h.disconnect parent child) := by
  cases hfc : g.find? child with
  | none =>
    rw [disconnect_unknown_child hfc, disconnect_unknown_child (hc.find?_none hfc)]
    exact .error _
  | some c =>
    obtain ⟨c', hfc', -⟩ := hc.find? hfc
    cases hfp : g.find? parent with
    | none =>
      rw [disconnect_unknown_parent hfc hfp, disconnect_unknown_parent hfc' (hp.find?_none hfp)]
      exact .error _
    | some p =>
      obtain ⟨p', hfp', -⟩ := hp.find? hfp
      rw [disconnect_eq_shed (contains_of_find? hfp) (contains_of_find? hfc),
        disconnect_eq_shed (contains_of_find? hfp') (contains_of_find? hfc'), hp.children,
        hc.parents]
      exact .ok ⟨rfl, rfl, rfl⟩

section
variable {g h : Graph} {id : NodeId} {f : Node → Node}

theorem find?_outline (g : Graph) (x : NodeId) :
    g.outline.find? x = (g.find? x).map Node.outline := by
  rw [Graph.find?, outline, List.find?_map]
  rfl

theorem sameAt_of_outline (hs : g.outline = h.outline) (x : NodeId) : g.SameAt h x := by
  rw [SameAt, ← find?_outline, ← find?_outline, hs]

theorem sameAt_outline (g : Graph) (x : NodeId) : g.outline.SameAt g x := by
  rw [SameAt, find?_outline, Option.map_map]
  rfl

theorem outline_modify (hf : ∀ n, (f n).outline = f n.outline) :
    (g.modify id f).outline = g.outline.modify id f := by
  simp only [outline, modify, List.map_map, Graph.mk.injEq, true_and]
  refine List.map_congr_left fun n _ => ?_
  simp only [Function.comp_apply, apply_ite Node.outline, hf]
  rfl

theorem outline_setRole (g : Graph) (id : NodeId) (role : Role) :
    (g.setRole id role).outline = g.outline.setRole id role :=
  outline_modify fun _ => rfl

theorem outline_link (g : Graph) (parent child : NodeId) :
    (g.link parent child).outline = g.outline.link parent child := by
  rw [link, outline_modify, outline_modify, link] <;> exact fun _ => rfl

theorem outline_shed (g : Graph) (parent : NodeId) (cs : List NodeId) :
    (g.shed parent cs).outline = g.outline.shed parent cs := by
  simp only [outline, shed, List.map_map]
  rfl

theorem outline_reword (g : Graph) (id : NodeId) (text : String) :
    (g.reword id text).outline = g.outline := by
  simp only [reword, outline, modify, List.map_map, Graph.mk.injEq, true_and]
  refine List.map_congr_left fun n _ => ?_
  simp only [Function.comp_apply]
  split_ifs <;> rfl

theorem mint_outline (g : Graph) (u : Uuid) :
    g.outline.mint .nil = ((g.mint u).1, (g.mint u).2.outline) := by
  have hcount : g.outline.nodeCount = g.nodeCount := by simp [nodeCount, outline]
  have hcontains : ∀ x, g.outline.contains x = g.contains x := fun x =>
    (g.sameAt_outline x).contains
  have hnumbered : g.outline.numbered = g.numbered := rfl
  simp only [mint, hcount, hcontains, hnumbered]
  simp [outline, Node.outline, numbered]

end

end Graph

namespace Snapshot

def Card.outline (c : Card) : Card := { c with stableId := none, body := .empty }

def outline (s : Snapshot) : Snapshot := { s with cards := s.cards.map Card.outline }

end Snapshot

end ArgumentMap
