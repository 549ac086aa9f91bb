import ArgumentMap.Proofs.Graph.Loading

/-!
# The graph after a load, card by card

The edges of a snapshot that the graph lacks are added once each, in their order.
So a card of the loaded graph is an old or a new one with the new edges behind
its old relations, on both sides.
-/

namespace ArgumentMap

namespace Graph

def linkAll (g : Graph) (edges : List Snapshot.Edge) : Graph :=
  edges.foldl (fun g e => g.link e.parent e.child) g

/-- The edges that a graph lacks, each where it comes first. -/
def missing (g : Graph) (edges : List Snapshot.Edge) : List Snapshot.Edge :=
  (edges.filter fun e => ¬g.hasEdge e.parent e.child).eraseDups

section
variable {g : Graph} {edges : List Snapshot.Edge}

theorem missing_cons_of_hasEdge {e : Snapshot.Edge} (he : g.hasEdge e.parent e.child = true) :
    g.missing (e :: edges) = g.missing edges := by
  simp [missing, he]

theorem missing_cons_of_not_hasEdge {e : Snapshot.Edge} (hp : g.contains e.parent = true)
    (he : g.hasEdge e.parent e.child = false) :
    g.missing (e :: edges) = e :: (g.link e.parent e.child).missing edges := by
  have hlater : ∀ d, d ∈ edges → (decide ¬(g.link e.parent e.child).hasEdge d.parent d.child) =
      (!d == e && decide ¬g.hasEdge d.parent d.child) := by
    intro d _
    have hd : d = e ↔ d.parent = e.parent ∧ d.child = e.child := by cases d; cases e; simp
    rw [Bool.eq_iff_iff]
    simp only [hasEdge_link hp, decide_eq_true_eq, Bool.and_eq_true, Bool.not_eq_true', not_or,
      beq_eq_false_iff_ne, ne_eq, hd]
    exact and_comm
  rw [missing, List.filter_cons_of_pos (by simp [he]), List.eraseDups_cons, List.filter_filter,
    missing, List.filter_congr hlater]

theorem foldl_draw_eq_linkAll (h : ∀ e ∈ edges, g.contains e.parent = true) :
    edges.foldl draw g = g.linkAll (g.missing edges) := by
  induction edges generalizing g with
  | nil => rfl
  | cons e edges ih =>
    obtain ⟨hp, hrest⟩ := List.forall_mem_cons.1 h
    rw [List.foldl_cons, draw]
    cases he : g.hasEdge e.parent e.child with
    | true => rw [if_pos (hasEdge_iff.1 he), ih hrest, missing_cons_of_hasEdge he]
    | false =>
      rw [if_neg (by simpa [hasEdge] using he), missing_cons_of_not_hasEdge hp he,
        ih fun d hd => (contains_link g _ _ _).trans (hrest d hd)]
      rfl

theorem find?_linkAll (x : NodeId) : (g.linkAll edges).find? x = (g.find? x).map fun n =>
    { n with
      children := n.children ++ (edges.filter (·.parent = x)).map (·.child)
      parents := n.parents ++ (edges.filter (·.child = x)).map (·.parent) } := by
  induction edges generalizing g with
  | nil => simp [linkAll]
  | cons e edges ih =>
    change ((g.link e.parent e.child).linkAll edges).find? x = _
    rw [ih, find?_link, Option.map_map]
    congr 1
    funext n
    simp only [List.filter_cons, decide_eq_true_eq, eq_comm (a := x)]
    split_ifs <;> simp

@[simp] theorem ids_linkAll : (g.linkAll edges).ids = g.ids := by
  induction edges generalizing g with
  | nil => rfl
  | cons e edges ih =>
    change ((g.link e.parent e.child).linkAll edges).ids = g.ids
    rw [ih, ids_link]

end

end Graph

namespace Snapshot

variable {s : Snapshot} {fresh : NodeId → Uuid} {g : Graph}

theorem missing_stock : (g.stock fresh s.cards).missing s.edges = g.missing s.edges := by
  have hsame : ∀ p c, (g.stock fresh s.cards).hasEdge p c = g.hasEdge p c := fun p c => by
    rw [Graph.hasEdge, Graph.hasEdge, Graph.children_stock]
  simp only [Graph.missing, hsame]

theorem addedTo_eq (h : s.check g = .ok ()) :
    s.addedTo fresh g = (g.stock fresh s.cards).linkAll (g.missing s.edges) := by
  obtain ⟨-, -, hedges⟩ := of_check h fresh
  rw [addedTo, Graph.foldl_draw_eq_linkAll fun e he => (hedges e he).2.1, missing_stock]

theorem find?_addedTo (h : s.check g = .ok ()) (fresh : NodeId → Uuid) (x : NodeId) :
    (s.addedTo fresh g).find? x = ((g.stock fresh s.cards).find? x).map fun n =>
      { n with
        children := n.children ++ ((g.missing s.edges).filter (·.parent = x)).map (·.child)
        parents := n.parents ++ ((g.missing s.edges).filter (·.child = x)).map (·.parent) } := by
  rw [addedTo_eq h, Graph.find?_linkAll]

theorem ids_addedTo (h : s.check g = .ok ()) :
    (s.addedTo fresh g).ids = g.ids ++ s.cards.map (·.id) := by
  rw [addedTo_eq h, Graph.ids_linkAll, Graph.ids_stock]

theorem find?_stock_of_card (h : s.check g = .ok ()) {c : Card} (hc : c ∈ s.cards) :
    (g.stock fresh s.cards).find? c.id = some (c.toNode fresh) := by
  obtain ⟨hn, hnew, -⟩ := of_check h fresh
  have hunknown : g.find? c.id = none := by simpa [Graph.contains] using hnew c hc
  -- among the new cards alone the identifiers are distinct
  have halone : (({} : Graph).stock fresh s.cards).find? (c.toNode fresh).id =
      some (c.toNode fresh) := by
    apply Graph.find?_of_mem
    · rw [Graph.ids_stock]
      exact hn
    · exact List.mem_map_of_mem hc
  rw [Graph.find?_stock] at halone ⊢
  rw [hunknown]
  exact halone

end Snapshot

end ArgumentMap
