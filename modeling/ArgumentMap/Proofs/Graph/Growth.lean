import ArgumentMap.Proofs.Graph.Minting

/-!
# New edges and new cards

Adding an edge appends to two lists, and a new card has an identifier that no
other card has. Both keep a graph well-formed.
-/

namespace ArgumentMap.Graph

def link (g : Graph) (parent child : NodeId) : Graph :=
  (g.modify parent (·.addChild child)).modify child (·.addParent parent)

section
variable (g : Graph) (parent child x : NodeId)

theorem find?_link : (g.link parent child).find? x = (g.find? x).map fun n =>
    { n with
      children := if x = parent then n.children ++ [child] else n.children
      parents := if x = child then n.parents ++ [parent] else n.parents } := by
  rw [link, find?_modify, find?_modify]
  · cases g.find? x with
    | none => simp
    | some n =>
      simp only [Option.map_some, Node.addChild, Node.addParent]
      split_ifs <;> rfl
  · exact fun _ => rfl
  · exact fun _ => rfl

@[simp] theorem ids_link : (g.link parent child).ids = g.ids := by
  rw [link, ids_modify, ids_modify]
  · exact fun _ => rfl
  · exact fun _ => rfl

@[simp] theorem role_link : (g.link parent child).role x = g.role x := by
  simp only [role, find?_link]
  cases g.find? x <;> rfl

@[simp] theorem persists_link : (g.link parent child).persists x = g.persists x := by
  simp only [persists, find?_link]
  cases g.find? x <;> rfl

@[simp] theorem contains_link : (g.link parent child).contains x = g.contains x := by
  simp only [contains, find?_link]
  cases g.find? x <;> rfl

end

section
variable {g : Graph} {parent child : NodeId}

theorem children_link (hp : g.contains parent = true) (x : NodeId) :
    (g.link parent child).children x =
      if x = parent then g.children x ++ [child] else g.children x := by
  simp only [children, find?_link]
  cases hf : g.find? x with
  | none =>
    have hx : x ≠ parent := by
      intro he
      subst he
      simp [contains, hf] at hp
    simp [hx]
  | some n => rfl

theorem hasEdge_link (hp : g.contains parent = true) (x y : NodeId) :
    (g.link parent child).hasEdge x y = true ↔
      g.hasEdge x y = true ∨ x = parent ∧ y = child := by
  rw [hasEdge_iff, hasEdge_iff, children_link hp]
  split_ifs with hx <;> simp [hx]

theorem parents_link (hc : g.contains child = true) (x : NodeId) :
    (g.link parent child).parents x =
      if x = child then g.parents x ++ [parent] else g.parents x := by
  simp only [parents, find?_link]
  cases hf : g.find? x with
  | none =>
    have hx : x ≠ child := by
      intro he
      subst he
      simp [contains, hf] at hc
    simp [hx]
  | some n => rfl

theorem connect_eq_link (hp : g.contains parent = true) (hc : g.contains child = true)
    (hne : parent ≠ child) (hnew : child ∉ g.children parent) :
    g.connect parent child = .ok (true, g.link parent child) := by
  obtain ⟨p, hp⟩ := contains_iff_find?.1 hp
  obtain ⟨c, hc⟩ := contains_iff_find?.1 hc
  rw [children_of_find? hp] at hnew
  simp [connect, node_eq_ok_iff.2 hp, node_eq_ok_iff.2 hc, hne, hnew, link, bind, Except.bind,
    pure, Except.pure]

theorem WellFormed.link (hg : g.WellFormed) (hp : g.contains parent = true)
    (hc : g.contains child = true) (hne : parent ≠ child) (hnew : child ∉ g.children parent) :
    (g.link parent child).WellFormed := by
  have hnew' : parent ∉ g.parents child := mt hg.mem_children_iff.2 hnew
  refine wellFormed_iff.2 ⟨?_, ?_, ?_, ?_, ?_⟩
  · rw [ids_link]
    exact hg.nodup_ids
  · intro x
    rw [children_link hp]
    split_ifs with hx
    · subst hx
      exact List.nodup_append_comm.1 (List.nodup_cons.2 ⟨hnew, hg.nodup_children_of x⟩)
    · exact hg.nodup_children_of x
  · intro x
    rw [parents_link hc]
    split_ifs with hx
    · subst hx
      exact List.nodup_append_comm.1 (List.nodup_cons.2 ⟨hnew', hg.nodup_parents_of x⟩)
    · exact hg.nodup_parents_of x
  · intro x
    rw [children_link hp]
    split_ifs with hx
    · subst hx
      simpa [hne] using hg.notMem_children_self x
    · exact hg.notMem_children_self x
  · intro p c
    rw [children_link hp, parents_link hc]
    have hiff := hg.mem_children_iff (p := p) (c := c)
    by_cases hpp : p = parent <;> by_cases hcc : c = child <;> simp [hpp, hcc, ← hiff] at hiff ⊢
    all_goals exact hiff

end

def push (g : Graph) (n : Node) : Graph := { g with nodes := g.nodes ++ [n] }

section
variable {g : Graph} {n : Node}

theorem find?_push (h : g.contains n.id = false) (x : NodeId) :
    (g.push n).find? x = if x = n.id then some n else g.find? x := by
  rw [find?, push, List.find?_append]
  change (g.find? x).or _ = _
  by_cases hx : x = n.id
  · have hnone : g.find? n.id = none := by simpa [contains] using h
    rw [hx, hnone]
    simp
  · have hne : n.id ≠ x := fun he => hx he.symm
    simp [hx, hne]

theorem ids_push (g : Graph) (n : Node) : (g.push n).ids = g.ids ++ [n.id] := by
  simp [ids, push]

theorem read_push (h : g.contains n.id = false) {α : Type} (read : Option Node → α)
    (hread : read (some n) = read none) (x : NodeId) :
    read ((g.push n).find? x) = read (g.find? x) := by
  rw [find?_push h]
  split_ifs with hx
  · have hnone : g.find? n.id = none := by simpa [contains] using h
    rw [hx, hnone, hread]
  · rfl

theorem children_push (h : g.contains n.id = false) (hc : n.children = []) (x : NodeId) :
    (g.push n).children x = g.children x :=
  read_push h (readOff [] Node.children) hc x

theorem parents_push (h : g.contains n.id = false) (hp : n.parents = []) (x : NodeId) :
    (g.push n).parents x = g.parents x :=
  read_push h (readOff [] Node.parents) hp x

theorem WellFormed.push (hg : g.WellFormed) (h : g.contains n.id = false) (hc : n.children = [])
    (hp : n.parents = []) : (g.push n).WellFormed := by
  refine wellFormed_iff.2 ⟨?_, ?_, ?_, ?_, ?_⟩
  · rw [ids_push]
    have hfresh : n.id ∉ g.ids := by
      rw [← contains_iff_mem_ids, h]
      exact Bool.false_ne_true
    exact List.nodup_append_comm.1 (List.nodup_cons.2 ⟨hfresh, hg.nodup_ids⟩)
  · intro x
    rw [children_push h hc]
    exact hg.nodup_children_of x
  · intro x
    rw [parents_push h hp]
    exact hg.nodup_parents_of x
  · intro x
    rw [children_push h hc]
    exact hg.notMem_children_self x
  · intro p c
    rw [children_push h hc, parents_push h hp]
    exact hg.mem_children_iff

end

section
variable {g : Graph}

theorem ids_mint (g : Graph) (u : Uuid) : (g.mint u).2.ids = g.ids ++ [(g.mint u).1] := by
  simp [ids, mint]

@[simp] theorem children_mint (g : Graph) (u : Uuid) (x : NodeId) :
    (g.mint u).2.children x = g.children x :=
  children_push (g.mint_fresh u) rfl x

@[simp] theorem parents_mint (g : Graph) (u : Uuid) (x : NodeId) :
    (g.mint u).2.parents x = g.parents x :=
  parents_push (g.mint_fresh u) rfl x

@[simp] theorem role_mint (g : Graph) (u : Uuid) (x : NodeId) : (g.mint u).2.role x = g.role x :=
  read_push (g.mint_fresh u) (readOff Role.unset Node.role) rfl x

@[simp] theorem persists_mint (g : Graph) (u : Uuid) (x : NodeId) :
    (g.mint u).2.persists x = g.persists x :=
  read_push (g.mint_fresh u) (readOff false Node.persisted) rfl x

theorem find?_minted (g : Graph) (u : Uuid) :
    (g.mint u).2.find? (g.mint u).1 = some { id := (g.mint u).1, stableId := u } :=
  (find?_push (g.mint_fresh u) _).trans (if_pos rfl)

theorem find?_mint_of_ne {u : Uuid} {x : NodeId} (hx : x ≠ (g.mint u).1) :
    (g.mint u).2.find? x = g.find? x :=
  (find?_push (g.mint_fresh u) x).trans (if_neg hx)

theorem WellFormed.mint (hg : g.WellFormed) (u : Uuid) : (g.mint u).2.WellFormed :=
  (hg.push (g.mint_fresh u) rfl rfl).congr rfl (fun _ => rfl) fun _ => rfl

end

end ArgumentMap.Graph
