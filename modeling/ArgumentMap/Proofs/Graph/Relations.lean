import ArgumentMap.Proofs.Graph.Lookup

/-!
# Relations recorded on both ends

Well-formedness in terms of single cards, and that writing a role and taking
away support keep it.
-/

namespace ArgumentMap.Graph

variable {g : Graph}

theorem mem_children_iff_of_wellFormed (hg : g.WellFormed) (p c : NodeId) :
    c ∈ g.children p ↔ p ∈ g.parents c := by
  constructor
  · intro h
    obtain ⟨n, hn⟩ := contains_iff_find?.1 (contains_of_mem_children h)
    rw [children_of_find? hn] at h
    obtain ⟨m, hm, hid, hp⟩ := hg.child_knows n (mem_of_find? hn) c h
    rw [id_of_find? hn] at hp
    have hf := find?_of_mem hg.nodup_ids hm
    rw [hid] at hf
    rwa [parents_of_find? hf]
  · intro h
    obtain ⟨n, hn⟩ := contains_iff_find?.1 (contains_of_mem_parents h)
    rw [parents_of_find? hn] at h
    obtain ⟨m, hm, hid, hc⟩ := hg.parent_knows n (mem_of_find? hn) p h
    rw [id_of_find? hn] at hc
    have hf := find?_of_mem hg.nodup_ids hm
    rw [hid] at hf
    rwa [children_of_find? hf]

/-- What well-formedness says of the cards one by one. That both ends of an
edge are known follows, since an unknown card has no relations. -/
theorem wellFormed_iff : g.WellFormed ↔
    g.ids.Nodup ∧ (∀ x, (g.children x).Nodup) ∧ (∀ x, (g.parents x).Nodup) ∧
      (∀ x, x ∉ g.children x) ∧ ∀ p c, c ∈ g.children p ↔ p ∈ g.parents c := by
  constructor
  · intro hg
    refine ⟨hg.nodup_ids, ?_, ?_, ?_, mem_children_iff_of_wellFormed hg⟩
    · intro x
      cases hf : g.find? x with
      | none => simp [children, hf]
      | some n =>
        rw [children_of_find? hf]
        exact hg.nodup_children n (mem_of_find? hf)
    · intro x
      cases hf : g.find? x with
      | none => simp [parents, hf]
      | some n =>
        rw [parents_of_find? hf]
        exact hg.nodup_parents n (mem_of_find? hf)
    · intro x hx
      obtain ⟨n, hn⟩ := contains_iff_find?.1 (contains_of_mem_children hx)
      rw [children_of_find? hn] at hx
      have hi := hg.irreflexive n (mem_of_find? hn)
      rw [id_of_find? hn] at hi
      exact hi hx
  · intro h
    obtain ⟨hids, hchildren, hparents, hloop, hsymm⟩ := h
    have hfind : ∀ n ∈ g.nodes, g.find? n.id = some n := fun n hn => find?_of_mem hids hn
    refine ⟨hids, ?_, ?_, ?_, ?_, ?_⟩
    · intro n hn
      simpa only [children_of_find? (hfind n hn)] using hchildren n.id
    · intro n hn
      simpa only [parents_of_find? (hfind n hn)] using hparents n.id
    · intro n hn
      simpa only [children_of_find? (hfind n hn)] using hloop n.id
    · intro n hn c hc
      rw [← children_of_find? (hfind n hn), hsymm] at hc
      obtain ⟨m, hm⟩ := contains_iff_find?.1 (contains_of_mem_parents hc)
      rw [parents_of_find? hm] at hc
      exact ⟨m, mem_of_find? hm, id_of_find? hm, hc⟩
    · intro n hn p hp
      rw [← parents_of_find? (hfind n hn), ← hsymm] at hp
      obtain ⟨m, hm⟩ := contains_iff_find?.1 (contains_of_mem_children hp)
      rw [children_of_find? hm] at hp
      exact ⟨m, mem_of_find? hm, id_of_find? hm, hp⟩

namespace WellFormed

theorem nodup_children_of (hg : g.WellFormed) (x : NodeId) : (g.children x).Nodup :=
  (wellFormed_iff.1 hg).2.1 x

theorem nodup_parents_of (hg : g.WellFormed) (x : NodeId) : (g.parents x).Nodup :=
  (wellFormed_iff.1 hg).2.2.1 x

theorem notMem_children_self (hg : g.WellFormed) (x : NodeId) : x ∉ g.children x :=
  (wellFormed_iff.1 hg).2.2.2.1 x

theorem mem_children_iff (hg : g.WellFormed) {p c : NodeId} :
    c ∈ g.children p ↔ p ∈ g.parents c :=
  (wellFormed_iff.1 hg).2.2.2.2 p c

theorem contains_child (hg : g.WellFormed) {p c : NodeId} (h : c ∈ g.children p) :
    g.contains c = true :=
  contains_of_mem_parents (hg.mem_children_iff.1 h)

theorem congr {h : Graph} (hg : g.WellFormed) (hids : h.ids = g.ids)
    (hchildren : ∀ x, h.children x = g.children x) (hparents : ∀ x, h.parents x = g.parents x) :
    h.WellFormed := by
  rw [wellFormed_iff] at hg ⊢
  simpa only [hids, hchildren, hparents] using hg

theorem setRole (hg : g.WellFormed) (id : NodeId) (r : Role) : (g.setRole id r).WellFormed :=
  hg.congr (by simp) (by simp) (by simp)

theorem shed (hg : g.WellFormed) (parent : NodeId) (cs : List NodeId) :
    (g.shed parent cs).WellFormed := by
  refine wellFormed_iff.2 ⟨?_, ?_, ?_, ?_, ?_⟩
  · simpa using hg.nodup_ids
  · intro x
    rw [children_shed]
    split_ifs
    · exact (hg.nodup_children_of x).filter _
    · exact hg.nodup_children_of x
  · intro x
    rw [parents_shed]
    split_ifs
    · exact (hg.nodup_parents_of x).filter _
    · exact hg.nodup_parents_of x
  · intro x hx
    rw [children_shed] at hx
    split_ifs at hx
    · exact hg.notMem_children_self x (List.mem_filter.1 hx).1
    · exact hg.notMem_children_self x hx
  · intro p c
    rw [children_shed, parents_shed]
    by_cases hp : p = parent <;> by_cases hc : c ∈ cs <;> simp [hp, hc, hg.mem_children_iff]

end WellFormed

/-- A ring of support, and a leaf below one of its cards. -/
def tangle : Graph where
  nodes :=
    [{ id := ⟨"p"⟩, children := [⟨"a"⟩, ⟨"b"⟩], parents := [⟨"q"⟩] },
      { id := ⟨"a"⟩, parents := [⟨"p"⟩] },
      { id := ⟨"b"⟩, children := [⟨"q"⟩], parents := [⟨"p"⟩] },
      { id := ⟨"q"⟩, children := [⟨"p"⟩], parents := [⟨"b"⟩] }]

theorem tangle_wellFormed : tangle.WellFormed := by
  constructor <;> decide

end ArgumentMap.Graph
