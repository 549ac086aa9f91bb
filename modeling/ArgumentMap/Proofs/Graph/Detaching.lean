import ArgumentMap.Gesture
import ArgumentMap.Proofs.Graph.Relations

/-!
# What detaching takes away

Detaching a card removes exactly its edges to parents that are not persisted, on
both ends and in the order of the parents. What is left is not touched by
detaching it again.
-/

namespace ArgumentMap

def Node.free (n : Node) (id : NodeId) (ps : List NodeId) : Node :=
  { n with
    children := if n.id ∈ ps then n.children.filter (· ≠ id) else n.children
    parents := if n.id = id then n.parents.filter (· ∉ ps) else n.parents }

theorem Node.free_nil (n : Node) (id : NodeId) : n.free id [] = n := by
  cases n
  simp [free, List.filter_eq_self.2]

theorem Node.free_release (n : Node) (p id : NodeId) (ps : List NodeId) :
    (n.release p [id]).free id ps = n.free id (p :: ps) := by
  simp only [free, release, List.mem_cons, List.not_mem_nil, or_false, Node.mk.injEq, true_and]
  refine ⟨?_, ?_⟩
  · split_ifs
    · simp [List.filter_filter, Bool.and_comm]
    · rfl
  · by_cases hid : n.id = p <;> by_cases hps : n.id ∈ ps <;> simp [hid, hps]

namespace Graph

def free (g : Graph) (id : NodeId) (ps : List NodeId) : Graph :=
  { g with nodes := g.nodes.map (·.free id ps) }

section
variable (g : Graph) (id : NodeId) (ps : List NodeId) (x : NodeId)

theorem find?_free : (g.free id ps).find? x = (g.find? x).map (·.free id ps) := by
  have hp : (fun n => decide (n.id = x)) ∘ (fun n : Node => n.free id ps) =
      fun n : Node => decide (n.id = x) := rfl
  rw [find?, free, List.find?_map, hp, find?]

@[simp] theorem ids_free : (g.free id ps).ids = g.ids := by
  simp [ids, free, Function.comp_def, Node.free]

@[simp] theorem persists_free : (g.free id ps).persists x = g.persists x := by
  simp only [persists, find?_free]
  cases g.find? x <;> rfl

@[simp] theorem contains_free : (g.free id ps).contains x = g.contains x := by
  simp only [contains, find?_free]
  cases g.find? x <;> rfl

theorem children_free : (g.free id ps).children x =
    if x ∈ ps then (g.children x).filter (· ≠ id) else g.children x := by
  simp only [children, find?_free]
  cases h : g.find? x with
  | none => simp
  | some n => simp [Node.free, id_of_find? h]

theorem parents_free : (g.free id ps).parents x =
    if x = id then (g.parents x).filter (· ∉ ps) else g.parents x := by
  simp only [parents, find?_free]
  cases h : g.find? x with
  | none => simp
  | some n => simp [Node.free, id_of_find? h]

@[simp] theorem free_nil : g.free id [] = g := by
  simp [free, Node.free_nil]

theorem free_shed (p : NodeId) : (g.shed p [id]).free id ps = g.free id (p :: ps) := by
  simp only [free, shed, List.map_map, Function.comp_def, Node.free_release]

end

def loose (g : Graph) (ps : List NodeId) : List NodeId := ps.filter fun p => !g.persists p

section
variable {g : Graph} {id : NodeId} {ps : List NodeId}

theorem loose_congr {h : Graph} (hp : ∀ x, h.persists x = g.persists x) (ps : List NodeId) :
    h.loose ps = g.loose ps := by
  simp only [loose, hp]

theorem detachFrom_apply (hg : g.WellFormed) (hps : ps.Nodup) (hparents : ps ⊆ g.parents id) :
    detachFrom id ps g =
      ⟨g.free id (g.loose ps), (g.loose ps).map (.edgeRemoved · id), .ok (g.loose ps)⟩ := by
  -- The parents still to come stay parents while others are removed, since none repeats.
  induction ps generalizing g with
  | nil => simp [detachFrom, loose]
  | cons p ps ih =>
    obtain ⟨hp, hrest⟩ := List.cons_subset.1 hparents
    obtain ⟨hnew, hnodup⟩ := List.nodup_cons.1 hps
    have hedge : id ∈ g.children p := hg.mem_children_iff.2 hp
    obtain ⟨n, hn⟩ := contains_iff_find?.1 (contains_of_mem_children hedge)
    rw [detachFrom, Edit.ask_bind_apply_of_ok g (node_eq_ok_iff.2 hn)]
    cases hpers : n.persisted with
    | true =>
      have hloose : g.loose (p :: ps) = g.loose ps := by
        simp [loose, persists_of_find? hn, hpers]
      rw [if_pos rfl, ih hg hnodup hrest, hloose]
    | false =>
      have hloose : g.loose (p :: ps) = p :: g.loose ps := by
        simp [loose, persists_of_find? hn, hpers]
      have hstill : ps ⊆ (g.shed p [id]).parents id := by
        intro q hq
        rw [parents_shed, if_pos (List.mem_singleton_self id), List.mem_filter]
        exact ⟨hrest hq, decide_eq_true fun he => hnew (he ▸ hq)⟩
      have hrec := ih (hg.shed p [id]) hnodup hstill
      have hsame : (g.shed p [id]).loose ps = g.loose ps := loose_congr (by simp) ps
      rw [hsame, free_shed, ← hloose] at hrec
      have hcut := disconnect_eq_shed (contains_of_mem_children hedge)
        (contains_of_mem_parents hp)
      rw [if_neg (by simp), Edit.attempt_bind_apply_of_ok g hcut, if_pos (by simp [hedge]),
        Edit.announce_bind_apply, Edit.bind_pure_apply, hrec, hloose]
      rfl

theorem detachParents_apply (hg : g.WellFormed) (hid : g.contains id = true) :
    let ps := g.loose (g.parents id)
    detachParents id g = ⟨g.free id ps, ps.map (.edgeRemoved · id), .ok ps⟩ := by
  obtain ⟨n, hn⟩ := contains_iff_find?.1 hid
  rw [detachParents, Edit.ask_bind_apply_of_ok g (node_eq_ok_iff.2 hn), ← parents_of_find? hn]
  exact detachFrom_apply hg (hg.nodup_parents_of id) (List.Subset.refl _)

theorem WellFormed.free (hg : g.WellFormed) (id : NodeId) (ps : List NodeId) :
    (g.free id ps).WellFormed := by
  refine wellFormed_iff.2 ⟨?_, ?_, ?_, ?_, ?_⟩
  · simpa using hg.nodup_ids
  · intro x
    rw [children_free]
    split_ifs
    · exact (hg.nodup_children_of x).filter _
    · exact hg.nodup_children_of x
  · intro x
    rw [parents_free]
    split_ifs
    · exact (hg.nodup_parents_of x).filter _
    · exact hg.nodup_parents_of x
  · intro x hx
    rw [children_free] at hx
    split_ifs at hx
    · exact hg.notMem_children_self x (List.mem_filter.1 hx).1
    · exact hg.notMem_children_self x hx
  · intro p c
    rw [children_free, parents_free]
    by_cases hp : p ∈ ps <;> by_cases hc : c = id <;> simp [hp, hc, hg.mem_children_iff]

end

/-- The graph `h` is `g` with `id` taken off the given parents: each of them lost this one child,
`id` kept its persisted parents, and nothing else is different. -/
structure Detached (g : Graph) (id : NodeId) (ps : List NodeId) (h : Graph) : Prop where
  wellFormed : h.WellFormed
  parents_self : h.parents id = (g.parents id).filter (g.persists ·)
  children_of_mem : ∀ p ∈ ps, h.children p = (g.children p).filter (· ≠ id)
  parents_other : ∀ x, x ≠ id → h.parents x = g.parents x
  children_other : ∀ x, x ∉ ps → h.children x = g.children x
  cards : ∀ x, h.find? x =
    (g.find? x).map fun n => { n with parents := h.parents x, children := h.children x }
  ids : h.ids = g.ids
  series : h.stem = g.stem ∧ h.counter = g.counter

section
variable {g : Graph} {id : NodeId}

theorem filter_notMem_loose (g : Graph) (ps : List NodeId) :
    ps.filter (· ∉ g.loose ps) = ps.filter (g.persists ·) := by
  refine List.filter_congr fun p hp => ?_
  rw [Bool.eq_iff_iff, decide_eq_true_iff]
  simp [loose, hp]

theorem WellFormed.detached (hg : g.WellFormed) (id : NodeId) :
    g.Detached id (g.loose (g.parents id)) (g.free id (g.loose (g.parents id))) where
  wellFormed := hg.free id _
  parents_self := by rw [parents_free, if_pos rfl, filter_notMem_loose]
  children_of_mem p hp := by rw [children_free, if_pos hp]
  parents_other x hx := by rw [parents_free, if_neg hx]
  children_other x hx := by rw [children_free, if_neg hx]
  cards x := by
    rw [find?_free, parents_free, children_free]
    cases hn : g.find? x with
    | none => rfl
    | some n =>
      rw [parents_of_find? hn, children_of_find? hn, Option.map_some, Option.map_some, Node.free,
        id_of_find? hn]
  ids := ids_free g id _
  series := ⟨rfl, rfl⟩

/-- Detaching a card succeeds, with its parents that are not persisted in their order, announces
each of their edges once, and changes nothing else. Doing it again does nothing. -/
theorem detachParents_exact (hg : g.WellFormed) (hid : g.contains id = true) :
    let ps := (g.parents id).filter fun p => !g.persists p
    let o := detachParents id g
    o.result = .ok ps ∧ o.events = ps.map (.edgeRemoved · id) ∧ g.Detached id ps o.state ∧
      detachParents id o.state = ⟨o.state, [], .ok []⟩ := by
  intro ps o
  have ho : o = ⟨g.free id ps, ps.map (.edgeRemoved · id), .ok ps⟩ := detachParents_apply hg hid
  have hdetached : g.Detached id ps o.state := by
    rw [ho]
    exact hg.detached id
  refine ⟨by rw [ho], by rw [ho], hdetached, ?_⟩
  have hnone : o.state.loose (o.state.parents id) = [] := by
    have hpers : ∀ x, o.state.persists x = g.persists x := by
      rw [ho]
      exact persists_free g id ps
    rw [loose_congr hpers, hdetached.parents_self]
    simp [loose, List.filter_filter]
  have hknown : o.state.contains id = true := by
    rw [ho]
    exact (contains_free g id ps id).trans hid
  rw [detachParents_apply hdetached.wellFormed hknown, hnone, free_nil]
  rfl

end

def cited : Graph where
  nodes :=
    [{ id := ⟨"x"⟩, role := .source, parents := [⟨"p"⟩, ⟨"s"⟩, ⟨"q"⟩] },
      { id := ⟨"y"⟩, parents := [⟨"p"⟩] },
      { id := ⟨"p"⟩, role := .assertion, children := [⟨"x"⟩, ⟨"y"⟩] },
      { id := ⟨"s"⟩, role := .assertion, persisted := true, children := [⟨"x"⟩] },
      { id := ⟨"q"⟩, role := .interpretation, children := [⟨"x"⟩] }]

theorem cited_wellFormed : cited.WellFormed := by
  constructor <;> decide

theorem detachParents_exact_cited :
    let o := detachParents ⟨"x"⟩ cited
    cited.WellFormed ∧ cited.contains ⟨"x"⟩ = true ∧ o.result = .ok [⟨"p"⟩, ⟨"q"⟩] ∧
      o.events = [.edgeRemoved ⟨"p"⟩ ⟨"x"⟩, .edgeRemoved ⟨"q"⟩ ⟨"x"⟩] ∧
      o.state.parents ⟨"x"⟩ = [⟨"s"⟩] ∧ o.state.children ⟨"p"⟩ = [⟨"y"⟩] ∧
      o.state.children ⟨"s"⟩ = [⟨"x"⟩] ∧ detachParents ⟨"x"⟩ o.state = ⟨o.state, [], .ok []⟩ := by
  intro o
  have hknown : cited.contains ⟨"x"⟩ = true := by decide
  obtain ⟨hresult, hevents, hdetached, hagain⟩ := detachParents_exact cited_wellFormed hknown
  refine ⟨cited_wellFormed, hknown, hresult.trans rfl, hevents.trans (by decide),
    hdetached.parents_self.trans (by decide),
    (hdetached.children_of_mem ⟨"p"⟩ (by decide)).trans (by decide),
    (hdetached.children_other ⟨"s"⟩ (by decide)).trans (by decide), hagain⟩

end Graph

end ArgumentMap
