import ArgumentMap.Graph.Basic
import ArgumentMap.Proofs.Graph.Lookup
import Mathlib.Logic.Basic

/-!
# What an audit reports

An audit reports the faults of a graph and nothing else, also where relations have
one end only, lead to unknown cards or repeat. All that is asked of the graph is
that no two cards share an identifier.
-/

namespace ArgumentMap.Graph

/-- The card `p` is known and lists `c` as a child. -/
def ListsChild (g : Graph) (p c : NodeId) : Prop := ∃ n ∈ g.nodes, n.id = p ∧ c ∈ n.children

def ListsParent (g : Graph) (p c : NodeId) : Prop := ∃ n ∈ g.nodes, n.id = c ∧ p ∈ n.parents

section
variable {g : Graph} {p c x : NodeId}

theorem ListsChild.known (h : g.ListsChild p c) : p ∈ g.ids := by
  obtain ⟨n, hn, rfl, -⟩ := h
  exact List.mem_map_of_mem hn

theorem ListsParent.known (h : g.ListsParent p c) : c ∈ g.ids := by
  obtain ⟨n, hn, rfl, -⟩ := h
  exact List.mem_map_of_mem hn

theorem listsChild_iff (hg : g.ids.Nodup) : g.ListsChild p c ↔ c ∈ g.children p := by
  constructor
  · intro h
    obtain ⟨n, hn, rfl, hc⟩ := h
    rwa [children_of_find? (find?_of_mem hg hn)]
  · intro h
    obtain ⟨n, hn⟩ := contains_iff_find?.1 (contains_of_mem_children h)
    exact ⟨n, mem_of_find? hn, id_of_find? hn, by rwa [children_of_find? hn] at h⟩

theorem listsParent_iff (hg : g.ids.Nodup) : g.ListsParent p c ↔ p ∈ g.parents c := by
  constructor
  · intro h
    obtain ⟨n, hn, rfl, hp⟩ := h
    rwa [parents_of_find? (find?_of_mem hg hn)]
  · intro h
    obtain ⟨n, hn⟩ := contains_iff_find?.1 (contains_of_mem_parents h)
    exact ⟨n, mem_of_find? hn, id_of_find? hn, by rwa [parents_of_find? hn] at h⟩

theorem recordsParent_eq (g : Graph) (p c : NodeId) :
    Store.recordsParent g p c = decide (p ∈ g.parents c) := by
  cases hc : g.find? c with
  | none => simp [Store.recordsParent, store_node_of_unknown hc, parents, hc]
  | some n => simp [Store.recordsParent, store_node_of_find? hc, parents_of_find? hc]

theorem mem_faultsAt_iff {n : Node} {f : Fault} : f ∈ Store.faultsAt g n ↔
    (n.id ∈ n.children ∨ n.id ∈ n.parents) ∧ f = .selfLoop n.id ∨
      (∃ c ∈ n.children, n.id ∉ g.parents c ∧ f = .asymmetricEdge n.id c) ∨
      (∃ p ∈ n.parents, n.id ∉ g.children p ∧ f = .asymmetricEdge p n.id) ∨
      (n.role = .interpretation ∧ 1 < n.children.length) ∧
        f = .overfullInterpretation n.id n.children.length := by
  have hguard : ∀ (P : Prop) [Decidable P] (e : Fault),
      f ∈ (if P then [e] else []) ↔ P ∧ f = e := by
    intro P _ e
    split_ifs with hP <;> simp [hP]
  simp only [Store.faultsAt, List.mem_append, hguard, List.mem_map, List.mem_filter,
    recordsParent_eq, Store.hasEdge, hasEdge, Bool.not_eq_true', decide_eq_false_iff_not, and_assoc,
    or_assoc, eq_comm (b := f)]

theorem selfLoop_mem_audit_iff :
    .selfLoop x ∈ g.audit ↔ g.ListsChild x x ∨ g.ListsParent x x := by
  simp only [audit_eq, List.mem_flatMap, mem_faultsAt_iff, ListsChild, ListsParent]
  constructor
  · intro h
    obtain ⟨n, hn, ⟨hloop, he⟩ | ⟨_, _, _, he⟩ | ⟨_, _, _, he⟩ | ⟨_, he⟩⟩ := h
    · obtain rfl := Fault.selfLoop.inj he
      exact hloop.imp (fun h => ⟨n, hn, rfl, h⟩) fun h => ⟨n, hn, rfl, h⟩
    all_goals cases he
  · intro h
    obtain ⟨n, hn, rfl, hc⟩ | ⟨n, hn, rfl, hp⟩ := h
    · exact ⟨n, hn, .inl ⟨.inl hc, rfl⟩⟩
    · exact ⟨n, hn, .inl ⟨.inr hp, rfl⟩⟩

/-- Whether the other card records the edge is looked up by its identifier, which is why no
other card may have it. -/
theorem asymmetricEdge_mem_audit_iff (hg : g.ids.Nodup) : .asymmetricEdge p c ∈ g.audit ↔
    g.ListsChild p c ∧ ¬g.ListsParent p c ∨ g.ListsParent p c ∧ ¬g.ListsChild p c := by
  simp only [audit_eq, List.mem_flatMap, mem_faultsAt_iff]
  constructor
  · intro h
    obtain ⟨n, hn, ⟨_, he⟩ | ⟨d, hd, hmissing, he⟩ | ⟨q, hq, hmissing, he⟩ | ⟨_, he⟩⟩ := h
    · cases he
    · obtain ⟨rfl, rfl⟩ := Fault.asymmetricEdge.inj he
      exact .inl ⟨⟨n, hn, rfl, hd⟩, mt (listsParent_iff hg).1 hmissing⟩
    · obtain ⟨rfl, rfl⟩ := Fault.asymmetricEdge.inj he
      exact .inr ⟨⟨n, hn, rfl, hq⟩, mt (listsChild_iff hg).1 hmissing⟩
    · cases he
  · intro h
    obtain ⟨⟨n, hn, rfl, hc⟩, hmissing⟩ | ⟨⟨n, hn, rfl, hp⟩, hmissing⟩ := h
    · exact ⟨n, hn, .inr (.inl ⟨c, hc, mt (listsParent_iff hg).2 hmissing, rfl⟩)⟩
    · exact ⟨n, hn, .inr (.inr (.inl ⟨p, hp, mt (listsChild_iff hg).2 hmissing, rfl⟩))⟩

theorem overfull_mem_faults_iff {k : Nat} : .overfullInterpretation x k ∈ g.audit ↔
    1 < k ∧ ∃ n ∈ g.nodes, n.id = x ∧ n.role = .interpretation ∧ n.children.length = k := by
  simp only [audit_eq, List.mem_flatMap, mem_faultsAt_iff]
  constructor
  · intro h
    obtain ⟨n, hn, ⟨_, he⟩ | ⟨_, _, _, he⟩ | ⟨_, _, _, he⟩ | ⟨⟨hr, hl⟩, he⟩⟩ := h
    · cases he
    · cases he
    · cases he
    · obtain ⟨rfl, rfl⟩ := Fault.overfullInterpretation.inj he
      exact ⟨hl, n, hn, rfl, hr, rfl⟩
  · intro h
    obtain ⟨hl, n, hn, rfl, hr, rfl⟩ := h
    exact ⟨n, hn, .inr (.inr (.inr ⟨⟨hr, hl⟩, rfl⟩))⟩

/-- Every relation joins two known cards and both record it, and no interpretation reads more
than one card. -/
def Flawless (g : Graph) : Prop :=
  (∀ p c, g.ListsChild p c ∨ g.ListsParent p c →
    p ≠ c ∧ p ∈ g.ids ∧ c ∈ g.ids ∧ g.ListsChild p c ∧ g.ListsParent p c) ∧
  ∀ n ∈ g.nodes, n.role = .interpretation → n.children.length ≤ 1

theorem audit_eq_nil_iff (hg : g.ids.Nodup) : g.audit = [] ↔ g.Flawless := by
  rw [List.eq_nil_iff_forall_not_mem]
  constructor
  · intro h
    refine ⟨fun p c hpc => ?_, fun n hn hr => ?_⟩
    · have hsame := mt (asymmetricEdge_mem_audit_iff hg).2 (h (.asymmetricEdge p c))
      rw [not_or, not_and_not_right, not_and_not_right] at hsame
      have hchild : g.ListsChild p c := hpc.elim id hsame.2
      have hparent := hsame.1 hchild
      refine ⟨?_, hchild.known, hparent.known, hchild, hparent⟩
      rintro rfl
      exact h (.selfLoop p) (selfLoop_mem_audit_iff.2 hpc)
    · apply Nat.le_of_not_lt
      intro hl
      exact h _ (overfull_mem_faults_iff.2 ⟨hl, n, hn, rfl, hr, rfl⟩)
  · intro h f hf
    obtain ⟨hedges, hsingle⟩ := h
    cases f with
    | selfLoop x => exact (hedges x x (selfLoop_mem_audit_iff.1 hf)).1 rfl
    | asymmetricEdge p c =>
      rcases (asymmetricEdge_mem_audit_iff hg).1 hf with ⟨hc, hp⟩ | ⟨hp, hc⟩
      · exact hp (hedges p c (.inl hc)).2.2.2.2
      · exact hc (hedges p c (.inr hp)).2.2.2.1
    | overfullInterpretation x k =>
      obtain ⟨hl, n, hn, -, hr, rfl⟩ := overfull_mem_faults_iff.1 hf
      exact Nat.not_le_of_lt hl (hsingle n hn hr)

/-- An edge is reported as asymmetric just if one of its two cards records it and the other one
does not or is unknown, a card as overfull just if it is an interpretation with several children,
and a card as a loop just if it lists itself. So nothing is reported just if there is no fault. -/
theorem audit_exact (hg : g.ids.Nodup) :
    (∀ p c, .asymmetricEdge p c ∈ g.audit ↔
      g.ListsChild p c ∧ ¬g.ListsParent p c ∨ g.ListsParent p c ∧ ¬g.ListsChild p c) ∧
    (∀ x k, .overfullInterpretation x k ∈ g.audit ↔
      1 < k ∧ ∃ n ∈ g.nodes, n.id = x ∧ n.role = .interpretation ∧ n.children.length = k) ∧
    (∀ x, .selfLoop x ∈ g.audit ↔ g.ListsChild x x ∨ g.ListsParent x x) ∧
    (g.audit = [] ↔ g.Flawless) :=
  ⟨fun _ _ => asymmetricEdge_mem_audit_iff hg, fun _ _ => overfull_mem_faults_iff,
    fun _ => selfLoop_mem_audit_iff, audit_eq_nil_iff hg⟩

end

def frayed : Graph where
  nodes :=
    [{ id := ⟨"a"⟩, role := .interpretation, children := [⟨"b"⟩, ⟨"b"⟩, ⟨"z"⟩] },
      { id := ⟨"b"⟩, parents := [⟨"a"⟩, ⟨"w"⟩] },
      { id := ⟨"c"⟩, parents := [⟨"a"⟩] }]

theorem audit_exact_frayed :
    frayed.ids.Nodup ∧ .asymmetricEdge ⟨"a"⟩ ⟨"z"⟩ ∈ frayed.audit ∧
      .asymmetricEdge ⟨"w"⟩ ⟨"b"⟩ ∈ frayed.audit ∧ .asymmetricEdge ⟨"a"⟩ ⟨"c"⟩ ∈ frayed.audit ∧
      .asymmetricEdge ⟨"a"⟩ ⟨"b"⟩ ∉ frayed.audit ∧
      .overfullInterpretation ⟨"a"⟩ 3 ∈ frayed.audit ∧ ¬frayed.Flawless := by
  have hids : frayed.ids.Nodup := by decide
  obtain ⟨hedges, hoverfull, -, hnone⟩ := audit_exact hids
  simp only [ListsChild, ListsParent] at hedges
  refine ⟨hids, (hedges _ _).2 (by decide), (hedges _ _).2 (by decide), (hedges _ _).2 (by decide),
    mt (hedges _ _).1 (by decide), (hoverfull _ _).2 (by decide), mt hnone.2 (by decide)⟩

end ArgumentMap.Graph
