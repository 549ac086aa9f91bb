import ArgumentMap.Proofs.Pass.Turn

/-!
# The course of a pass

Performing a task drops it or leads to an entry, which is one turn. `Clears`
derives a whole way to the empty agenda from turns, and a pass that leaves
nothing behind has taken one.
-/

namespace ArgumentMap.Pass

section
variable {p q : Pass Graph} {t : Task} {log : List Event} {more : List Task}

theorem perform_entry_of_due (hd : t.Due p.graph) (ho : t.Open p.graph)
    (h : perform t.entry p = ⟨q, log, .ok more⟩) :
    q.stats.calls = p.stats.calls + 1 ∧ ∃ writes,
      q.stats.typeWrites = p.stats.typeWrites + writes ∧ Turn p.graph t q.graph writes more := by
  obtain ⟨id, role, origin, force, he⟩ := t.entry_eq_enter
  rw [he] at h
  obtain ⟨-, hcalls, writes, hwrites, hentered⟩ := entered_of_enter h
  exact ⟨hcalls, writes, hwrites, turn_of_entered hd ho he hentered⟩

theorem perform_entry_succeeds (hg : p.graph.WellFormed) (ho : t.Open p.graph) :
    ∃ q log more, perform t.entry p = ⟨q, log, .ok more⟩ := by
  cases t with
  | enter => exact ho.elim
  | raise x c role force =>
    exact enter_succeeds hg (Graph.contains_of_mem_children ho.1) role (some c) force
  | lower x c role leaf => exact enter_succeeds hg ho.2.1 role (some x) false

theorem perform_of_open (ho : t.Open p.graph) : perform t p = ⟨p, [], .ok [t.entry]⟩ := by
  cases t with
  | enter => exact ho.elim
  | raise x c role force =>
    obtain ⟨hx, hp⟩ := ho
    obtain ⟨n, hn⟩ := Graph.contains_iff_find?.1 (Graph.contains_of_mem_children hx)
    rw [Graph.persists_of_find? hn] at hp
    rw [perform, Edit.view_bind_apply, if_pos (Graph.store_hasEdge_iff.2 hx), node_bind_of_find? hn]
    simp [hp, Task.entry]
  | lower x c role leaf =>
    obtain ⟨hx, hk, hp, hleaf⟩ := ho
    obtain ⟨n, hn⟩ := Graph.contains_iff_find?.1 hk
    rw [Graph.persists_of_find? hn] at hp
    rw [Graph.children_of_find? hn] at hleaf
    have hl : n.isLeaf = leaf := by
      rw [Bool.eq_iff_iff, ← hleaf, Node.isLeaf, List.isEmpty_iff]
    rw [perform, Edit.view_bind_apply, if_pos (Graph.store_hasEdge_iff.2 hx), node_bind_of_find? hn]
    simp [hp, hl, Task.entry]

theorem perform_of_not_open (hne : t.entry ≠ t) (ho : ¬t.Open p.graph) :
    perform t p = ⟨p, [], .ok []⟩ ∨ ∃ x c, c ∈ p.graph.children x ∧ p.graph.contains c = false ∧
      perform t p = ⟨p, [], .error (.nodeNotFound c)⟩ := by
  cases t with
  | enter => exact absurd rfl hne
  | raise x c role force =>
    left
    by_cases hx : c ∈ p.graph.children x
    · obtain ⟨n, hn⟩ := Graph.contains_iff_find?.1 (Graph.contains_of_mem_children hx)
      have hp : n.persisted = true := by
        by_contra hp
        exact ho ⟨hx, by rw [Graph.persists_of_find? hn]; simpa using hp⟩
      rw [perform, Edit.view_bind_apply, if_pos (Graph.store_hasEdge_iff.2 hx),
        node_bind_of_find? hn]
      simp [hp]
    · rw [perform, Edit.view_bind_apply, if_neg (mt Graph.store_hasEdge_iff.1 hx)]
      rfl
  | lower x c role leaf =>
    by_cases hx : c ∈ p.graph.children x
    · cases hn : p.graph.find? c with
      | none =>
        refine .inr ⟨x, c, hx, by simp [Graph.contains, hn], ?_⟩
        rw [perform, Edit.view_bind_apply, if_pos (Graph.store_hasEdge_iff.2 hx),
          node_bind_of_unknown hn]
      | some n =>
        left
        have hk := Graph.contains_of_find? hn
        have hshut : n.persisted = true ∨ n.isLeaf ≠ leaf := by
          by_contra hopen
          simp only [not_or, Bool.not_eq_true, ne_eq, not_not] at hopen
          refine ho ⟨hx, hk, by rw [Graph.persists_of_find? hn, hopen.1], ?_⟩
          rw [Graph.children_of_find? hn, ← hopen.2, Node.isLeaf, List.isEmpty_iff]
        rw [perform, Edit.view_bind_apply, if_pos (Graph.store_hasEdge_iff.2 hx),
          node_bind_of_find? hn]
        rcases hshut with h | h <;> simp [h]
    · left
      rw [perform, Edit.view_bind_apply, if_neg (mt Graph.store_hasEdge_iff.1 hx)]
      rfl

theorem work_nil (steps : Nat) (p : Pass Graph) : work steps [] p = ⟨p, [], .ok []⟩ := by
  cases steps <;> rfl

theorem work_cons_of_ok {steps : Nat} {rest : List Task}
    (h : perform t p = ⟨q, log, .ok more⟩) : work (steps + 1) (t :: rest) p =
      ⟨(work steps (more ++ rest) q).state, log ++ (work steps (more ++ rest) q).events,
        (work steps (more ++ rest) q).result⟩ := by
  rw [work, Edit.bind_apply_of_ok (a := more) p (by rw [h]), h]

theorem work_cons_of_error {steps : Nat} {rest : List Task} {e : Failure}
    (h : perform t p = ⟨q, log, .error e⟩) : work (steps + 1) (t :: rest) p =
      ⟨q, log, .error e⟩ := by
  rw [work, Edit.bind_apply_of_error (e := e) p (by rw [h]), h]

theorem work_cons_cases {steps : Nat} {rest left : List Task} (hd : t.Due p.graph)
    (h : work (steps + 1) (t :: rest) p = ⟨q, log, .ok left⟩) :
    (¬t.Open p.graph ∧ work steps rest p = ⟨q, log, .ok left⟩) ∨
    (steps = 0 ∧ left ≠ []) ∨
    (t.Open p.graph ∧ ∃ fewer p' log₁ log₂ more writes, steps = fewer + 1 ∧
      log = log₁ ++ log₂ ∧ perform t.entry p = ⟨p', log₁, .ok more⟩ ∧
      p'.stats.calls = p.stats.calls + 1 ∧
      p'.stats.typeWrites = p.stats.typeWrites + writes ∧ Turn p.graph t p'.graph writes more ∧
      work fewer (more ++ rest) p' = ⟨q, log₂, .ok left⟩) := by
  by_cases ho : t.Open p.graph
  · right
    rw [work_cons_of_ok (perform_of_open ho)] at h
    cases steps with
    | zero =>
      cases h
      exact .inl ⟨rfl, by simp⟩
    | succ fewer =>
      cases hp : perform t.entry p with
      | mk p' log₁ result =>
        cases result with
        | error e =>
          rw [List.singleton_append, work_cons_of_error hp] at h
          cases h
        | ok more =>
          rw [List.singleton_append, work_cons_of_ok hp] at h
          obtain ⟨hcalls, writes, hwrites, hturn⟩ := perform_entry_of_due hd ho hp
          cases hw : work fewer (more ++ rest) p' with
          | mk q' log₂ result =>
            rw [hw] at h
            cases h
            exact .inr ⟨ho, fewer, p', log₁, log₂, more, writes, rfl, rfl, rfl, hcalls, hwrites,
              hturn, hw⟩
  · left
    rcases perform_of_not_open hd.entry_ne ho with hp | ⟨x, c, -, -, hp⟩
    · rw [work_cons_of_ok hp] at h
      exact ⟨ho, h⟩
    · rw [work_cons_of_error hp] at h
      cases h

/-- A whole way to the empty agenda, turn by turn, with what it announces. -/
inductive Clears : Pass Graph → List Task → List Event → Pass Graph → Prop where
  | done (p : Pass Graph) : Clears p [] [] p
  | skip {p q : Pass Graph} {t : Task} {rest : List Task} {log : List Event} :
      t.Due p.graph → ¬t.Open p.graph → Clears p rest log q → Clears p (t :: rest) log q
  | visit {p p' q : Pass Graph} {t : Task} {rest more : List Task} {log log' : List Event}
      {writes : Nat} : t.Due p.graph → t.Open p.graph →
      perform t.entry p = ⟨p', log, .ok more⟩ → p'.stats.calls = p.stats.calls + 1 →
      p'.stats.typeWrites = p.stats.typeWrites + writes → Turn p.graph t p'.graph writes more →
      Clears p' (more ++ rest) log' q → Clears p (t :: rest) (log ++ log') q

theorem clears_of_work {steps : Nat} {agenda : List Task} (hd : ∀ t ∈ agenda, t.Due p.graph)
    (h : work steps agenda p = ⟨q, log, .ok []⟩) : Clears p agenda log q := by
  induction steps using Nat.strongRecOn generalizing agenda p log with
  | ind steps ih =>
    cases agenda with
    | nil =>
      rw [work_nil] at h
      cases h
      exact .done _
    | cons t rest =>
      have ht := hd t List.mem_cons_self
      have hrest : ∀ s ∈ rest, s.Due p.graph := fun s hs => hd s (List.mem_cons_of_mem t hs)
      cases steps with
      | zero => cases h
      | succ steps =>
        rcases work_cons_cases ht h with ⟨ho, h⟩ | ⟨-, h⟩ |
          ⟨ho, fewer, p', log₁, log₂, more, writes, rfl, rfl, hp, hcalls, hwrites, hturn, h⟩
        · exact .skip ht ho (ih steps (by omega) hrest h)
        · exact absurd rfl h
        · exact .visit ht ho hp hcalls hwrites hturn
            (ih fewer (by omega) (hturn.due_append hrest) h)

theorem work_succeeds (hg : p.graph.WellFormed) {agenda : List Task}
    (hd : ∀ t ∈ agenda, t.Due p.graph) (steps : Nat) :
    ∃ q log left, work steps agenda p = ⟨q, log, .ok left⟩ := by
  induction steps using Nat.strongRecOn generalizing agenda p with
  | ind steps ih =>
    cases agenda with
    | nil => exact ⟨_, _, _, work_nil steps p⟩
    | cons t rest =>
      have ht := hd t List.mem_cons_self
      have hrest : ∀ s ∈ rest, s.Due p.graph := fun s hs => hd s (List.mem_cons_of_mem t hs)
      cases steps with
      | zero => exact ⟨_, _, _, rfl⟩
      | succ steps =>
        by_cases ho : t.Open p.graph
        · rw [work_cons_of_ok (perform_of_open ho)]
          cases steps with
          | zero => exact ⟨_, _, _, rfl⟩
          | succ fewer =>
            obtain ⟨p', log₁, more, hp⟩ := perform_entry_succeeds hg ho
            obtain ⟨-, writes, -, hturn⟩ := perform_entry_of_due ht ho hp
            obtain ⟨q, log₂, left, hw⟩ := ih fewer (by omega) (hturn.wellFormed hg)
              (hturn.due_append hrest)
            exact ⟨q, log₁ ++ log₂, left, by
              rw [List.singleton_append, work_cons_of_ok hp, hw, List.nil_append]⟩
        · rcases perform_of_not_open ht.entry_ne ho with hp | ⟨x, c, hx, hc, -⟩
          · obtain ⟨q, log, left, hw⟩ := ih steps (by omega) hg hrest
            exact ⟨q, log, left, by rw [work_cons_of_ok hp, List.nil_append, hw, List.nil_append]⟩
          · rw [hg.contains_child hx] at hc
            cases hc

end

section
variable {p q : Pass Graph} {agenda : List Task} {log : List Event}

theorem Clears.ids (h : Clears p agenda log q) : q.graph.ids = p.graph.ids := by
  induction h with
  | done => rfl
  | skip _ _ _ ih => exact ih
  | visit _ _ _ _ _ hturn _ ih => exact ih.trans hturn.ids

theorem Clears.persists (h : Clears p agenda log q) (x : NodeId) :
    q.graph.persists x = p.graph.persists x := by
  induction h with
  | done => rfl
  | skip _ _ _ ih => exact ih
  | visit _ _ _ _ _ hturn _ ih => exact ih.trans (hturn.persists x)

theorem Clears.wellFormed (h : Clears p agenda log q) (hg : p.graph.WellFormed) :
    q.graph.WellFormed := by
  induction h with
  | done => exact hg
  | skip _ _ _ ih => exact ih hg
  | visit _ _ _ _ _ hturn _ ih => exact ih (hturn.wellFormed hg)

end

end ArgumentMap.Pass
