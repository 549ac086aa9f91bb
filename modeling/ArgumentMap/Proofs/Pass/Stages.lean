import ArgumentMap.Proofs.Pass.Run

/-!
# The stages of a pass

A pass can be looked at after each of its tasks. Past the first entry, what is left to do are
tasks that are due, and the first of them may have led to its entry already. So two stages in a
row differ by a turn or not at all, and what every turn preserves holds at every later stage.
-/

open Finset

namespace ArgumentMap

/-- A pass after its first `k` tasks, with what it announced so far and what is left to do. -/
def Graph.stage (g : Graph) (id : NodeId) (role : Role) (origin : Option NodeId) (force : Bool)
    (k : Nat) : Outcome (Pass Graph) (List Task) :=
  Pass.work k [.enter id role origin force] { graph := g }

namespace Pass

section
variable {p q : Pass Graph} {t : Task} {log : List Event} {agenda left more : List Task}

theorem work_zero (agenda : List Task) (p : Pass Graph) :
    work 0 agenda p = ⟨p, [], .ok agenda⟩ := by
  cases agenda <;> rfl

theorem work_one_of_ok (rest : List Task) (h : perform t p = ⟨q, log, .ok more⟩) :
    work 1 (t :: rest) p = ⟨q, log, .ok (more ++ rest)⟩ := by
  change work (0 + 1) (t :: rest) p = _
  rw [work_cons_of_ok h, work_zero, List.append_nil]

theorem work_add_of_ok {j : Nat} (h : work j agenda p = ⟨q, log, .ok left⟩) (k : Nat) :
    work (j + k) agenda p =
      ⟨(work k left q).state, log ++ (work k left q).events, (work k left q).result⟩ := by
  induction j generalizing agenda p log with
  | zero =>
    rw [work_zero] at h
    cases h
    rw [Nat.zero_add, List.nil_append]
  | succ j ih =>
    cases agenda with
    | nil =>
      rw [work_nil] at h
      cases h
      rw [work_nil, work_nil, List.nil_append]
    | cons t rest =>
      rw [Nat.succ_add]
      cases hp : perform t p with
      | mk p' log' result =>
        cases result with
        | error e =>
          rw [work_cons_of_error hp] at h
          cases h
        | ok more =>
          rw [work_cons_of_ok hp] at h ⊢
          cases hw : work j (more ++ rest) p' with
          | mk q' later result =>
            rw [hw] at h
            cases h
            rw [ih hw, List.append_assoc]

end

/-- A pass past its first entry. What is `left` are the tasks `asked`, but the first of them may
have led to its entry. -/
structure Underway (p : Pass Graph) (asked left : List Task) : Prop where
  wellFormed : p.graph.WellFormed
  due : ∀ t ∈ asked, t.Due p.graph
  shown : left = asked ∨
    ∃ t rest, asked = t :: rest ∧ t.Open p.graph ∧ left = t.entry :: rest

/-- What one task more makes of the tasks that were asked: the first one waits for its entry, comes
too late, or has its turn. -/
inductive Advance : Pass Graph → List Task → List Event → Pass Graph → List Task → Prop where
  | wait (p : Pass Graph) (asked : List Task) : Advance p asked [] p asked
  | drop {p : Pass Graph} {t : Task} {rest : List Task} : ¬t.Open p.graph →
      Advance p (t :: rest) [] p rest
  | turn {p q : Pass Graph} {t : Task} {rest more : List Task} {log : List Event} {writes : Nat} :
      t.Due p.graph → t.Open p.graph → perform t.entry p = ⟨q, log, .ok more⟩ →
      Turn p.graph t q.graph writes more → Advance p (t :: rest) log q (more ++ rest)

section
variable {p q : Pass Graph} {asked asked' left : List Task} {log : List Event}

theorem underway_of_due (hg : p.graph.WellFormed) (hd : ∀ t ∈ asked, t.Due p.graph) :
    Underway p asked asked :=
  ⟨hg, hd, .inl rfl⟩

theorem Underway.advance (h : Underway p asked left) : ∃ q log asked' left',
    work 1 left p = ⟨q, log, .ok left'⟩ ∧ Underway q asked' left' ∧
      Advance p asked log q asked' := by
  obtain ⟨hg, hd, hshown⟩ := h
  rcases hshown with rfl | ⟨t, rest, rfl, ho, rfl⟩
  · cases left with
    | nil => exact ⟨p, [], [], [], work_nil 1 p, underway_of_due hg hd, .wait p []⟩
    | cons t rest =>
      by_cases ho : t.Open p.graph
      · exact ⟨p, [], t :: rest, t.entry :: rest, work_one_of_ok rest (perform_of_open ho),
          ⟨hg, hd, .inr ⟨t, rest, rfl, ho, rfl⟩⟩, .wait p (t :: rest)⟩
      · rcases perform_of_not_open (hd t List.mem_cons_self).entry_ne ho with
          hp | ⟨x, c, hx, hc, -⟩
        · exact ⟨p, [], rest, rest, work_one_of_ok rest hp,
            underway_of_due hg fun s hs => hd s (List.mem_cons_of_mem t hs), .drop ho⟩
        · rw [hg.contains_child hx] at hc
          cases hc
  · have ht := hd t List.mem_cons_self
    obtain ⟨q, log, more, hp⟩ := perform_entry_succeeds hg ho
    obtain ⟨-, writes, -, hturn⟩ := perform_entry_of_due ht ho hp
    have hrest := hturn.due_append fun s hs => hd s (List.mem_cons_of_mem t hs)
    exact ⟨q, log, more ++ rest, more ++ rest, work_one_of_ok rest hp,
      underway_of_due (hturn.wellFormed hg) hrest, .turn ht ho hp hturn⟩

theorem Underway.called {x : NodeId} {r : Role} {o : Option NodeId} {f : Bool} {rest : List Task}
    (h : Underway p asked (.enter x r o f :: rest)) :
    ∃ t, asked = t :: rest ∧ t.Due p.graph ∧ t.Open p.graph ∧ t.entry = .enter x r o f := by
  obtain ⟨-, hdue, rfl | ⟨t, rest', rfl, ho, hleft⟩⟩ := h
  · cases hdue _ List.mem_cons_self
  · obtain ⟨hentry, rfl⟩ := List.cons.inj hleft
    exact ⟨t, rfl, hdue t List.mem_cons_self, ho, hentry.symm⟩

theorem Underway.run {I : Pass Graph → List Task → Prop} {K : Event → Prop}
    (hstep : ∀ {p q : Pass Graph} {asked asked' : List Task} {log : List Event},
      p.graph.WellFormed → I p asked → Advance p asked log q asked' →
        I q asked' ∧ ∀ e ∈ log, K e)
    (h : Underway p asked left) (hi : I p asked) (k : Nat) : ∃ q log asked' left',
      work k left p = ⟨q, log, .ok left'⟩ ∧ Underway q asked' left' ∧ I q asked' ∧
        ∀ e ∈ log, K e := by
  induction k with
  | zero => exact ⟨p, [], asked, left, work_zero left p, h, hi, by simp⟩
  | succ k ih =>
    obtain ⟨mid, log, asked₁, left₁, hwork, hmid, him, hlog⟩ := ih
    obtain ⟨q, log', asked₂, left₂, hone, hq, hadvance⟩ := hmid.advance
    obtain ⟨hiq, hlog'⟩ := hstep hmid.wellFormed him hadvance
    refine ⟨q, log ++ log', asked₂, left₂, ?_, hq, hiq, List.forall_mem_append.2 ⟨hlog, hlog'⟩⟩
    rw [work_add_of_ok hwork, hone]

theorem Advance.steady (h : Advance p asked log q asked') (hs : ∀ t ∈ asked, t.Steady p.graph) :
    ∀ t ∈ asked', t.Steady q.graph := by
  cases h with
  | wait => exact hs
  | drop => exact fun s hs' => hs s (List.mem_cons_of_mem _ hs')
  | turn _ _ _ hturn => exact hturn.steady_append fun s hs' => hs s (List.mem_cons_of_mem _ hs')

theorem Advance.ids (h : Advance p asked log q asked') : q.graph.ids = p.graph.ids := by
  cases h with
  | wait => rfl
  | drop => rfl
  | turn _ _ _ hturn => exact hturn.ids

/-- Past the first entry, the support of the first card is still to be settled, ahead of all else,
or only leaves are still asked to be sources. -/
def Settling (g : Graph) (id : NodeId) (p : Pass Graph) (asked : List Task) : Prop :=
  (∀ t ∈ asked, t.Steady p.graph) ∨
    ∃ c, asked = .lower id c .source false :: (g.parents id).map (.raise · id .assertion false)

theorem Settling.advance {g : Graph} {id : NodeId} (h : Settling g id p asked)
    (hadvance : Advance p asked log q asked') : Settling g id q asked' := by
  rcases h with hs | ⟨c, rfl⟩
  · exact .inl (hadvance.steady hs)
  · cases hadvance with
    | wait => exact .inr ⟨c, rfl⟩
    | drop => exact .inl fun _ => Task.steady_of_mem_raises
    | turn _ _ _ hturn =>
      obtain ⟨rfl, -⟩ := hturn.more_of_settle
      exact .inl fun _ => Task.steady_of_mem_raises

end

section
variable {p q : Pass Graph} {id : NodeId} {role : Role} {origin : Option NodeId} {force : Bool}
  {asked asked' : List Task} {log : List Event} {more : List Task}

theorem typeWrites_of_enter (hg : p.graph.WellFormed)
    (h : enter id role origin force p = ⟨q, log, .ok more⟩) :
    q.stats.typeWrites = p.stats.typeWrites +
      #{x ∈ p.graph.keys | q.graph.role x ≠ p.graph.role x} := by
  have hk : p.graph.contains id = true := (entered_of_enter h).1
  rcases enter_cases hg h with ⟨rfl, -⟩ | ⟨-, rfl, -⟩
  · simp [countCall]
  · have hself := p.graph.role_adopt_self id role origin hk
    have hother : ∀ x, x ≠ id → (p.graph.adopt id role origin).role x = p.graph.role x :=
      fun x hx => p.graph.role_adopt_of_ne id role origin x hx
    dsimp only
    by_cases hsame : p.graph.role id = role
    · have hnone : {x ∈ p.graph.keys | (p.graph.adopt id role origin).role x ≠ p.graph.role x} =
          ∅ := by
        refine filter_eq_empty_iff.2 fun x _ hx => hx ?_
        by_cases hxid : x = id
        · rw [hxid, hself, hsame]
        · exact hother x hxid
      rw [if_pos hsame, hnone, card_empty]
    · have hone : {x ∈ p.graph.keys | (p.graph.adopt id role origin).role x ≠ p.graph.role x} =
          {id} := by
        ext x
        rw [mem_filter, mem_singleton]
        refine ⟨fun hx => by_contra fun hxid => hx.2 (hother x hxid), ?_⟩
        rintro rfl
        exact ⟨Graph.mem_keys.2 hk, by rw [hself]; exact Ne.symm hsame⟩
      rw [if_neg hsame, hone, card_singleton]

theorem Advance.typeWrites (h : Advance p asked log q asked') (hg : p.graph.WellFormed) :
    q.stats.typeWrites = p.stats.typeWrites +
      #{x ∈ p.graph.keys | q.graph.role x ≠ p.graph.role x} := by
  cases h with
  | wait => simp
  | drop => simp
  | @turn _ t _ _ _ _ _ _ hp _ => cases t <;> exact typeWrites_of_enter hg hp

end

end Pass

namespace Graph

variable {g : Graph} {id : NodeId} {role : Role} {origin : Option NodeId} {force : Bool}

theorem stage_add_of_ok {q : Pass Graph} {log : List Event} {left : List Task} {j : Nat}
    (h : g.stage id role origin force j = ⟨q, log, .ok left⟩) (k : Nat) :
    g.stage id role origin force (j + k) =
      ⟨(Pass.work k left q).state, log ++ (Pass.work k left q).events,
        (Pass.work k left q).result⟩ :=
  Pass.work_add_of_ok h k

theorem stage_zero : g.stage id role origin force 0 =
    ⟨{ graph := g }, [], .ok [.enter id role origin force]⟩ :=
  Pass.work_zero _ _

theorem stage_unknown (h : g.contains id = false) (k : Nat) :
    g.stage id role origin force (k + 1) =
      ⟨{ graph := g, stats := { calls := 1 } }, [], .error (.nodeNotFound id)⟩ := by
  have hf : g.find? id = none := by simpa [contains] using h
  exact Pass.work_enter_of_error k (Pass.enter_unknown (p := { graph := g }) hf role origin force)

theorem stage_one (hg : g.WellFormed) (hk : g.contains id = true) (role : Role)
    (origin : Option NodeId) (force : Bool) : ∃ p log more,
    Pass.enter id role origin force { graph := g } = ⟨p, log, .ok more⟩ ∧
      g.stage id role origin force 1 = ⟨p, log, .ok more⟩ := by
  obtain ⟨p, log, more, henter⟩ := Pass.enter_succeeds (p := { graph := g }) hg hk role origin force
  have hone := Pass.work_one_of_ok (t := .enter id role origin force) [] henter
  rw [List.append_nil] at hone
  exact ⟨p, log, more, henter, hone⟩

theorem underway_at_stage (hg : g.WellFormed) (hk : g.contains id = true) (role : Role)
    (origin : Option NodeId) (force : Bool) (k : Nat) :
    ∃ p log asked left, g.stage id role origin force (k + 1) = ⟨p, log, .ok left⟩ ∧
      p.graph.ids = g.ids ∧ Pass.Underway p asked left ∧ Pass.Settling g id p asked := by
  obtain ⟨p, log, more, henter, hfirst⟩ := stage_one hg hk role origin force
  obtain ⟨-, -, writes, -, hentered⟩ := Pass.entered_of_enter henter
  have hunder := Pass.underway_of_due (hentered.wellFormed hg) hentered.due
  have hsettling : Pass.Settling g id p more := by
    rcases hentered.steady_or_settle with hs | ⟨c, -, rfl⟩
    · exact .inl hs
    · exact .inr ⟨c, rfl⟩
  obtain ⟨q, log', asked, left, hwork, hq, ⟨hids, hsettling'⟩, -⟩ :=
    hunder.run (I := fun q asked => q.graph.ids = g.ids ∧ Pass.Settling g id q asked)
      (K := fun _ => True)
      (fun _ hi hadvance => ⟨⟨hadvance.ids.trans hi.1, hi.2.advance hadvance⟩, fun _ _ => trivial⟩)
      ⟨hentered.ids, hsettling⟩ k
  refine ⟨q, log ++ log', asked, left, ?_, hids, hq, hsettling'⟩
  rw [Nat.add_comm, stage_add_of_ok hfirst, hwork]

theorem typeWrites_stage (hg : g.WellFormed) (k : Nat) :
    (g.stage id role origin force (k + 1)).state.stats.typeWrites =
      (g.stage id role origin force k).state.stats.typeWrites +
        #{x ∈ g.keys | (g.stage id role origin force (k + 1)).state.graph.role x ≠
          (g.stage id role origin force k).state.graph.role x} := by
  cases hk : g.contains id with
  | false =>
    cases k with
    | zero =>
      rw [stage_unknown hk, stage_zero]
      simp
    | succ k =>
      rw [stage_unknown hk, stage_unknown hk]
      simp
  | true =>
    cases k with
    | zero =>
      obtain ⟨p, log, more, henter, hfirst⟩ := stage_one hg hk role origin force
      rw [Nat.zero_add, hfirst, stage_zero]
      exact Pass.typeWrites_of_enter hg henter
    | succ k =>
      obtain ⟨p, log, asked, left, hstage, hids, hunder, -⟩ :=
        underway_at_stage hg hk role origin force k
      obtain ⟨q, log', asked', left', hone, -, hadvance⟩ := hunder.advance
      have hkeys : p.graph.keys = g.keys := by rw [keys, keys, hids]
      rw [stage_add_of_ok hstage, hone, hstage, ← hkeys]
      exact hadvance.typeWrites hunder.wellFormed

end Graph

end ArgumentMap
