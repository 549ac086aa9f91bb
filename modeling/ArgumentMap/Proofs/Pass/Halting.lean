import ArgumentMap.Proofs.Graph.Tally
import ArgumentMap.Proofs.Pass.Course
import Mathlib.Tactic.Ring

/-!
# Why the agenda runs empty

The steps that the cards and the tasks may still take bound those to an empty
agenda. A leaf may take those of the forced entries of its parents, and any
other card those of asking its neighbours once as an assertion. A card that reads
one leaf takes none, since no assertion can come of it again. Nothing is assumed
of the graph.
-/

open Finset

namespace ArgumentMap

namespace Graph

/-- The steps that a card may still ask for, where no card has more than `width`
relations. -/
def cardSteps (width : Nat) (g : Graph) (x : NodeId) : Nat :=
  if g.children x = [] then
    if g.role x = .interpretation then 0 else (4 + 4 * width) * (g.parents x).length
  else if g.role x = .assertion ∨ g.reading x ≠ none then 0
  else 2 * ((g.parents x).length + (g.children x).length)

theorem cardSteps_of_reading {g : Graph} {x c : NodeId} (h : g.reading x = some c) (width : Nat) :
    g.cardSteps width x = 0 := by
  have hx := (reading_eq_some_iff.1 h).1
  rw [cardSteps, if_neg (List.ne_nil_of_mem hx), if_pos (.inr (by simp [h]))]

theorem cardSteps_le (width : Nat) (g : Graph) (x : NodeId) : g.cardSteps width x ≤
    (4 + 4 * width) * ((g.parents x).length + (g.children x).length) := by
  simp only [cardSteps]
  have hle := Nat.mul_le_mul_right ((g.parents x).length + (g.children x).length)
    (by omega : 2 ≤ 4 + 4 * width)
  split_ifs
  · exact Nat.zero_le _
  · exact Nat.mul_le_mul_left _ (Nat.le_add_right _ _)
  · exact Nat.zero_le _
  · exact hle

theorem cardSteps_mono {width : Nat} {g h : Graph} {x : NodeId} (hrole : h.role x = g.role x)
    (hchildren : h.children x = g.children x) (hreading : h.reading x = g.reading x)
    (hparents : (h.parents x).length ≤ (g.parents x).length) :
    h.cardSteps width x ≤ g.cardSteps width x := by
  simp only [cardSteps]
  rw [hrole, hchildren, hreading]
  split_ifs
  · exact Nat.le_refl 0
  · exact Nat.mul_le_mul_left _ hparents
  · exact Nat.le_refl 0
  · omega

end Graph

/-- The steps that a task takes, with those that it asks for or makes a card ask
for again. -/
def Task.taskSteps (width : Nat) : Task → Nat
  | .raise _ _ _ true => 4 + 4 * width
  | .lower _ _ .source _ => 2 + 2 * width
  | _ => 2

namespace Pass

/-- The steps that a pass may still take: those of the cards and those of the agenda. -/
def agendaSteps (width : Nat) (g : Graph) (agenda : List Task) : Nat :=
  ∑ x ∈ g.keys, g.cardSteps width x + (agenda.map (Task.taskSteps width)).sum

theorem agendaSteps_append (width : Nat) (g : Graph) (l₁ l₂ : List Task) :
    agendaSteps width g (l₁ ++ l₂) =
      agendaSteps width g l₁ + (l₂.map (Task.taskSteps width)).sum := by
  simp [agendaSteps, Nat.add_assoc]

section
variable (width : Nat) (x : NodeId) (l : List NodeId)

theorem sum_taskSteps_read : ((l.map (Task.raise · x .interpretation true)).map
    (Task.taskSteps width)).sum = (4 + 4 * width) * l.length := by
  simp [Function.comp_def, Task.taskSteps, Nat.mul_comm]

theorem sum_taskSteps_claim : ((l.map (Task.raise · x .assertion false)).map
    (Task.taskSteps width)).sum = 2 * l.length := by
  simp [Function.comp_def, Task.taskSteps, Nat.mul_comm]

theorem sum_taskSteps_ground : ((l.map (Task.lower x · .interpretation true)).map
    (Task.taskSteps width)).sum = 2 * l.length := by
  simp [Function.comp_def, Task.taskSteps, Nat.mul_comm]

end

namespace Turn

variable {g g' : Graph} {t : Task} {writes width : Nat} {more : List Task}

theorem keys (h : Turn g t g' writes more) : g'.keys = g.keys := by
  rw [Graph.keys, Graph.keys, h.ids]

theorem cardSteps_of_ne (h : Turn g t g' writes more) {y : NodeId} (hy : y ≠ t.target) :
    g'.cardSteps width y ≤ g.cardSteps width y :=
  Graph.cardSteps_mono (h.role_of_ne hy) (h.children_of_ne hy) (h.reading_of_ne hy)
    (h.parents_sublist y).length_le

theorem agendaSteps_add_two_le (h : Turn g t g' writes more)
    (hw : ∀ x, (g.parents x).length + (g.children x).length ≤ width) :
    agendaSteps width g' more + 2 ≤ agendaSteps width g [t] := by
  have hother : ∀ y, y ≠ t.target → g'.cardSteps width y ≤ g.cardSteps width y :=
    fun y hy => h.cardSteps_of_ne hy
  have hkeys := h.keys
  simp only [agendaSteps]
  rw [hkeys]
  cases h with
  | @read x c hc hx hp =>
    have hk := Graph.mem_keys.2 (Graph.contains_of_mem_children hx)
    have hself := Graph.cardSteps_of_reading (Graph.reading_adopt hx hc) width
    have hsum := sum_add_le_sum (d := 0) hk (by rw [hself]; exact Nat.zero_le _) hother
    have hwidth := hw x
    simp only [List.map_cons, List.map_nil, List.sum_cons, List.sum_nil, sum_taskSteps_claim,
      Task.taskSteps]
    omega
  | @claim x c hc hx hp hr =>
    have hk := Graph.contains_of_mem_children hx
    have hne := List.ne_nil_of_mem hx
    have hbefore : g.cardSteps width x = 2 * ((g.parents x).length + (g.children x).length) := by
      rw [Graph.cardSteps, if_neg hne, if_neg]
      simp [hr, Graph.reading_eq_none_of_mem hx hc]
    have hafter : (g.recast x .assertion).cardSteps width x = 0 := by
      rw [Graph.cardSteps, if_neg (by simpa using hne), if_pos]
      exact .inl (g.role_recast_self _ _ hk)
    have hsum := sum_add_le_sum (Graph.mem_keys.2 hk)
      (by rw [hafter, hbefore, Nat.zero_add] : _ + _ ≤ _) hother
    simp only [List.map_append, List.sum_append, List.map_cons, List.map_nil, List.sum_cons,
      List.sum_nil, sum_taskSteps_ground, sum_taskSteps_claim, Task.taskSteps]
    omega
  | claimed => simp [Task.taskSteps]
  | @ground p x hc hx hk hp hr =>
    have hbefore : g.cardSteps width x = (4 + 4 * width) * (g.parents x).length := by
      rw [Graph.cardSteps, if_pos hc, if_neg hr]
    have hafter : (g.recast x .interpretation).cardSteps width x = 0 := by
      rw [Graph.cardSteps, if_pos (by simpa using hc), if_pos]
      exact g.role_recast_self _ _ hk
    have hsum := sum_add_le_sum (Graph.mem_keys.2 hk)
      (by rw [hafter, hbefore, Nat.zero_add] : _ + _ ≤ _) hother
    simp only [List.map_cons, List.map_nil, List.sum_cons, List.sum_nil, sum_taskSteps_read,
      Task.taskSteps]
    omega
  | grounded => simp [Task.taskSteps]
  | @settle p x hc hx hk hp hr =>
    have hafter : (g.recast x .source).cardSteps width x ≤ 2 * width := by
      have hle := hw x
      rw [Graph.cardSteps, if_neg (by simpa using hc)]
      split_ifs
      · exact Nat.zero_le _
      · simp only [Graph.parents_recast, Graph.children_recast]
        omega
    have hsum := sum_le_sum_add (Graph.mem_keys.2 hk)
      (le_trans hafter (Nat.le_add_left _ (g.cardSteps width x))) hother
    simp only [List.map_cons, List.map_nil, List.sum_cons, List.sum_nil, Task.taskSteps]
    omega
  | settled => simp [Task.taskSteps]

theorem agendaSteps_append_add_two_le (h : Turn g t g' writes more)
    (hw : ∀ x, (g.parents x).length + (g.children x).length ≤ width) (rest : List Task) :
    agendaSteps width g' (more ++ rest) + 2 ≤ agendaSteps width g (t :: rest) := by
  have hpaid := h.agendaSteps_add_two_le hw
  have hafter := agendaSteps_append width g' more rest
  have hbefore := agendaSteps_append width g [t] rest
  rw [List.singleton_append] at hbefore
  omega

end Turn

section
variable {p : Pass Graph} {width : Nat} {t : Task} {rest : List Task}

theorem agendaSteps_cons (width : Nat) (g : Graph) (t : Task) (rest : List Task) :
    agendaSteps width g (t :: rest) = t.taskSteps width + agendaSteps width g rest := by
  simp only [agendaSteps, List.map_cons, List.sum_cons]
  omega

theorem two_le_taskSteps (width : Nat) (t : Task) : 2 ≤ t.taskSteps width := by
  simp only [Task.taskSteps]
  split <;> omega

/-- The agenda comes to the same end for all numbers of steps from the bound on, and
nothing is left of it then. -/
def Halts (p : Pass Graph) (agenda : List Task) (bound : Nat) : Prop :=
  ∃ o : Outcome (Pass Graph) (List Task), (∀ steps, bound ≤ steps → work steps agenda p = o) ∧
    ∀ left, o.result = .ok left → left = []

theorem halts_nil (p : Pass Graph) (bound : Nat) : Halts p [] bound := by
  refine ⟨⟨p, [], .ok []⟩, fun steps _ => work_nil steps p, fun left hleft => ?_⟩
  exact (Except.ok.inj hleft).symm

theorem halts_of_error {q : Pass Graph} {agenda : List Task} {log : List Event} {e : Failure}
    {n bound : Nat} (h : ∀ steps, work (steps + n) agenda p = ⟨q, log, .error e⟩)
    (hb : n ≤ bound) : Halts p agenda bound := by
  refine ⟨⟨q, log, .error e⟩, fun steps hs => ?_, fun left hleft => by cases hleft⟩
  obtain ⟨fewer, rfl⟩ := Nat.exists_eq_add_of_le' (by omega : n ≤ steps)
  exact h fewer

theorem Halts.cons_of_drop {n bound : Nat} (h : Halts p rest n)
    (hp : perform t p = ⟨p, [], .ok []⟩) (hb : n + 1 ≤ bound) : Halts p (t :: rest) bound := by
  obtain ⟨o, hsame, hdone⟩ := h
  refine ⟨o, fun steps hs => ?_, hdone⟩
  obtain ⟨fewer, rfl⟩ := Nat.exists_eq_add_of_le' (by omega : 1 ≤ steps)
  rw [work_cons_of_ok hp, List.nil_append, List.nil_append, hsame fewer (by omega)]

theorem Halts.cons_of_entry {p' : Pass Graph} {log : List Event} {more : List Task} {n bound : Nat}
    (h : Halts p' (more ++ rest) n) (ho : t.Open p.graph)
    (hp : perform t.entry p = ⟨p', log, .ok more⟩) (hb : n + 2 ≤ bound) :
    Halts p (t :: rest) bound := by
  obtain ⟨o, hsame, hdone⟩ := h
  refine ⟨⟨o.state, log ++ o.events, o.result⟩, fun steps hs => ?_, hdone⟩
  obtain ⟨fewer, rfl⟩ := Nat.exists_eq_add_of_le' (by omega : 2 ≤ steps)
  rw [work_cons_of_ok (perform_of_open ho), List.singleton_append, work_cons_of_ok hp,
    hsame fewer (by omega), List.nil_append]

theorem work_halts {agenda : List Task}
    (hw : ∀ x, (p.graph.parents x).length + (p.graph.children x).length ≤ width)
    (hd : ∀ t ∈ agenda, t.Due p.graph) : Halts p agenda (agendaSteps width p.graph agenda) := by
  -- Strong induction on those steps, since a turn may put many tasks on the agenda.
  induction hn : agendaSteps width p.graph agenda using Nat.strongRecOn generalizing agenda p with
  | ind n ih =>
    subst hn
    cases agenda with
    | nil => exact halts_nil p _
    | cons t rest =>
      have ht := hd t List.mem_cons_self
      have hrest : ∀ s ∈ rest, s.Due p.graph := fun s hs => hd s (List.mem_cons_of_mem t hs)
      have hcons := agendaSteps_cons width p.graph t rest
      have htwo := two_le_taskSteps width t
      by_cases ho : t.Open p.graph
      · cases hp : perform t.entry p with
        | mk p' log result =>
          cases result with
          | error e =>
            have hfail : ∀ steps, work (steps + 2) (t :: rest) p = ⟨p', log, .error e⟩ := by
              intro steps
              rw [work_cons_of_ok (perform_of_open ho), List.singleton_append,
                work_cons_of_error hp, List.nil_append]
            exact halts_of_error hfail (by omega)
          | ok more =>
            obtain ⟨-, writes, -, hturn⟩ := perform_entry_of_due ht ho hp
            have hless := hturn.agendaSteps_append_add_two_le hw rest
            have hw' := fun x => le_trans (hturn.relations_le x) (hw x)
            exact (ih _ (by omega) hw' (hturn.due_append hrest) rfl).cons_of_entry ho hp hless
      · rcases perform_of_not_open ht.entry_ne ho with hp | ⟨x, c, -, -, hp⟩
        · exact (ih _ (by omega) hw hrest rfl).cons_of_drop hp (by omega)
        · exact halts_of_error (n := 1) (fun steps => work_cons_of_error hp) (by omega)

end

section
variable {g g' : Graph} {id : NodeId} {role : Role} {origin : Option NodeId} {force : Bool}
  {writes : Nat} {more : List Task}

theorem taskSteps_asks_le (width : Nat) (cs ps : List NodeId) :
    ((asks id cs ps role).map (Task.taskSteps width)).sum ≤
      (4 + 4 * width) * (ps.length + cs.length) := by
  have hdown : ((cs.map (Task.lower id · .source false)).map (Task.taskSteps width)).sum =
      (2 + 2 * width) * cs.length := by
    simp [Function.comp_def, Task.taskSteps, Nat.mul_comm]
  have hcs := Nat.mul_le_mul_right cs.length (by omega : 2 + 2 * width ≤ 4 + 4 * width)
  have hcs' := Nat.mul_le_mul_right cs.length (by omega : 2 ≤ 4 + 4 * width)
  have hps := Nat.mul_le_mul_right ps.length (by omega : 2 ≤ 4 + 4 * width)
  rw [Nat.mul_add]
  by_cases hl : cs = []
  · rw [hl, asks_leaf, sum_taskSteps_read]
    omega
  · cases role with
    | interpretation =>
      simp only [asks_interpretation id ps hl, List.map_append, List.sum_append,
        sum_taskSteps_claim, hdown]
      omega
    | assertion =>
      simp only [asks_assertion id ps hl, List.map_append, List.sum_append, sum_taskSteps_claim,
        sum_taskSteps_ground]
      omega
    | source => simp [asks_source id ps hl]
    | unset => simp [asks_unset id ps hl]

theorem Entered.agendaSteps_lt_passBound (h : Entered g id role origin force g' writes more) :
    agendaSteps g.relationCount g' more + 1 ≤ g.passBound := by
  generalize hr : g.relationCount = r
  have hsum : ∑ x ∈ g'.keys, g'.cardSteps r x ≤ (4 + 4 * r) * r := by
    have hkeys : g'.keys = g.keys := by rw [Graph.keys, Graph.keys, h.ids]
    rw [hkeys]
    calc ∑ x ∈ g.keys, g'.cardSteps r x
        ≤ ∑ x ∈ g.keys, (4 + 4 * r) * ((g.parents x).length + (g.children x).length) :=
          sum_le_sum fun x _ => le_trans (Graph.cardSteps_le r g' x)
            (Nat.mul_le_mul_left _ (h.relations_le x))
      _ = (4 + 4 * r) * ∑ x ∈ g.keys, ((g.parents x).length + (g.children x).length) := by
          rw [mul_sum]
      _ ≤ (4 + 4 * r) * r := Nat.mul_le_mul_left _ (hr ▸ g.sum_relations_le)
  have hmore : (more.map (Task.taskSteps r)).sum ≤ (4 + 4 * r) * r := by
    rcases h.more_eq with rfl | ⟨cs, voice, rfl, -, hcs, -⟩
    · simp
    · have hone := g.length_relations_le id
      have hle := hcs.length_le
      exact le_trans (taskSteps_asks_le r cs _) (Nat.mul_le_mul_left _ (by omega))
  have hbound : 16 * (r + 1) * (r + 1) ≤ g.passBound := by
    rw [Graph.passBound_eq, hr]
    exact Nat.mul_le_mul (Nat.mul_le_mul_left _ (by omega)) (by omega)
  have hsquare : 16 * (r + 1) * (r + 1) =
      2 * ((4 + 4 * r) * r) + (8 * (r * r) + 24 * r + 16) := by ring
  rw [agendaSteps]
  omega

end

end Pass

end ArgumentMap
