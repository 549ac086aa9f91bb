import ArgumentMap.Proofs.Pass.Adopt

/-!
# One turn of a pass

Once the first card was entered, every task on the agenda is of one of four
kinds: to raise a parent of a leaf to an interpretation, to raise a parent of
another card to an assertion, to lower a leaf to an interpretation, and to
lower the support of an interpretation to a source. A turn is what one task does
to the graph.
-/

namespace ArgumentMap

namespace Task

def entry : Task → Task
  | .enter id role origin force => .enter id role origin force
  | .raise parent child role force => .enter parent role (some child) force
  | .lower parent child role _ => .enter child role (some parent) false

theorem entry_eq_enter (t : Task) :
    ∃ id role origin force, t.entry = .enter id role origin force := by
  cases t <;> exact ⟨_, _, _, _, rfl⟩

/-- Whether the edge of a task is still there and its other end may be entered. -/
def Open (g : Graph) : Task → Prop
  | .enter .. => False
  | .raise parent child _ _ => child ∈ g.children parent ∧ g.persists parent = false
  | .lower parent child _ leaf => child ∈ g.children parent ∧ g.contains child = true ∧
      g.persists child = false ∧ (g.children child = [] ↔ leaf = true)

/-- The tasks of a pass under way, by whether the cards they come from are leaves. -/
inductive Due (g : Graph) : Task → Prop where
  | read (p : NodeId) {c : NodeId} : g.children c = [] → Due g (.raise p c .interpretation true)
  | claim (p : NodeId) {c : NodeId} : g.children c ≠ [] → Due g (.raise p c .assertion false)
  | ground (p c : NodeId) : Due g (.lower p c .interpretation true)
  | settle (p c : NodeId) : Due g (.lower p c .source false)

theorem Due.congr {g h : Graph} {t : Task} (hd : t.Due g)
    (hleaf : ∀ x, h.children x = [] ↔ g.children x = []) : t.Due h := by
  cases hd with
  | read p hc => exact .read p ((hleaf _).2 hc)
  | claim p hc => exact .claim p (mt (hleaf _).1 hc)
  | ground p c => exact .ground p c
  | settle p c => exact .settle p c

def Steady (g : Graph) (t : Task) : Prop :=
  ∀ p c, t = .lower p c .source false → g.children c = []

theorem Steady.congr {g h : Graph} {t : Task} (hs : t.Steady g)
    (hleaf : ∀ x, h.children x = [] ↔ g.children x = []) : t.Steady h :=
  fun p c ht => (hleaf c).2 (hs p c ht)

theorem steady_of_mem_raises {g : Graph} {ps : List NodeId} {c : NodeId} {role : Role}
    {force : Bool} {t : Task} (ht : t ∈ ps.map (.raise · c role force)) : t.Steady g := by
  intro p d he
  obtain ⟨q, -, rfl⟩ := List.mem_map.1 ht
  cases he

theorem Due.entry_ne {g : Graph} {t : Task} (hd : t.Due g) : t.entry ≠ t := by
  cases hd <;> simp [entry]

end Task

namespace Pass

/-- What one open task does to the graph, with the roles it writes and the
tasks that follow from it. -/
inductive Turn (g : Graph) : Task → Graph → Nat → List Task → Prop where
  | read {x c : NodeId} : g.children c = [] → c ∈ g.children x → g.persists x = false →
      Turn g (.raise x c .interpretation true) (g.adopt x .interpretation (some c))
        (if g.role x = .interpretation then 0 else 1)
        (.lower x c .source false :: (g.parents x).map (.raise · x .assertion false))
  | claim {x c : NodeId} : g.children c ≠ [] → c ∈ g.children x → g.persists x = false →
      g.role x ≠ .assertion →
      Turn g (.raise x c .assertion false) (g.recast x .assertion) 1
        ((g.children x).map (.lower x · .interpretation true) ++
          (g.parents x).map (.raise · x .assertion false))
  | claimed {x c : NodeId} : g.role x = .assertion → Turn g (.raise x c .assertion false) g 0 []
  | ground {p x : NodeId} : g.children x = [] → x ∈ g.children p → g.contains x = true →
      g.persists x = false → g.role x ≠ .interpretation →
      Turn g (.lower p x .interpretation true) (g.recast x .interpretation) 1
        ((g.parents x).map (.raise · x .interpretation true))
  | grounded {p x : NodeId} : g.role x = .interpretation →
      Turn g (.lower p x .interpretation true) g 0 []
  | settle {p x : NodeId} : g.children x ≠ [] → x ∈ g.children p → g.contains x = true →
      g.persists x = false → g.role x ≠ .source →
      Turn g (.lower p x .source false) (g.recast x .source) 1 []
  | settled {p x : NodeId} : g.role x = .source → Turn g (.lower p x .source false) g 0 []

theorem turn_of_entered {g g' : Graph} {t : Task} {id : NodeId} {role : Role}
    {origin : Option NodeId} {force : Bool} {writes : Nat} {more : List Task} (hd : t.Due g)
    (ho : t.Open g) (ht : t.entry = .enter id role origin force)
    (he : Entered g id role origin force g' writes more) : Turn g t g' writes more := by
  cases hd with
  | @read x c hc =>
    obtain ⟨hx, hp⟩ := ho
    obtain ⟨rfl, rfl, rfl, rfl⟩ := Task.enter.inj ht
    cases he with
    | handing hpers => simp [hp] at hpers
    | taking _ _ =>
      have hasks : asks x (retained .interpretation (some c) (g.children x)) (g.parents x)
          .interpretation =
            .lower x c .source false :: (g.parents x).map (.raise · x .assertion false) := by
        simp [asks, retained_of_mem hx]
      rw [hasks]
      exact .read hc hx hp
  | @claim x c hc =>
    obtain ⟨hx, hp⟩ := ho
    obtain ⟨rfl, rfl, rfl, rfl⟩ := Task.enter.inj ht
    have hne : g.children x ≠ [] := List.ne_nil_of_mem hx
    cases he with
    | idle hi =>
      rcases hi with hi | hi
      · simp [hp] at hi
      · exact .claimed hi
    | taking _ hr =>
      have hrole : g.role x ≠ .assertion := fun h => by simpa using hr h
      rw [g.adopt_of_surplus_eq_nil x _ _ (surplus_of_fit (by simp) _),
        retained_of_fit (by simp), if_neg hrole]
      have hturn := Turn.claim hc hx hp hrole
      simpa [asks, hne] using hturn
  | ground p x =>
    obtain ⟨hx, hk, hp, hleaf⟩ := ho
    obtain ⟨rfl, rfl, rfl, rfl⟩ := Task.enter.inj ht
    have hnil : g.children x = [] := hleaf.2 rfl
    cases he with
    | idle hi =>
      rcases hi with hi | hi
      · simp [hp] at hi
      · exact .grounded hi
    | taking _ hr =>
      have hrole : g.role x ≠ .interpretation := fun h => by simpa using hr h
      rw [g.adopt_of_surplus_eq_nil x _ _ (surplus_of_fit (by simp [hnil]) _),
        retained_of_fit (by simp [hnil]), if_neg hrole]
      have hturn := Turn.ground hnil hx hk hp hrole
      simpa [asks, hnil] using hturn
  | settle p x =>
    obtain ⟨hx, hk, hp, hleaf⟩ := ho
    obtain ⟨rfl, rfl, rfl, rfl⟩ := Task.enter.inj ht
    have hne : g.children x ≠ [] := by simpa using hleaf
    cases he with
    | idle hi =>
      rcases hi with hi | hi
      · simp [hp] at hi
      · exact .settled hi
    | taking _ hr =>
      have hrole : g.role x ≠ .source := fun h => by simpa using hr h
      rw [g.adopt_of_surplus_eq_nil x _ _ (surplus_of_fit (by simp) _),
        retained_of_fit (by simp), if_neg hrole]
      have hturn := Turn.settle hne hx hk hp hrole
      simpa [asks, hne] using hturn

end Pass

def Task.target : Task → NodeId
  | .enter id _ _ _ => id
  | .raise parent _ _ _ => parent
  | .lower _ child _ _ => child

namespace Pass

namespace Turn

variable {g g' : Graph} {t : Task} {writes : Nat} {more : List Task}

theorem ids (h : Turn g t g' writes more) : g'.ids = g.ids := by
  cases h <;> simp

theorem contains (h : Turn g t g' writes more) (x : NodeId) : g'.contains x = g.contains x := by
  cases h <;> simp

theorem persists (h : Turn g t g' writes more) (x : NodeId) : g'.persists x = g.persists x := by
  cases h <;> simp

theorem children_eq_nil (h : Turn g t g' writes more) (x : NodeId) :
    g'.children x = [] ↔ g.children x = [] := by
  cases h with
  | read => exact g.children_adopt_eq_nil _ _ _ x
  | _ => simp

theorem children_sublist (h : Turn g t g' writes more) (x : NodeId) :
    (g'.children x).Sublist (g.children x) := by
  cases h with
  | read => exact g.children_adopt_sublist _ _ _ x
  | _ => simp

theorem parents_sublist (h : Turn g t g' writes more) (x : NodeId) :
    (g'.parents x).Sublist (g.parents x) := by
  cases h with
  | read => exact g.parents_adopt_sublist _ _ _ x
  | _ => simp

theorem relations_le (h : Turn g t g' writes more) (x : NodeId) :
    (g'.parents x).length + (g'.children x).length ≤
      (g.parents x).length + (g.children x).length :=
  Nat.add_le_add (h.parents_sublist x).length_le (h.children_sublist x).length_le

theorem wellFormed (h : Turn g t g' writes more) (hg : g.WellFormed) : g'.WellFormed := by
  cases h with
  | read => exact hg.adopt _ _ _
  | claim => exact hg.recast _ _ _
  | claimed => exact hg
  | ground => exact hg.recast _ _ _
  | grounded => exact hg
  | settle => exact hg.recast _ _ _
  | settled => exact hg

theorem role_of_ne (h : Turn g t g' writes more) {y : NodeId} (hy : y ≠ t.target) :
    g'.role y = g.role y := by
  cases h with
  | read => exact g.role_adopt_of_ne _ _ _ y hy
  | claim => exact g.role_recast_of_ne _ _ y hy
  | ground => exact g.role_recast_of_ne _ _ y hy
  | settle => exact g.role_recast_of_ne _ _ y hy
  | _ => rfl

theorem children_of_ne (h : Turn g t g' writes more) {y : NodeId} (hy : y ≠ t.target) :
    g'.children y = g.children y := by
  cases h with
  | read => exact g.children_adopt_of_ne _ _ _ y hy
  | _ => simp

theorem reading_of_ne (h : Turn g t g' writes more) {y : NodeId} (hy : y ≠ t.target) :
    g'.reading y = g.reading y :=
  Graph.reading_of_children_eq (h.children_of_ne hy) h.children_eq_nil

theorem due (h : Turn g t g' writes more) {s : Task} (hs : s.Due g) : s.Due g' :=
  hs.congr h.children_eq_nil

theorem more_of_settle {p x : NodeId} (h : Turn g (.lower p x .source false) g' writes more) :
    more = [] ∧ writes ≤ 1 := by
  cases h with
  | settle => exact ⟨rfl, Nat.le_refl 1⟩
  | settled => exact ⟨rfl, Nat.zero_le 1⟩

theorem due_of_mem_more (h : Turn g t g' writes more) {s : Task} (hs : s ∈ more) : s.Due g' := by
  refine Task.Due.congr ?_ h.children_eq_nil
  cases h with
  | read _ hx =>
    rcases List.mem_cons.1 hs with rfl | hs
    · exact .settle _ _
    · obtain ⟨p, -, rfl⟩ := List.mem_map.1 hs
      exact .claim p (List.ne_nil_of_mem hx)
  | claim _ hx =>
    rcases List.mem_append.1 hs with hs | hs
    · obtain ⟨c, -, rfl⟩ := List.mem_map.1 hs
      exact .ground _ c
    · obtain ⟨p, -, rfl⟩ := List.mem_map.1 hs
      exact .claim p (List.ne_nil_of_mem hx)
  | ground hc =>
    obtain ⟨p, -, rfl⟩ := List.mem_map.1 hs
    exact .read p hc
  | _ => simp at hs

theorem due_append (h : Turn g t g' writes more) {rest : List Task}
    (hrest : ∀ s ∈ rest, s.Due g) : ∀ s ∈ more ++ rest, s.Due g' := by
  intro s hs
  rcases List.mem_append.1 hs with hs | hs
  · exact h.due_of_mem_more hs
  · exact h.due (hrest s hs)

theorem steady_append (h : Turn g t g' writes more) {rest : List Task}
    (hrest : ∀ s ∈ rest, s.Steady g) : ∀ s ∈ more ++ rest, s.Steady g' := by
  intro s hs
  refine Task.Steady.congr ?_ h.children_eq_nil
  rcases List.mem_append.1 hs with hs | hs
  · intro p c he
    subst he
    cases h with
    | @read x d hc =>
      have hd : p = x ∧ c = d := by simpa using hs
      rwa [hd.2]
    | _ => simp at hs
  · exact hrest s hs

end Turn

section
variable {g g' : Graph} {id : NodeId} {role : Role} {origin : Option NodeId} {force : Bool}
  {writes : Nat} {more : List Task}

theorem due_of_mem_asks {cs ps : List NodeId} (hcs : cs = [] ↔ g.children id = []) {t : Task}
    (ht : t ∈ asks id cs ps role) : t.Due g := by
  rcases mem_asks_cases ht with ⟨hl, p, -, rfl⟩ | ⟨-, -, c, -, rfl⟩ | ⟨-, -, c, -, rfl⟩ |
    ⟨hl, -, p, -, rfl⟩
  · exact .read p (hcs.1 hl)
  · exact .settle id c
  · exact .ground id c
  · exact .claim p (mt hcs.2 hl)

theorem Entered.due (h : Entered g id role origin force g' writes more) :
    ∀ t ∈ more, t.Due g' := by
  intro t ht
  rcases h.more_eq with rfl | ⟨cs, voice, rfl, hcs, -, -⟩
  · simp at ht
  · exact due_of_mem_asks (hcs.trans (h.children_eq_nil id).symm) ht

theorem Entered.steady_or_settle (h : Entered g id role origin force g' writes more) :
    (∀ t ∈ more, t.Steady g') ∨ ∃ c ∈ g.children id, more = .lower id c .source false ::
      (g.parents id).map (.raise · id .assertion false) := by
  rcases h.more_eq with rfl | ⟨cs, voice, rfl, -, hsub, hone⟩
  · left
    intro t ht
    cases ht
  · by_cases hv : cs ≠ [] ∧ voice = .interpretation
    · obtain ⟨hl, rfl⟩ := hv
      obtain ⟨c, rfl⟩ : ∃ c, cs = [c] := List.length_eq_one_iff.1
        (Nat.le_antisymm (hone rfl) (List.length_pos_of_ne_nil hl))
      right
      refine ⟨c, List.singleton_sublist.1 hsub, ?_⟩
      rw [asks_interpretation id _ hl, List.map_singleton, List.singleton_append]
    · left
      intro t ht x c he
      subst he
      rcases mem_asks_cases ht with ⟨-, p, -, he⟩ | ⟨hl, hi, -⟩ | ⟨-, -, d, -, he⟩ |
        ⟨-, -, p, -, he⟩
      · cases he
      · exact absurd ⟨hl, hi⟩ hv
      · cases he
      · cases he

end

end Pass

end ArgumentMap
