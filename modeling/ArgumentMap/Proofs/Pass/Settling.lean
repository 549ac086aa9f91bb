import ArgumentMap.Proofs.Pass.Run

/-!
# What a pass settles

A card that handed on its role has asked something of each neighbour. From then
on every such task is on the agenda, has been met, or is about to be asked anew
because the neighbour changed and will raise the card in its turn. At the end
all of them are met. Whatever else was on the agenda is met then as well, if it
did not ask for a source.
-/

namespace ArgumentMap

/-- Whether the card a task enters is as the task wants it. A card forced to read a
leaf also handed on its role. -/
def Task.Met (T : NodeId → Prop) (g : Graph) : Task → Prop
  | .enter .. => False
  | .raise parent child role force =>
    g.role parent = role ∧ (force = true → T parent ∧ g.children parent = [child])
  | .lower _ child role _ => g.role child = role

/-- A task that, once met, stays met: anything but to make a source of support. -/
structure Task.Firm (g : Graph) (t : Task) : Prop where
  due : t.Due g
  spares : ∀ p c, t ≠ .lower p c .source false

namespace Pass

def Answered (T : NodeId → Prop) (g : Graph) (agenda : List Task) (t : Task) : Prop :=
  t ∈ agenda ∨ (t.Open g → t.Met T g)

/-- The cards in `T` handed on their roles, and nothing they asked was forgotten. -/
structure Follows (T : NodeId → Prop) (g : Graph) (agenda : List Task) : Prop where
  editable : ∀ x, T x → g.persists x = false
  single : ∀ x, T x → g.role x = .interpretation → (g.children x).length ≤ 1
  asked : ∀ x, T x → ∀ t ∈ asks x (g.children x) (g.parents x) (g.role x),
    t ∈ agenda ∨ (t.Open g → t.Met T g) ∨
      ∃ c, t = .lower x c .source false ∧ .raise x c .assertion false ∈ agenda

section
variable {g g' : Graph} {T T' : NodeId → Prop} {t s : Task} {writes : Nat}
  {more rest : List Task}

theorem met_mono (hT : ∀ x, T x → T' x) (h : s.Met T g) : s.Met T' g := by
  cases s with
  | enter => exact h
  | raise p c role force => exact ⟨h.1, fun hf => ⟨hT p (h.2 hf).1, (h.2 hf).2⟩⟩
  | lower => exact h

theorem Answered.drop (h : Answered T g (t :: rest) s) (ht : t.Open g → t.Met T g) :
    Answered T g rest s := by
  rcases h with hin | hmet
  · rcases List.mem_cons.1 hin with rfl | hin
    · exact .inr ht
    · exact .inl hin
  · exact .inr hmet

theorem Follows.drop (h : Follows T g (t :: rest)) (ht : t.Open g → t.Met T g) :
    Follows T g rest := by
  refine ⟨h.editable, h.single, fun x hx s hs => ?_⟩
  rcases h.asked x hx s hs with hin | hmet | ⟨c, rfl, hin⟩
  · rcases List.mem_cons.1 hin with rfl | hin
    · exact .inr (.inl ht)
    · exact .inl hin
  · exact .inr (.inl hmet)
  · rcases List.mem_cons.1 hin with rfl | hin
    · -- An interpretation is open to the claim of the card it reads, which no role of it meets.
      rcases mem_asks_cases hs with ⟨-, p, -, he⟩ | ⟨-, hr, d, hd, he⟩ | ⟨-, -, d, -, he⟩ |
        ⟨-, -, p, -, he⟩
      · cases he
      · cases he
        have hmet := ht ⟨hd, h.editable x hx⟩
        have hclaimed : g.role x = .assertion := hmet.1
        rw [hr] at hclaimed
        cases hclaimed
      · cases he
      · cases he
    · exact .inr (.inr ⟨c, rfl, hin⟩)

theorem Turn.open_of_open (h : Turn g t g' writes more) (hs : s.Open g') : s.Open g := by
  cases s with
  | enter => exact hs
  | raise p c role force =>
    obtain ⟨hc, hp⟩ := hs
    rw [h.persists] at hp
    exact ⟨(h.children_sublist p).subset hc, hp⟩
  | lower p c role leaf =>
    obtain ⟨hc, hk, hp, hl⟩ := hs
    rw [h.contains] at hk
    rw [h.persists] at hp
    rw [h.children_eq_nil] at hl
    exact ⟨(h.children_sublist p).subset hc, hk, hp, hl⟩

theorem Turn.idle_or_takes (h : Turn g t g' writes more) (hg : g.WellFormed)
    (ho : t.Open g) (hs : t.Steady g) :
    (g' = g ∧ more = [] ∧ ∀ T, t.Met T g) ∨
    (g.persists t.target = false ∧
      (g'.role t.target = .interpretation → (g'.children t.target).length ≤ 1) ∧
      (∀ s ∈ asks t.target (g'.children t.target) (g'.parents t.target) (g'.role t.target),
        s ∈ more) ∧
      ∀ T : NodeId → Prop, T t.target → t.Met T g') := by
  cases h with
  | @read x c hc hx hp =>
    right
    have hrole := g.role_adopt_self x .interpretation (some c) (Graph.contains_of_mem_children hx)
    have hchildren : (g.adopt x .interpretation (some c)).children x = [c] := by
      rw [hg.children_adopt_self, retained_of_mem hx]
    refine ⟨hp, fun _ => ?_, fun s hs => ?_, fun T hT => ⟨hrole, fun _ => ⟨hT, hchildren⟩⟩⟩
    · change ((g.adopt x .interpretation (some c)).children x).length ≤ 1
      rw [hchildren, List.length_singleton]
    · change s ∈ asks x ((g.adopt x .interpretation (some c)).children x)
        ((g.adopt x .interpretation (some c)).parents x)
        ((g.adopt x .interpretation (some c)).role x) at hs
      rw [hchildren, hg.parents_adopt_self, hrole, asks_interpretation x _ (List.cons_ne_nil c [])]
        at hs
      exact hs
  | @claim x c hc hx hp hr =>
    right
    have hrole := g.role_recast_self x .assertion (Graph.contains_of_mem_children hx)
    refine ⟨hp, fun hi => ?_, fun s hs => ?_, fun _ _ => ⟨hrole, fun hf => absurd hf (by simp)⟩⟩
    · cases hrole.symm.trans hi
    · change s ∈ asks x ((g.recast x .assertion).children x) ((g.recast x .assertion).parents x)
        ((g.recast x .assertion).role x) at hs
      rwa [hrole, Graph.children_recast, Graph.parents_recast,
        asks_assertion x _ (List.ne_nil_of_mem hx)] at hs
  | claimed hr => exact .inl ⟨rfl, rfl, fun _ => ⟨hr, fun hf => absurd hf (by simp)⟩⟩
  | @ground p x hc hx hk hp hr =>
    right
    have hrole := g.role_recast_self x .interpretation hk
    refine ⟨hp, fun _ => ?_, fun s hs => ?_, fun _ _ => hrole⟩
    · change ((g.recast x .interpretation).children x).length ≤ 1
      rw [Graph.children_recast, hc]
      exact Nat.zero_le 1
    · change s ∈ asks x ((g.recast x .interpretation).children x)
        ((g.recast x .interpretation).parents x) ((g.recast x .interpretation).role x) at hs
      rwa [Graph.children_recast, Graph.parents_recast, hc, asks_leaf] at hs
  | grounded hr => exact .inl ⟨rfl, rfl, fun _ => hr⟩
  | settle hc => exact absurd (hs _ _ rfl) hc
  | settled hr => exact .inl ⟨rfl, rfl, fun _ => hr⟩

theorem Turn.met_of_ne (h : Turn g t g' writes more) (hne : s.target ≠ t.target)
    (hm : s.Met T g) : s.Met T g' := by
  cases s with
  | enter => exact hm
  | raise p c role force =>
    exact ⟨(h.role_of_ne hne).trans hm.1,
      fun hf => ⟨(hm.2 hf).1, (h.children_of_ne hne).trans (hm.2 hf).2⟩⟩
  | lower p c role leaf => exact (h.role_of_ne hne).trans hm

theorem Turn.met_of_met (h : Turn g t g' writes more) (hg : g.WellFormed) (hst : t.Steady g)
    (hs : s.Due g) (ho : s.Open g') (hm : s.Met T g) : s.Met T g' ∨
      ∃ x c, s = .lower x c .source false ∧ .raise x c .assertion false ∈ more := by
  have hog := h.open_of_open ho
  by_cases hne : s.target = t.target
  · cases h with
    | @read y c hc hy hp =>
      have hchildren : (g.adopt y .interpretation (some c)).children y = [c] := by
        rw [hg.children_adopt_self, retained_of_mem hy]
      cases hs with
      | @read p x hl =>
        obtain rfl : p = y := hne
        obtain ⟨hT, hone⟩ := hm.2 rfl
        have hcx : c = x := by simpa [hone] using hy
        refine .inl ⟨?_, fun _ => ⟨hT, hcx ▸ hchildren⟩⟩
        exact g.role_adopt_self _ _ _ (Graph.contains_of_mem_children hy)
      | @claim p x hl =>
        obtain rfl : p = y := hne
        have hxc : x = c := by simpa [hchildren] using ho.1
        exact absurd (hxc ▸ hc) hl
      | ground x d =>
        obtain rfl : d = y := hne
        exact absurd (hog.2.2.2.2 rfl) (List.ne_nil_of_mem hy)
      | settle x d =>
        obtain rfl : d = y := hne
        have hup := hg.mem_children_iff.1 hog.1
        exact .inr ⟨x, d, rfl, List.mem_cons_of_mem _ (List.mem_map_of_mem hup)⟩
    | @claim y c hc hy hp hr =>
      cases hs with
      | @read p x hl =>
        obtain rfl : p = y := hne
        have hcx : c = x := by simpa [(hm.2 rfl).2] using hy
        exact absurd (hcx ▸ hl) hc
      | @claim p x hl =>
        obtain rfl : p = y := hne
        exact absurd hm.1 hr
      | ground x d =>
        obtain rfl : d = y := hne
        exact absurd (hog.2.2.2.2 rfl) (List.ne_nil_of_mem hy)
      | settle x d =>
        obtain rfl : d = y := hne
        have hup := hg.mem_children_iff.1 hog.1
        exact .inr ⟨x, d, rfl, List.mem_append_right _ (List.mem_map_of_mem hup)⟩
    | claimed => exact .inl hm
    | @ground q y hc hy hk hp hr =>
      cases hs with
      | @read p x hl =>
        obtain rfl : p = y := hne
        exact absurd hc (List.ne_nil_of_mem hog.1)
      | @claim p x hl =>
        obtain rfl : p = y := hne
        exact absurd hc (List.ne_nil_of_mem hog.1)
      | ground x d =>
        obtain rfl : d = y := hne
        exact absurd hm hr
      | settle x d =>
        obtain rfl : d = y := hne
        exact absurd (hog.2.2.2.1 hc) (by simp)
    | grounded => exact .inl hm
    | settle hc => exact absurd (hst _ _ rfl) hc
    | settled => exact .inl hm
  · exact .inl (h.met_of_ne hne hm)

theorem Turn.follows (h : Turn g t g' writes more) (hg : g.WellFormed) (ho : t.Open g)
    (hst : t.Steady g) (hf : Follows T g (t :: rest)) :
    ∃ T' : NodeId → Prop, (∀ x, T x → T' x) ∧ (∀ x, ¬T' x → g'.role x = g.role x) ∧
      (∀ s : Task, s.Firm g → Answered T g (t :: rest) s →
        Answered T' g' (more ++ rest) s) ∧ Follows T' g' (more ++ rest) := by
  rcases h.idle_or_takes hg ho hst with ⟨rfl, rfl, hm⟩ | ⟨hp, hone, hmore, hm⟩
  · exact ⟨T, fun _ hx => hx, fun _ _ => rfl, fun s _ hs => hs.drop fun _ => hm T,
      hf.drop fun _ => hm T⟩
  · have hT : ∀ x, T x → x = t.target ∨ T x := fun x hx => .inr hx
    refine ⟨fun x => x = t.target ∨ T x, hT, fun x hx => ?_, fun s hs ha => ?_, ?_, ?_, ?_⟩
    · exact h.role_of_ne fun he => hx (.inl he)
    · rcases ha with hin | hmet
      · rcases List.mem_cons.1 hin with rfl | hin
        · exact .inr fun _ => hm _ (.inl rfl)
        · exact .inl (List.mem_append_right _ hin)
      · refine .inr fun hopen => ?_
        rcases h.met_of_met hg hst hs.due hopen (hmet (h.open_of_open hopen)) with
          hmet' | ⟨x, c, he, -⟩
        · exact met_mono hT hmet'
        · exact absurd he (hs.spares x c)
    · intro x hx
      rw [h.persists]
      rcases hx with rfl | hx
      · exact hp
      · exact hf.editable x hx
    · intro x hx hr
      by_cases hxt : x = t.target
      · rw [hxt] at hr ⊢
        exact hone hr
      · rw [h.role_of_ne hxt] at hr
        rw [h.children_of_ne hxt]
        exact hf.single x (hx.resolve_left hxt) hr
    · intro x hx s hs
      by_cases hxt : x = t.target
      · rw [hxt] at hs
        exact .inl (List.mem_append_left _ (hmore s hs))
      · rw [h.role_of_ne hxt, h.children_of_ne hxt] at hs
        have hbefore := asks_subset (h.parents_sublist x).subset hs
        rcases hf.asked x (hx.resolve_left hxt) s hbefore with hin | hmet | ⟨c, rfl, hin⟩
        · rcases List.mem_cons.1 hin with rfl | hin
          · exact .inr (.inl fun _ => hm _ (.inl rfl))
          · exact .inl (List.mem_append_right _ hin)
        · right
          by_cases hopen : s.Open g'
          · have hdue : s.Due g := due_of_mem_asks Iff.rfl hbefore
            rcases h.met_of_met hg hst hdue hopen (hmet (h.open_of_open hopen)) with
              hmet' | ⟨y, c, rfl, hin⟩
            · exact .inl fun _ => met_mono hT hmet'
            · obtain rfl := eq_of_lower_mem_asks hbefore
              exact .inr ⟨c, rfl, List.mem_append_left _ hin⟩
          · exact .inl fun ho' => absurd ho' hopen
        · rcases List.mem_cons.1 hin with rfl | hin
          · exact absurd rfl hxt
          · exact .inr (.inr ⟨c, rfl, List.mem_append_right _ hin⟩)

theorem Clears.follows {p q : Pass Graph} {agenda : List Task} {log : List Event}
    (h : Clears p agenda log q) (hg : p.graph.WellFormed) (hst : ∀ t ∈ agenda, t.Steady p.graph)
    (hf : Follows T p.graph agenda) :
    ∃ T' : NodeId → Prop, (∀ x, T x → T' x) ∧ (∀ x, ¬T' x → q.graph.role x = p.graph.role x) ∧
      (∀ s : Task, s.Firm p.graph → Answered T p.graph agenda s → Answered T' q.graph [] s) ∧
        Follows T' q.graph [] := by
  induction h generalizing T with
  | done p => exact ⟨T, fun _ hx => hx, fun _ _ => rfl, fun _ _ ha => ha, hf⟩
  | skip _ ho _ ih =>
    obtain ⟨T', hT, hrole, hans, hf'⟩ := ih hg (fun t ht => hst t (List.mem_cons_of_mem _ ht))
      (hf.drop fun h => absurd h ho)
    exact ⟨T', hT, hrole, fun s hs ha => hans s hs (ha.drop fun h => absurd h ho), hf'⟩
  | visit _ ho _ _ _ hturn _ ih =>
    obtain ⟨T₁, hT₁, hrole₁, hans₁, hf₁⟩ := hturn.follows hg ho (hst _ List.mem_cons_self) hf
    obtain ⟨T₂, hT₂, hrole₂, hans₂, hf₂⟩ := ih (hturn.wellFormed hg)
      (hturn.steady_append fun t ht => hst t (List.mem_cons_of_mem _ ht)) hf₁
    refine ⟨T₂, fun x hx => hT₂ x (hT₁ x hx), fun x hx => ?_, fun s hs ha => ?_, hf₂⟩
    · exact (hrole₂ x hx).trans (hrole₁ x fun h => hx (hT₂ x h))
    · exact hans₂ s ⟨hturn.due hs.due, hs.spares⟩ (hans₁ s hs ha)

end

def Took (g : Graph) (id : NodeId) (role : Role) (force : Bool) (x : NodeId) : Prop :=
  x = id ∧ g.persists id = false ∧ (g.role id = role → force = true)

section
variable {g g' : Graph} {id : NodeId} {role : Role} {origin : Option NodeId} {force : Bool}
  {writes : Nat} {more : List Task}

theorem Entered.role_of_not_took (h : Entered g id role origin force g' writes more)
    {x : NodeId} (hx : ¬Took g id role force x) : g'.role x = g.role x := by
  cases h with
  | idle => rfl
  | handing => rfl
  | taking hp hr =>
    apply g.role_adopt_of_ne
    intro he
    exact hx ⟨he, hp, hr⟩

theorem Entered.took (h : Entered g id role origin force g' writes more) (hg : g.WellFormed)
    (hk : g.contains id = true) {x : NodeId} (hx : Took g id role force x) :
    (g'.role x = .interpretation → (g'.children x).length ≤ 1) ∧
      ∀ t ∈ asks x (g'.children x) (g'.parents x) (g'.role x), t ∈ more := by
  obtain ⟨rfl, hp, hr⟩ := hx
  cases h with
  | idle hi =>
    rcases hi with hi | hi
    · rw [hp] at hi
      cases hi
    · cases hr hi
  | handing hi =>
    rw [hp] at hi
    cases hi
  | taking =>
    have hrole := g.role_adopt_self x role origin hk
    rw [hrole, hg.children_adopt_self, hg.parents_adopt_self]
    refine ⟨?_, fun t ht => ht⟩
    intro hr
    subst hr
    exact length_retained_interpretation_le _ _

theorem Entered.follows (h : Entered g id role origin force g' writes more) (hg : g.WellFormed)
    (hk : g.contains id = true) : Follows (Took g id role force) g' more := by
  refine ⟨fun x hx => ?_, fun x hx => (h.took hg hk hx).1, fun x hx t ht => ?_⟩
  · rw [h.persists]
    exact hx.1 ▸ hx.2.1
  · exact .inl ((h.took hg hk hx).2 t ht)

theorem Turn.follows_settle {T : NodeId → Prop} {c : NodeId} {rest : List Task}
    (h : Turn g (.lower id c .source false) g' writes more) (hk : g.contains c = true)
    (ho : (Task.lower id c .source false).Open g) (hT : ∀ x, T x → x ≠ c)
    (hf : Follows T g (.lower id c .source false :: rest))
    (hall : ∀ x, T x → ∀ t ∈ asks x (g.children x) (g.parents x) (g.role x),
      t ∈ .lower id c .source false :: rest) :
    ∃ T' : NodeId → Prop, (∀ x, T x → T' x) ∧ (∀ x, ¬T' x → g'.role x = g.role x) ∧
      Follows T' g' rest := by
  have hrole : g'.role c = .source := by
    cases h with
    | settle => exact g.role_recast_self _ _ hk
    | settled hr => exact hr
  have hne : g'.children c ≠ [] := by
    rw [ne_eq, h.children_eq_nil]
    exact fun hl => absurd (ho.2.2.2.1 hl) (by simp)
  have hother : ∀ x, T x → g'.role x = g.role x ∧ g'.children x = g.children x :=
    fun x hx => ⟨h.role_of_ne (hT x hx), h.children_of_ne (hT x hx)⟩
  refine ⟨fun x => x = c ∨ T x, fun x hx => .inr hx, fun x hx => ?_, ?_, ?_, ?_⟩
  · exact h.role_of_ne fun he => hx (.inl he)
  · intro x hx
    rw [h.persists]
    rcases hx with rfl | hx
    · exact ho.2.2.1
    · exact hf.editable x hx
  · intro x hx hr
    rcases hx with rfl | hx
    · cases hrole.symm.trans hr
    · rw [(hother x hx).1] at hr
      rw [(hother x hx).2]
      exact hf.single x hx hr
  · intro x hx t ht
    rcases hx with rfl | hx
    · rw [hrole, asks_source x _ hne] at ht
      cases ht
    · rw [(hother x hx).1, (hother x hx).2] at ht
      rcases List.mem_cons.1 (hall x hx t (asks_subset (h.parents_sublist x).subset ht)) with
        rfl | hin
      · exact .inr (.inl fun _ => hrole)
      · exact .inl hin

theorem Entered.follows_to_end {p q : Pass Graph} {log : List Event}
    (h : Entered g id role origin force p.graph writes more) (hg : g.WellFormed)
    (hk : g.contains id = true) (hclears : Clears p more log q) :
    ∃ T : NodeId → Prop, (∀ x, Took g id role force x → T x) ∧
      (∀ x, ¬T x → q.graph.role x = g.role x) ∧
      (∀ t ∈ more, (∀ x c, t ≠ .lower x c .source false) → t.Open q.graph → t.Met T q.graph) ∧
        Follows T q.graph [] := by
  have hfollows := h.follows hg hk
  have hwf := h.wellFormed hg
  rcases h.steady_or_settle with hsteady | ⟨c, hc, rfl⟩
  · obtain ⟨T, hT, hrole, hans, hf⟩ := hclears.follows hwf hsteady hfollows
    refine ⟨T, hT, fun x hx => ?_, fun t ht hspares => ?_, hf⟩
    · exact (hrole x hx).trans (h.role_of_not_took fun ht => hx (hT x ht))
    · exact (hans t ⟨h.due t ht, hspares⟩ (.inl ht)).resolve_left List.not_mem_nil
  · cases hclears with
    | skip _ ho hrest =>
      obtain ⟨T, hT, hrole, hans, hf⟩ := hrest.follows hwf (fun _ => Task.steady_of_mem_raises)
        (hfollows.drop fun h => absurd h ho)
      refine ⟨T, hT, fun x hx => ?_, fun t ht hspares => ?_, hf⟩
      · exact (hrole x hx).trans (h.role_of_not_took fun ht => hx (hT x ht))
      · have hin := List.mem_of_ne_of_mem (hspares id c) ht
        exact (hans t ⟨h.due t ht, hspares⟩ (.inl hin)).resolve_left List.not_mem_nil
    | visit _ ho _ _ _ hturn hrest =>
      have hne : ∀ x, Took g id role force x → x ≠ c := by
        intro x hx he
        rw [← he, ← hx.1] at hc
        exact hg.notMem_children_self x hc
      obtain ⟨T₁, hT₁, hrole₁, hf₁⟩ := hturn.follows_settle ho.2.1 ho hne hfollows
        fun x hx => (h.took hg hk hx).2
      obtain ⟨rfl, -⟩ := hturn.more_of_settle
      obtain ⟨T₂, hT₂, hrole₂, hans₂, hf₂⟩ := hrest.follows (hturn.wellFormed hwf)
        (fun _ => Task.steady_of_mem_raises) hf₁
      refine ⟨T₂, fun x hx => hT₂ x (hT₁ x hx), fun x hx => ?_, fun t ht hspares => ?_, hf₂⟩
      · exact (hrole₂ x hx).trans ((hrole₁ x fun ht => hx (hT₂ x ht)).trans
          (h.role_of_not_took fun ht => hx (hT₂ x (hT₁ x ht))))
      · have hin := List.mem_of_ne_of_mem (hspares id c) ht
        exact (hans₂ t ⟨hturn.due (h.due t ht), hspares⟩ (.inl hin)).resolve_left
          List.not_mem_nil

end

end Pass

end ArgumentMap
