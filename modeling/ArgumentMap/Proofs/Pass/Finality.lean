import ArgumentMap.Proofs.Pass.Repeat
import ArgumentMap.Proofs.Pass.Stages

/-!
# What a pass does for good

The one task that makes a source of a card with support is asked by the first card, ahead of all
others, so once its turn has come or passed no further source is written. From then on a card that
was forced to read a leaf alone is not asked for anything else: its only support is that leaf, and
a leaf asks for nothing but to be read.
-/

open Finset

namespace ArgumentMap

/-- The card whose role or support an announced repair is about. -/
def Event.repaired? : Event → Option NodeId
  | edgeRemoved x _ => some x
  | notice (.typeChanged x _ _) => some x
  | notice (.nodesDetached x _) => some x
  | _ => none

namespace Pass

section
variable {p q : Pass Graph} {id : NodeId} {role : Role} {origin : Option NodeId} {force : Bool}
  {log : List Event} {more : List Task}

theorem repaired?_of_mem_enter (hg : p.graph.WellFormed)
    (h : enter id role origin force p = ⟨q, log, .ok more⟩) {e : Event} (he : e ∈ log) :
    e.repaired? = some id := by
  rcases enter_cases hg h with ⟨-, rfl⟩ | ⟨-, -, rfl⟩
  · cases he
  · rcases List.mem_append.1 he with he | he
    · rw [recastEvents] at he
      split_ifs at he
      · rw [List.mem_singleton.1 he]
        rfl
      · cases he
    · rcases List.mem_append.1 he with he | he
      · obtain ⟨c, -, rfl⟩ := List.mem_map.1 he
        rfl
      · cases hcut : surplus role origin (p.graph.children id) with
        | nil => simp [hcut, cutEvents] at he
        | cons c cs =>
          rw [hcut] at he
          rw [List.mem_singleton.1 he]
          rfl

end

section
variable {g g' : Graph} {t : Task} {writes : Nat} {more : List Task}

theorem Turn.settles (h : Turn g t g' writes more) {x : NodeId} (hbefore : g.role x ≠ .source)
    (hafter : g'.role x = .source) :
    ∃ p, t = .lower p x .source false ∧ x ∈ g.children p ∧ g.children x ≠ [] ∧ more = [] := by
  have hx : x = t.target := by
    by_contra hne
    exact hbefore ((h.role_of_ne hne).symm.trans hafter)
  subst hx
  cases h with
  | @read x c _ hx =>
    have hrole := g.role_adopt_self x .interpretation (some c) (Graph.contains_of_mem_children hx)
    cases hrole.symm.trans hafter
  | @claim x c _ hx =>
    have hrole := g.role_recast_self x .assertion (Graph.contains_of_mem_children hx)
    cases hrole.symm.trans hafter
  | @ground p x _ _ hk =>
    have hrole := g.role_recast_self x .interpretation hk
    cases hrole.symm.trans hafter
  | @settle p x hne hx => exact ⟨p, rfl, hx, hne, rfl⟩
  | claimed => exact absurd hafter hbefore
  | grounded => exact absurd hafter hbefore
  | settled => exact absurd hafter hbefore

end

section
variable {g : Graph} {p q : Pass Graph} {id x : NodeId} {asked asked' left : List Task}
  {log : List Event}

theorem Advance.settles (h : Advance p asked log q asked') (hbefore : p.graph.role x ≠ .source)
    (hafter : q.graph.role x = .source) : ∃ y, asked = .lower y x .source false :: asked' ∧
      x ∈ p.graph.children y ∧ p.graph.children x ≠ [] := by
  cases h with
  | wait => exact absurd hafter hbefore
  | drop => exact absurd hafter hbefore
  | turn _ _ _ hturn =>
    obtain ⟨y, rfl, hx, hne, rfl⟩ := hturn.settles hbefore hafter
    exact ⟨y, rfl, hx, hne⟩

theorem Underway.settles_no_more (h : Underway p asked left)
    (hs : ∀ t ∈ asked, t.Steady p.graph) (k : Nat)
    (hbefore : (work k left p).state.graph.role x ≠ .source) :
    (work (k + 1) left p).state.graph.role x ≠ .source := by
  intro hafter
  obtain ⟨mid, log, asked₁, left₁, hwork, hmid, hsteady, -⟩ :=
    h.run (I := fun q asked => ∀ t ∈ asked, t.Steady q.graph) (K := fun _ => True)
      (fun _ hs hadvance => ⟨hadvance.steady hs, fun _ _ => trivial⟩) hs k
  obtain ⟨q, log', asked₂, left₂, hone, -, hadvance⟩ := hmid.advance
  rw [hwork] at hbefore
  rw [work_add_of_ok hwork, hone] at hafter
  obtain ⟨y, rfl, -, hne⟩ := hadvance.settles hbefore hafter
  exact hne (hsteady _ List.mem_cons_self y x rfl)

theorem Settling.settles (h : Settling g id p asked) (hadvance : Advance p asked log q asked')
    (hbefore : p.graph.role x ≠ .source) (hafter : q.graph.role x = .source) :
    asked = .lower id x .source false :: asked' ∧ x ∈ p.graph.children id ∧
      p.graph.children x ≠ [] ∧ ∀ t ∈ asked', t.Steady q.graph := by
  obtain ⟨y, rfl, hx, hne⟩ := hadvance.settles hbefore hafter
  rcases h with hs | ⟨c, he⟩
  · exact absurd (hs _ List.mem_cons_self y x rfl) hne
  · obtain ⟨hhead, rfl⟩ := List.cons.inj he
    cases hhead
    exact ⟨rfl, hx, hne, fun _ => Task.steady_of_mem_raises⟩

end

end Pass

/-- A card of the user's own that is an interpretation of one leaf. -/
structure Graph.Reader (g : Graph) (x c : NodeId) : Prop where
  own : g.persists x = false
  role : g.role x = .interpretation
  support : g.children x = [c]
  leaf : g.children c = []

namespace Pass

section
variable {g g' : Graph} {t : Task} {x c : NodeId} {writes : Nat} {more : List Task}

theorem reader_adopt (hg : g.WellFormed) (hc : g.children c = []) (hx : c ∈ g.children x)
    (hp : g.persists x = false) : (g.adopt x .interpretation (some c)).Reader x c where
  own := by rwa [g.persists_adopt]
  role := g.role_adopt_self x .interpretation (some c) (Graph.contains_of_mem_children hx)
  support := by rw [hg.children_adopt_self, retained_of_mem hx]
  leaf := (g.children_adopt_eq_nil x .interpretation (some c) c).2 hc

theorem Turn.graph_of_read (h : Turn g (.raise x c .interpretation true) g' writes more) :
    g' = g.adopt x .interpretation (some c) := by
  cases h
  rfl

theorem Turn.reader_of_ne (h : Turn g t g' writes more) (hr : g.Reader x c)
    (hx : x ≠ t.target) : g'.Reader x c where
  own := (h.persists x).trans hr.own
  role := (h.role_of_ne hx).trans hr.role
  support := (h.children_of_ne hx).trans hr.support
  leaf := (h.children_eq_nil c).2 hr.leaf

theorem eq_read_of_reader (hr : g.Reader x c) (hd : t.Due g) (ho : t.Open g) (hs : t.Steady g)
    (ht : t.target = x) : t = .raise x c .interpretation true := by
  have honly : ∀ {d}, d ∈ g.children x → d = c := by simp [hr.support]
  have hne : g.children x ≠ [] := by simp [hr.support]
  cases hd with
  | read y _ =>
    obtain rfl : y = x := ht
    rw [honly ho.1]
  | claim y hd =>
    obtain rfl : y = x := ht
    exact absurd (honly ho.1 ▸ hr.leaf) hd
  | ground y d =>
    obtain rfl : d = x := ht
    exact absurd (ho.2.2.2.2 rfl) hne
  | settle y d =>
    obtain rfl : d = x := ht
    exact absurd (hs y d rfl) hne

end

section
variable {p q : Pass Graph} {t : Task} {x c : NodeId} {asked asked' left : List Task}
  {log : List Event}

theorem perform_entry_of_reader (hg : p.graph.WellFormed) (hr : p.graph.Reader x c)
    (hd : t.Due p.graph) (ho : t.Open p.graph) (hs : t.Steady p.graph) (ht : t.target = x) :
    ∃ more, perform t.entry p = ⟨p.countCall, [], .ok more⟩ := by
  obtain rfl := eq_read_of_reader hr hd ho hs ht
  have hone : (p.graph.children x).length ≤ 1 := by rw [hr.support, List.length_singleton]
  exact ⟨_, enter_again hg (Graph.contains_of_mem_children ho.1) hr.own hr.role fun _ => hone⟩

theorem Advance.reader (h : Advance p asked log q asked') (hg : p.graph.WellFormed)
    (hs : ∀ t ∈ asked, t.Steady p.graph) (hr : p.graph.Reader x c) :
    q.graph.Reader x c ∧ ∀ e ∈ log, e.repaired? ≠ some x := by
  cases h with
  | wait => exact ⟨hr, by simp⟩
  | drop => exact ⟨hr, by simp⟩
  | @turn _ t _ _ _ _ hd ho hp hturn =>
    by_cases ht : t.target = x
    · obtain ⟨more, hagain⟩ :=
        perform_entry_of_reader hg hr hd ho (hs t List.mem_cons_self) ht
      rw [hagain] at hp
      cases hp
      exact ⟨hr, by simp⟩
    · refine ⟨hturn.reader_of_ne hr (Ne.symm ht), fun e he hx => ht ?_⟩
      have hrepaired : e.repaired? = some t.target := by
        cases t <;> exact repaired?_of_mem_enter hg hp he
      exact Option.some.inj (hrepaired.symm.trans hx)

theorem Underway.reads_for_good (h : Underway p asked left)
    (hs : ∀ t ∈ asked, t.Steady p.graph) (hr : p.graph.Reader x c) (k : Nat) :
    ∃ q log asked' left', work k left p = ⟨q, log, .ok left'⟩ ∧ Underway q asked' left' ∧
      ((∀ t ∈ asked', t.Steady q.graph) ∧ q.graph.Reader x c) ∧
        ∀ e ∈ log, e.repaired? ≠ some x := by
  refine h.run (I := fun q asked => (∀ t ∈ asked, t.Steady q.graph) ∧ q.graph.Reader x c)
    (fun hg hi hadvance => ?_) ⟨hs, hr⟩ k
  obtain ⟨hreader, hquiet⟩ := hadvance.reader hg hi.1 hi.2
  exact ⟨⟨hadvance.steady hi.1, hreader⟩, hquiet⟩

theorem Underway.idle_of_reader {r : Role} {o : Option NodeId} {f : Bool} {rest : List Task}
    (h : Underway p asked (.enter x r o f :: rest)) (hs : ∀ t ∈ asked, t.Steady p.graph)
    (hr : p.graph.Reader x c) :
    (work 1 (.enter x r o f :: rest) p).state = p.countCall := by
  obtain ⟨t, rfl, hd, ho, hentry⟩ := h.called
  have ht : t.target = x := by
    cases t <;> cases hentry <;> rfl
  obtain ⟨more, hagain⟩ :=
    perform_entry_of_reader h.wellFormed hr hd ho (hs t List.mem_cons_self) ht
  rw [hentry] at hagain
  rw [work_one_of_ok rest hagain]

theorem Underway.reads {g : Graph} {id : NodeId} {r : Role} {f : Bool} {rest : List Task}
    (h : Underway p asked (.enter x r (some c) f :: rest)) (hs : Settling g id p asked)
    (hc : p.graph.children c = []) : (r = .interpretation ∧ f = true ∧ c ∈ p.graph.children x) ∧
      ∃ q log asked' left', work 1 (.enter x r (some c) f :: rest) p = ⟨q, log, .ok left'⟩ ∧
        Underway q asked' left' ∧ (∀ t ∈ asked', t.Steady q.graph) ∧ q.graph.Reader x c := by
  have hg := h.wellFormed
  obtain ⟨t, rfl, hd, ho, hentry⟩ := h.called
  cases hd with
  | read y hl =>
    cases hentry
    obtain ⟨q, log, more, hp⟩ := perform_entry_succeeds hg ho
    obtain ⟨-, writes, -, hturn⟩ := perform_entry_of_due (.read x hl) ho hp
    have hsteady : ∀ s ∈ rest, s.Steady p.graph := by
      rcases hs with hs | ⟨d, hd⟩
      · exact fun s hs' => hs s (List.mem_cons_of_mem _ hs')
      · cases hd
    refine ⟨⟨rfl, rfl, ho.1⟩, q, log, more ++ rest, more ++ rest, work_one_of_ok rest hp, ?_,
      hturn.steady_append hsteady, ?_⟩
    · exact underway_of_due (hturn.wellFormed hg)
        (hturn.due_append fun s hs' => h.due s (List.mem_cons_of_mem _ hs'))
    · rw [hturn.graph_of_read]
      exact reader_adopt hg hc ho.1 ho.2
  | claim y hl =>
    cases hentry
    exact absurd hc hl
  | ground y d =>
    cases hentry
    exact absurd hc (List.ne_nil_of_mem ho.1)
  | settle y d =>
    cases hentry
    exact absurd hc (List.ne_nil_of_mem ho.1)

end

end Pass

namespace Graph

section
variable {g : Graph} {id : NodeId} {role : Role} {origin : Option NodeId} {force : Bool}

theorem stage_settles (hg : g.WellFormed) {k : Nat} {x : NodeId} (hk : 0 < k)
    (hbefore : (g.stage id role origin force k).state.graph.role x ≠ .source)
    (hafter : (g.stage id role origin force (k + 1)).state.graph.role x = .source) :
    (x ∈ (g.stage id role origin force k).state.graph.children id ∧
      (g.stage id role origin force k).state.graph.children x ≠ []) ∧
    (∀ y, (g.stage id role origin force k).state.graph.role y ≠ .source →
      (g.stage id role origin force (k + 1)).state.graph.role y = .source → y = x) ∧
    ∀ k' y, k < k' → (g.stage id role origin force k').state.graph.role y ≠ .source →
      (g.stage id role origin force (k' + 1)).state.graph.role y ≠ .source := by
  obtain ⟨j, rfl⟩ := Nat.exists_eq_add_of_lt hk
  rw [Nat.zero_add] at hbefore hafter ⊢
  cases hid : g.contains id with
  | false =>
    rw [stage_unknown hid] at hbefore hafter
    exact absurd hafter hbefore
  | true =>
    obtain ⟨p, log, asked, left, hstage, -, hunder, hsettling⟩ :=
      underway_at_stage hg hid role origin force j
    obtain ⟨q, log', asked', left', hone, hunder', hadvance⟩ := hunder.advance
    have hnext : g.stage id role origin force (j + 1 + 1) = ⟨q, log ++ log', .ok left'⟩ := by
      rw [stage_add_of_ok hstage, hone]
    rw [hstage] at hbefore ⊢
    rw [hnext] at hafter ⊢
    obtain ⟨rfl, hx, hne, hsteady⟩ := hsettling.settles hadvance hbefore hafter
    refine ⟨⟨hx, hne⟩, fun y hy hy' => ?_, fun k' y hlt => ?_⟩
    · cases (hsettling.settles hadvance hy hy').1
      rfl
    · obtain ⟨d, rfl⟩ := Nat.exists_eq_add_of_le (Nat.succ_le_of_lt hlt)
      rw [Nat.add_assoc, stage_add_of_ok hnext, stage_add_of_ok hnext]
      exact hunder'.settles_no_more hsteady d

theorem stage_reads (hg : g.WellFormed) {j : Nat} {x c : NodeId} {r : Role} {f : Bool}
    {rest : List Task} (hj : 0 < j) (hcall : (g.stage id role origin force j).result =
      .ok (.enter x r (some c) f :: rest))
    (hc : (g.stage id role origin force j).state.graph.children c = []) :
    (r = .interpretation ∧ f = true ∧
      c ∈ (g.stage id role origin force j).state.graph.children x) ∧
    ∀ k, j < k → (g.stage id role origin force k).state.graph.Reader x c ∧
      (∃ later, (g.stage id role origin force k).events =
          (g.stage id role origin force (j + 1)).events ++ later ∧
        ∀ e ∈ later, e.repaired? ≠ some x) ∧
      ∀ r' o f' rest', (g.stage id role origin force k).result =
          .ok (.enter x r' o f' :: rest') →
        (g.stage id role origin force (k + 1)).state =
          (g.stage id role origin force k).state.countCall := by
  obtain ⟨i, rfl⟩ := Nat.exists_eq_add_of_lt hj
  rw [Nat.zero_add] at hcall hc ⊢
  cases hid : g.contains id with
  | false =>
    rw [stage_unknown hid] at hcall
    cases hcall
  | true =>
    obtain ⟨p, log, asked, left, hstage, -, hunder, hsettling⟩ :=
      underway_at_stage hg hid role origin force i
    rw [hstage] at hcall hc ⊢
    cases hcall
    obtain ⟨hread, q, log', asked', left', hone, hunder', hsteady, hreader⟩ :=
      hunder.reads hsettling hc
    have hnext : g.stage id role origin force (i + 1 + 1) = ⟨q, log ++ log', .ok left'⟩ := by
      rw [stage_add_of_ok hstage, hone]
    refine ⟨hread, fun k hk => ?_⟩
    obtain ⟨d, rfl⟩ := Nat.exists_eq_add_of_le (Nat.succ_le_of_lt hk)
    obtain ⟨q', later, asked'', left'', hwork, hunder'', ⟨hsteady', hreader'⟩, hquiet⟩ :=
      hunder'.reads_for_good hsteady hreader d
    have hthen : g.stage id role origin force (i + 1 + 1 + d) =
        ⟨q', log ++ log' ++ later, .ok left''⟩ := by
      rw [stage_add_of_ok hnext, hwork]
    rw [hnext, hthen]
    refine ⟨hreader', ⟨later, rfl, hquiet⟩, fun r' o f' rest' hagain => ?_⟩
    cases hagain
    rw [stage_add_of_ok hthen]
    exact hunder''.idle_of_reader hsteady' hreader'

end

/-- A pass by its stages. Whatever the number of steps from the bound on, they end in what the pass
comes to, and every role that is counted as written shows between two of them. Past the entry of
the first card, the role of a source is written at most once, to a card with support that supports
the first one. And whoever is entered at the instance of a leaf is a card supported by that leaf
that is forced to be an interpretation. From then on it is one, of that leaf alone; no repair of it
is announced any more, and to enter it again only counts. -/
theorem propagate_reads_for_good {g : Graph} (hg : g.WellFormed) (id : NodeId) (role : Role)
    (origin : Option NodeId) (force : Bool) :
    let stage := g.stage id role origin force
    let graph := fun k => (stage k).state.graph
    let sourced := fun k x => (graph k).role x ≠ .source ∧ (graph (k + 1)).role x = .source
    (∀ k, g.passBound ≤ k → propagate id role origin force g =
      ⟨graph k, (stage k).events, (stage k).result.map fun _ => (stage k).state.stats⟩) ∧
    (∀ k, (stage (k + 1)).state.stats.typeWrites = (stage k).state.stats.typeWrites +
      #{x ∈ g.keys | (graph (k + 1)).role x ≠ (graph k).role x}) ∧
    (∀ k x, 0 < k → sourced k x → (x ∈ (graph k).children id ∧ (graph k).children x ≠ []) ∧
      ∀ k' y, 0 < k' → sourced k' y → k' = k ∧ y = x) ∧
    ∀ j x r c f rest, 0 < j → (stage j).result = .ok (.enter x r (some c) f :: rest) →
      (graph j).children c = [] →
      (r = .interpretation ∧ f = true ∧ c ∈ (graph j).children x) ∧
      ∀ k, j < k → (graph k).role x = .interpretation ∧ (graph k).children x = [c] ∧
        (∃ later, (stage k).events = (stage (j + 1)).events ++ later ∧
          ∀ e ∈ later, e.repaired? ≠ some x) ∧
        ∀ r' o f' rest', (stage k).result = .ok (.enter x r' o f' :: rest') →
          (stage (k + 1)).state = (stage k).state.countCall := by
  intro stage graph sourced
  refine ⟨fun k hk => propagate_of_steps hk, typeWrites_stage hg, fun k x hk hx => ?_,
    fun j x r c f rest hj hcall hc => ?_⟩
  · obtain ⟨hsupport, honly, hlater⟩ := stage_settles hg hk hx.1 hx.2
    refine ⟨hsupport, fun k' y hk' hy => ?_⟩
    rcases Nat.lt_trichotomy k' k with hlt | rfl | hlt
    · exact absurd hx.2 ((stage_settles hg hk' hy.1 hy.2).2.2 k x hlt hx.1)
    · exact ⟨rfl, honly y hy.1 hy.2⟩
    · exact absurd hy.2 (hlater k' y hlt hy.1)
  · obtain ⟨hread, hgood⟩ := stage_reads hg hj hcall hc
    refine ⟨hread, fun k hk => ?_⟩
    obtain ⟨hreader, hquiet, hidle⟩ := hgood k hk
    exact ⟨hreader.role, hreader.support, hquiet, hidle⟩

theorem propagate_reads_for_good_tangle :
    let stage := tangle.stage ⟨"q"⟩ .interpretation none true
    let graph := fun k => (stage k).state.graph
    tangle.WellFormed ∧ (graph 2).role ⟨"p"⟩ = .unset ∧ (graph 3).role ⟨"p"⟩ = .source ∧
      ⟨"p"⟩ ∈ (graph 2).children ⟨"q"⟩ ∧ (graph 8).role ⟨"p"⟩ = .assertion ∧
      (stage 11).result = .ok [.enter ⟨"p"⟩ .interpretation (some ⟨"a"⟩) true,
        .lower ⟨"p"⟩ ⟨"b"⟩ .interpretation true, .raise ⟨"q"⟩ ⟨"p"⟩ .assertion false] ∧
      (graph 11).children ⟨"a"⟩ = [] ∧ (graph 11).children ⟨"p"⟩ = [⟨"a"⟩, ⟨"b"⟩] ∧
      ∀ k, 11 < k →
        (graph k).role ⟨"p"⟩ = .interpretation ∧ (graph k).children ⟨"p"⟩ = [⟨"a"⟩] := by
  intro stage graph
  have hbefore : (graph 2).role ⟨"p"⟩ = .unset := by decide
  have hafter : (graph 3).role ⟨"p"⟩ = .source := by decide
  have hleaf : (graph 11).children ⟨"a"⟩ = [] := by decide
  have hcall : (stage 11).result = .ok [.enter ⟨"p"⟩ .interpretation (some ⟨"a"⟩) true,
      .lower ⟨"p"⟩ ⟨"b"⟩ .interpretation true, .raise ⟨"q"⟩ ⟨"p"⟩ .assertion false] := by decide
  obtain ⟨-, -, hsourced, hreads⟩ :=
    propagate_reads_for_good tangle_wellFormed ⟨"q"⟩ .interpretation none true
  obtain ⟨⟨hsupport, -⟩, -⟩ := hsourced 2 ⟨"p"⟩ (by decide) ⟨by rw [hbefore]; decide, hafter⟩
  obtain ⟨-, hgood⟩ := hreads 11 _ _ _ _ _ (by decide) hcall hleaf
  exact ⟨tangle_wellFormed, hbefore, hafter, hsupport, by decide, hcall, hleaf, by decide,
    fun k hk => ⟨(hgood k hk).1, (hgood k hk).2.1⟩⟩

end Graph

end ArgumentMap
