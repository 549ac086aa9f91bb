import ArgumentMap.Proofs.Session.Honesty
import Mathlib.Logic.Function.Basic

/-!
# A mirror of the graph

A listener that starts from the cards and edges of a session and applies what is
announced, in order, always has the cards and edges of the session, in order.
-/

namespace ArgumentMap

/-- The cards of a graph in order, with the relations of each. -/
structure Mirror where
  order : List NodeId
  children : NodeId → List NodeId
  parents : NodeId → List NodeId

namespace Mirror

def of (g : Graph) : Mirror := ⟨g.ids, g.children, g.parents⟩

/-- A new card comes last and has no relations, and a new edge comes last on both
of its ends. -/
def apply (m : Mirror) : Event → Mirror
  | .nodeAdded _ id =>
    { order := m.order ++ [id]
      children := Function.update m.children id []
      parents := Function.update m.parents id [] }
  | .edgeAdded p c =>
    { m with
      children := Function.update m.children p (m.children p ++ [c])
      parents := Function.update m.parents c (m.parents c ++ [p]) }
  | .edgeRemoved p c =>
    { m with
      children := Function.update m.children p ((m.children p).filter (· ≠ c))
      parents := Function.update m.parents c ((m.parents c).filter (· ≠ p)) }
  | .nodeHighlighted _ | .graphLoaded _ | .notice _ => m

def replay (m : Mirror) (log : List Event) : Mirror := log.foldl apply m

/-- A new card is unknown, a new edge joins two known cards and is absent on both
ends, and a removed edge is present on both. -/
def Expects (m : Mirror) : Event → Prop
  | .nodeAdded _ id => id ∉ m.order
  | .edgeAdded p c => p ∈ m.order ∧ c ∈ m.order ∧ c ∉ m.children p ∧ p ∉ m.parents c
  | .edgeRemoved p c => c ∈ m.children p ∧ p ∈ m.parents c
  | .nodeHighlighted _ | .graphLoaded _ | .notice _ => True

def ExpectsAll (m : Mirror) : List Event → Prop
  | [] => True
  | e :: log => m.Expects e ∧ (m.apply e).ExpectsAll log

variable {m : Mirror} {g h : Graph} {log log' : List Event}

theorem replay_append : m.replay (log ++ log') = (m.replay log).replay log' :=
  List.foldl_append

theorem expectsAll_append :
    m.ExpectsAll (log ++ log') ↔ m.ExpectsAll log ∧ (m.replay log).ExpectsAll log' := by
  induction log generalizing m with
  | nil => simp [ExpectsAll, replay]
  | cons e log ih =>
    rw [List.cons_append, ExpectsAll, ExpectsAll, ih, and_assoc]
    rfl

/-- From the mirror of one graph the announcements lead to that of the other. -/
def Leads (g : Graph) (log : List Event) (h : Graph) : Prop :=
  (of g).ExpectsAll log ∧ (of g).replay log = of h

theorem Leads.refl (g : Graph) : Leads g [] g := ⟨trivial, rfl⟩

theorem Leads.trans {k : Graph} (h₁ : Leads g log h) (h₂ : Leads h log' k) :
    Leads g (log ++ log') k := by
  refine ⟨expectsAll_append.2 ⟨h₁.1, ?_⟩, ?_⟩
  · rw [h₁.2]
    exact h₂.1
  · rw [replay_append, h₁.2]
    exact h₂.2

theorem leads_of_same (hids : h.ids = g.ids) (hchildren : ∀ x, h.children x = g.children x)
    (hparents : ∀ x, h.parents x = g.parents x) : Leads g [] h := by
  refine ⟨trivial, ?_⟩
  change of g = of h
  rw [of, of, hids, funext hchildren, funext hparents]

theorem leads_shed (hg : g.WellFormed) {p c : NodeId} (hc : c ∈ g.children p) :
    Leads g [.edgeRemoved p c] (g.shed p [c]) := by
  refine ⟨⟨⟨hc, hg.mem_children_iff.1 hc⟩, trivial⟩, ?_⟩
  change (of g).apply (.edgeRemoved p c) = of (g.shed p [c])
  simp only [apply, of, Graph.ids_shed, mk.injEq, true_and]
  refine ⟨funext fun x => ?_, funext fun x => ?_⟩
  · rw [Graph.children_shed, Function.update_apply]
    split_ifs with hx
    · simp [hx]
    · rfl
  · rw [Graph.parents_shed, Function.update_apply]
    by_cases hx : x = c
    · simp [hx]
    · simp [hx]

theorem leads_link (hg : g.WellFormed) {p c : NodeId} (hp : g.contains p = true)
    (hc : g.contains c = true) (hnew : c ∉ g.children p) :
    Leads g [.edgeAdded p c] (g.link p c) := by
  refine ⟨⟨⟨Graph.contains_iff_mem_ids.1 hp, Graph.contains_iff_mem_ids.1 hc, hnew,
    mt hg.mem_children_iff.2 hnew⟩, trivial⟩, ?_⟩
  change (of g).apply (.edgeAdded p c) = of (g.link p c)
  simp only [apply, of, Graph.ids_link, mk.injEq, true_and]
  refine ⟨funext fun x => ?_, funext fun x => ?_⟩
  · rw [Graph.children_link hp, Function.update_apply]
    split_ifs with hx
    · rw [hx]
    · rfl
  · rw [Graph.parents_link hc, Function.update_apply]
    split_ifs with hx
    · rw [hx]
    · rfl

theorem leads_mint (g : Graph) (u : Uuid) :
    Leads g [.nodeAdded none (g.mint u).1] (g.mint u).2 := by
  have hfresh : (g.mint u).1 ∉ g.ids := by
    rw [← Graph.contains_iff_mem_ids, g.mint_fresh u]
    exact Bool.false_ne_true
  have hnone : g.find? (g.mint u).1 = none := by simpa [Graph.contains] using g.mint_fresh u
  refine ⟨⟨hfresh, trivial⟩, ?_⟩
  change (of g).apply (.nodeAdded none (g.mint u).1) = of (g.mint u).2
  simp only [apply, of, Graph.ids_mint, mk.injEq, true_and]
  refine ⟨funext fun x => ?_, funext fun x => ?_⟩
  · rw [Graph.children_mint, Function.update_apply]
    split_ifs with hx
    · simp [hx, Graph.children, hnone]
    · rfl
  · rw [Graph.parents_mint, Function.update_apply]
    split_ifs with hx
    · simp [hx, Graph.parents, hnone]
    · rfl

theorem leads_remark {e : Event} (he : e.topic = .notice ∨ e.topic = .nodeHighlighted) :
    Leads g [e] g := by
  cases e with
  | nodeHighlighted id => exact ⟨⟨trivial, trivial⟩, rfl⟩
  | notice n => exact ⟨⟨trivial, trivial⟩, rfl⟩
  | _ => simp [Event.topic] at he

theorem leads_change (hg : g.WellFormed) (hc : g.Change log h) : Leads g log h := by
  cases hc with
  | remark he => exact leads_remark he
  | recast id role => exact leads_of_same (by simp) (by simp) (by simp)
  | reword id text => exact leads_of_same (by simp) (by simp) (by simp)
  | mint u => exact leads_mint g u
  | cut hc _ => exact leads_shed hg hc
  | join hp hc _ hnew => exact leads_link hg hp hc hnew

theorem leads_changes (hg : g.WellFormed) (hc : g.Changes log h) : Leads g log h := by
  induction hc with
  | refl g => exact .refl g
  | head hc _ ih => exact (leads_change hg hc).trans (ih (hc.wellFormed hg))

theorem leads_unlink (hg : g.WellFormed) {e : Option (NodeId × NodeId)}
    (he : ∀ p c, e = some (p, c) → c ∈ g.children p) :
    Leads g (Graph.unlinkEvents e) (g.unlink e) := by
  match e with
  | some (p, c) => exact leads_shed hg (he p c rfl)
  | none => exact .refl g

end Mirror

namespace Session

def announced (s : Session Graph) : List Action → List Event
  | [] => []
  | a :: actions => (perform a s).events ++ (perform a s).state.announced actions

def LoadsNothing (s : Session Graph) : List Action → Prop
  | [] => True
  | a :: actions =>
    (∀ snapshot fresh, a = .load snapshot fresh → ∃ e, (perform a s).result = .error e) ∧
      (perform a s).state.LoadsNothing actions

variable {s : Session Graph} {a : Action} {actions : List Action}

theorem mem_children_of_turning {p c : NodeId} (h : s.turning a = some (p, c)) :
    c ∈ s.graph.children p := by
  cases a with
  | tap id =>
    rw [turning] at h
    split_ifs at h
    exact EdgeTool.mem_children_of_turning h
  | _ => cases h

theorem perform_leads (hg : s.graph.WellFormed)
    (ha : ∀ snapshot fresh, a = .load snapshot fresh → ∃ e, (perform a s).result = .error e) :
    Mirror.Leads s.graph (perform a s).events (perform a s).state.graph := by
  by_cases hload : ∃ snapshot fresh, a = .load snapshot fresh
  · obtain ⟨snapshot, fresh, rfl⟩ := hload
    cases hcheck : snapshot.check s.graph with
    | error e =>
      rw [perform_load_of_error hcheck]
      exact .refl s.graph
    | ok _ =>
      obtain ⟨e, he⟩ := ha snapshot fresh rfl
      rw [perform_load_of_ok hcheck] at he
      cases he
  · simp only [not_exists] at hload
    obtain ⟨log, hevents, hc⟩ := changes_perform hload hg
    rw [hevents]
    exact (Mirror.leads_unlink hg fun _ _ he => mem_children_of_turning he).trans
      (Mirror.leads_changes (hg.unlink _) hc)

theorem after_leads (hg : s.graph.WellFormed) (hs : s.LoadsNothing actions) :
    Mirror.Leads s.graph (s.announced actions) (s.after actions).graph := by
  induction actions generalizing s with
  | nil => exact .refl s.graph
  | cons a actions ih =>
    exact (perform_leads hg hs.1).trans (ih (perform_wellFormed hg a) hs.2)

/-- From any session that can be reached, a run without a successful load
announces just what keeps a mirror in step: every edge that comes was absent,
every edge that goes was there, and in the end cards and relations agree in
their order. -/
theorem announcements_mirror (config : Config) (earlier actions : List Action)
    (hs : ((start config).after earlier).LoadsNothing actions) :
    let s := (start config).after earlier
    (Mirror.of s.graph).ExpectsAll (s.announced actions) ∧
      (Mirror.of s.graph).replay (s.announced actions) = Mirror.of (s.after actions).graph :=
  after_leads (reached_wellFormed config earlier) hs

theorem announcements_mirror_turn :
    let snapshot : Snapshot :=
      { cards := [{ id := ⟨"n"⟩, role := .assertion }], edges := [⟨⟨"n"⟩, ⟨"sketch-0"⟩⟩] }
    let s := (start {}).after
      [.addNode .nil, .load snapshot fun _ => .nil, .setTool .edge, .tap ⟨"sketch-0"⟩]
    let actions : List Action := [.tap ⟨"n"⟩, .addNode .nil, .load snapshot fun _ => .nil]
    s.LoadsNothing actions ∧
      s.announced actions = [.edgeRemoved ⟨"n"⟩ ⟨"sketch-0"⟩, .edgeAdded ⟨"sketch-0"⟩ ⟨"n"⟩,
        .nodeAdded none ⟨"sketch-1"⟩] ∧
      (Mirror.of s.graph).ExpectsAll (s.announced actions) ∧
      (Mirror.of s.graph).replay (s.announced actions) = Mirror.of (s.after actions).graph := by
  intro snapshot s actions
  have hs : s.LoadsNothing actions := by
    refine ⟨?_, ?_, ?_, trivial⟩
    · intro _ _ ha
      cases ha
    · intro _ _ ha
      cases ha
    · intro _ _ ha
      cases ha
      exact ⟨.duplicateNode ⟨"n"⟩, by decide⟩
  exact ⟨hs, by decide, announcements_mirror {} _ actions hs⟩

end Session

end ArgumentMap
