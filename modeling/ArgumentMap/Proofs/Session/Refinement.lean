import ArgumentMap.Proofs.Graph.Refinement
import ArgumentMap.Proofs.Session.Alike
import ArgumentMap.Proofs.Session.Honesty

/-!
# Sessions on an arena

A session on an arena shows what it shows on the list that the arena represents, and stays in step
with it. So the arena of a session keeps its two containers and the two records of every edge in
agreement.
-/

namespace ArgumentMap

namespace Arena

/-- The arena refines the list: alike cards are the same. -/
theorem alike_represents : Store.Alike Eq Represents where
  outline hnm := congrArg Node.outline hnm
  nodes h := by
    change List.Forall₂ Eq (Arena.nodes _) (Graph.nodes _)
    rw [h.nodes, List.forall₂_eq_eq_eq]
  node x h := by
    change Agrees Eq (Arena.node _ x) (Graph.node _ x)
    rw [h.node]
    exact agrees_refl _
  contains x h := h.contains x
  hasEdge p c h := h.hasEdge p c
  insert h hnm := by
    rw [hnm]
    exact h.insert _
  mint {s t u v} h hN := by
    have huv : u = v := congrArg Node.stableId (hN ⟨""⟩)
    rw [huv]
    exact h.mint v
  setRole x role h := h.modify x _ fun _ => rfl
  setText := @fun a g x text text' h htext => by
    have hwrite : (fun n : Node => { n with body := n.body.setText text' }) =
        fun n => { n with body := n.body.setText text } := funext fun n => (htext n n rfl).symm
    have hsame : g.setText x text' = g.setText x text := by
      rw [Graph.setText, Graph.setText, hwrite]
    change Agrees Represents (a.setText x text) (g.setText x text')
    rw [hsame]
    exact h.setText x text
  connect p c h := h.connect p c
  disconnect p c h := h.disconnect p c

end Arena

namespace Session

/-- A session on an arena shows what it shows on the list that the arena represents. -/
theorem trace_of_represents {s : Session Arena} {t : Session Graph}
    (h : Session.Alike Arena.Represents s t) (actions : List Action) :
    s.trace actions = t.trace actions ∧
      Session.Alike Arena.Represents (s.after actions) (t.after actions) :=
  alike_after Arena.alike_represents h (List.forall₂_same.2 fun a _ => a.alike_refl)

theorem trace_startArena (config : Config) (actions : List Action) :
    (startArena config).trace actions = (start config).trace actions ∧
      Session.Alike Arena.Represents ((startArena config).after actions)
        ((start config).after actions) :=
  trace_of_represents ⟨rfl, .empty config.idStem, rfl, rfl, rfl, rfl⟩ actions

section
variable {s : Session Arena}

def toGraph (s : Session Arena) : Session Graph where
  config := s.config
  graph := s.graph.toGraph
  tool := s.tool
  edgeTool := s.edgeTool
  highlighted := s.highlighted
  root := s.root

theorem alike_toGraph (hs : s.graph.WellFormed) : Session.Alike Arena.Represents s s.toGraph :=
  ⟨rfl, hs.represents, rfl, rfl, rfl, rfl⟩

theorem perform_keeps_arena (hs : s.graph.WellFormed) (a : Action) :
    (perform a s).state.graph.WellFormed := by
  have hboth := alike_perform Arena.alike_represents a.alike_refl s s.toGraph (alike_toGraph hs)
  exact hboth.state.graph.wellFormed (perform_wellFormed hs.toGraph a)

theorem after_keeps_arena (hs : s.graph.WellFormed) (actions : List Action) :
    (s.after actions).graph.WellFormed := by
  induction actions generalizing s with
  | nil => exact hs
  | cons a actions ih => exact ih (perform_keeps_arena hs a)

end

/-- After any run the map of the arena has just the cards that the order names, each once and under
its own identifier, and relations are recorded once on both ends. So an audit finds no edge with
one end, and the list of edges has every edge once. -/
theorem runs_keep_structure (config : Config) (actions : List Action) :
    let a := ((startArena config).after actions).graph
    a.WellFormed ∧ (∀ p c, Fault.asymmetricEdge p c ∉ Store.audit a) ∧
      (∀ p c, (Store.edges a).count (p, c) = if Store.hasEdge a p c then 1 else 0) ∧
      Store.edgeCount a = (Store.edges a).length := by
  intro a
  have hempty : (startArena config).graph.WellFormed :=
    (Arena.Represents.empty config.idStem).wellFormed (start_wellFormed config)
  have ha : a.WellFormed := after_keeps_arena hempty actions
  exact ⟨ha, ha.asymmetricEdge_notMem_audit, ha.count_edges, ha.edgeCount_eq⟩

end Session

end ArgumentMap
