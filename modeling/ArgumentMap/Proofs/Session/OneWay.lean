import ArgumentMap.Proofs.Graph.Listing
import ArgumentMap.Proofs.Session.Commitment
import ArgumentMap.Proofs.Session.Refusal
import ArgumentMap.Proofs.Session.Honesty

/-!
# No two cards support each other

An edge comes only where no edge runs against it, or after the one that does was taken away, and
whatever else a gesture does to edges is to cut them. So at no moment short of a load do two
cards come to support each other. An edge drawn against another one turns it around, or is
refused where the settings do not allow that.
-/

namespace ArgumentMap

namespace Graph

def OneWay (g : Graph) : Prop := ∀ p c, c ∈ g.children p → p ∉ g.children c

section
variable {g h : Graph} {log : List Event} {parent child x y : NodeId}

theorem oneWay_iff_edges (hg : g.WellFormed) :
    g.OneWay ↔ ∀ e ∈ g.edges, g.hasEdge e.2 e.1 = false := by
  simp only [OneWay, Prod.forall, mem_edges_iff hg, hasEdge_iff, ← Bool.not_eq_true]

theorem OneWay.of_fewer (hg : g.OneWay) (hfewer : ∀ x, h.children x ⊆ g.children x) :
    h.OneWay :=
  fun p c hc hp => hg p c (hfewer p hc) (hfewer c hp)

theorem OneWay.link (hg : g.OneWay) (hp : g.contains parent = true) (hne : parent ≠ child)
    (hclear : parent ∉ g.children child) : (g.link parent child).OneWay := by
  intro x y hy hx
  rw [← hasEdge_iff, hasEdge_link hp, hasEdge_iff] at hx hy
  rcases hy with hy | ⟨rfl, rfl⟩
  · rcases hx with hx | ⟨rfl, rfl⟩
    · exact hg x y hy hx
    · exact hclear hy
  · rcases hx with hx | ⟨he, -⟩
    · exact hclear hx
    · exact hne he.symm

theorem OneWay.unlink (hg : g.OneWay) (e : Option (NodeId × NodeId)) : (g.unlink e).OneWay :=
  hg.of_fewer fun x => by
    rw [children_unlink]
    exact List.filter_sublist.subset

theorem Change.oneWay (hc : g.Change log h) (hg : g.OneWay) : h.OneWay := by
  cases hc with
  | cut => exact hg.of_fewer fun x _ hy => mem_children_of_shed hy
  | join hp _ hne _ hclear => exact hg.link hp hne hclear
  | _ => exact hg.of_fewer fun x => by simp

theorem Changes.oneWay (hc : g.Changes log h) (hg : g.OneWay) : h.OneWay := by
  induction hc with
  | refl => exact hg
  | head hc _ ih => exact ih (hc.oneWay hg)

theorem hasEdge_joined (hp : g.contains parent = true) :
    (g.joined parent child).hasEdge x y = true ↔
      (x = parent ∧ y = child) ∨ g.hasEdge x y = true ∧ ¬(x = child ∧ y = parent) := by
  have hkept : (g.unlink (g.opposite parent child)).hasEdge x y = true ↔
      g.hasEdge x y = true ∧ ¬(x = child ∧ y = parent) := by
    rw [hasEdge_iff, hasEdge_iff, children_unlink, List.mem_filter, decide_eq_true_iff]
    refine and_congr_right fun hy => not_congr ?_
    rw [opposite_eq_some_iff, hasEdge_iff, Prod.mk.injEq]
    exact ⟨fun h => h.2, fun h => ⟨h.1 ▸ h.2 ▸ hy, h⟩⟩
  rw [read_joined g parent child (·.hasEdge x y) (by simp [hasEdge]),
    hasEdge_link (by simpa using hp), hkept, or_comm]

end

end Graph

namespace Session

section
variable {s : Session Graph} {parent child : NodeId}

theorem perform_oneWay (hg : s.graph.WellFormed) (hone : s.graph.OneWay) {a : Action}
    (ha : ∀ snapshot fresh, a ≠ .load snapshot fresh) : (perform a s).state.graph.OneWay := by
  obtain ⟨log, -, hc⟩ := changes_perform ha hg
  exact hc.oneWay (hone.unlink _)

theorem after_oneWay (hg : s.graph.WellFormed) (hone : s.graph.OneWay) {actions : List Action}
    (ha : ∀ a ∈ actions, ∀ snapshot fresh, a ≠ .load snapshot fresh) :
    (s.after actions).graph.OneWay := by
  induction actions generalizing s with
  | nil => exact hone
  | cons a actions ih =>
    obtain ⟨hfirst, hrest⟩ := List.forall_mem_cons.1 ha
    exact ih (perform_wellFormed hg a) (perform_oneWay hg hone hfirst) hrest

theorem tap_turns (hg : s.graph.WellFormed) (ht : s.tool = .edge)
    (he : s.edgeTool = .seekingChild parent) (hback : s.graph.hasEdge child parent = true)
    (hnew : child ∉ s.graph.children parent) (hflip : s.config.flipReverseEdges = true)
    (hp : s.graph.persists parent = false) :
    ∃ v role stats, (v, role) = (s.graph.joined parent child).settlement parent child ∧
      let pass := Graph.propagate v role none true (s.graph.joined parent child)
      pass.result = .ok stats ∧ Pass.Upheld parent child pass.state [] ∧
      perform (.tap child) s = ⟨{ s with edgeTool := .seekingParent, graph := pass.state },
        .edgeRemoved child parent :: .edgeAdded parent child :: pass.events,
        .ok (.tapped (.edge (.committed parent child true stats)))⟩ := by
  have hmem := Graph.hasEdge_iff.1 hback
  have hkc := Graph.contains_of_mem_children hmem
  have hkp := hg.contains_child hmem
  have hne : parent ≠ child := by
    rintro rfl
    exact hg.notMem_children_self parent hmem
  have ho : Graph.objection? s.config parent child s.graph = .ok none :=
    Graph.objection?_eq_none_iff.2 ⟨hne, hkp, hp, hnew, fun _ => hflip⟩
  have hdraw : Graph.drawEdge s.config parent child s.graph =
      Graph.commitEdge parent child s.graph := by
    rw [Graph.drawEdge, Edit.ask_bind_apply_of_ok s.graph ho]
  obtain ⟨v, role, stats, hv, hok, hcommit⟩ := Graph.commitEdge_eq hg hkp hkc hne hnew
  have hupheld := Graph.upheld_of_settlement (hg.joined hkp hkc hne hnew) (by simpa using hp)
    (Graph.mem_children_joined hkp) (Graph.notMem_children_joined hkp hne) hv hok
  refine ⟨v, role, stats, hv, hok, hupheld, ?_⟩
  rw [perform_tap, tap_edge ht, he, EdgeTool.respond_known hkc]
  dsimp only
  rw [hdraw, hcommit, Graph.unlinkEvents_opposite, hback]
  rfl

theorem tap_keeps_opposite (hg : s.graph.WellFormed) (ht : s.tool = .edge)
    (he : s.edgeTool = .seekingChild parent) (hback : s.graph.hasEdge child parent = true)
    (hnew : child ∉ s.graph.children parent) (hflip : s.config.flipReverseEdges = false) :
    let reason : Rejection :=
      if s.graph.persists parent = true then .persistedParent else .reverseEdgeExists
    perform (.tap child) s = ⟨{ s with edgeTool := s.edgeTool.next s.config (.rejected reason) },
      [.notice (.rejected reason)], .ok (.tapped (.edge (.rejected reason)))⟩ := by
  intro reason
  have hmem := Graph.hasEdge_iff.1 hback
  have hne : child ≠ parent := by
    rintro rfl
    exact hg.notMem_children_self child hmem
  have hobjects : s.graph.Objects s.config parent child reason := by
    cases hp : s.graph.persists parent with
    | true =>
      rw [show reason = .persistedParent from if_pos hp]
      exact ⟨hne, hp⟩
    | false =>
      rw [show reason = .reverseEdgeExists from if_neg (by simp [hp])]
      exact ⟨hne, hp, Bool.eq_false_iff.2 (mt Graph.hasEdge_iff.1 hnew), hback, hflip⟩
  have hrefused := EdgeTool.respond_refused hg ((EdgeTool.respond_child_eq_rejected_iff hg
    (Graph.contains_of_mem_children hmem) (hg.contains_child hmem)).2 hobjects)
  rw [perform_tap, tap_edge ht, he, hrefused]
  rfl

end

/-- Where no two cards support each other, no run without a load makes any two do so. An edge
drawn against another one takes its place before the pass that settles it: the other edge is gone
for good, and the new one stays, unless its parent comes to read one other leaf and gives it up,
as announced. Where the settings do not allow that, the selection is refused and the graph stays as
it is. -/
theorem stays_one_way {s : Session Graph} (hg : s.graph.WellFormed) (hone : s.graph.OneWay) :
    (∀ actions : List Action, (∀ a ∈ actions, ∀ snapshot fresh, a ≠ .load snapshot fresh) →
      (s.after actions).graph.OneWay) ∧
    ∀ parent child, s.tool = .edge → s.edgeTool = .seekingChild parent →
      s.graph.hasEdge child parent = true →
      (s.config.flipReverseEdges = true → s.graph.persists parent = false →
        (∀ x y, (s.graph.joined parent child).hasEdge x y = true ↔ (x = parent ∧ y = child) ∨
          s.graph.hasEdge x y = true ∧ ¬(x = child ∧ y = parent)) ∧
        ∃ v role left repairs stats,
          Graph.propagate v role none true (s.graph.joined parent child) =
            ⟨left, repairs, .ok stats⟩ ∧
          perform (.tap child) s = ⟨{ s with edgeTool := .seekingParent, graph := left },
            .edgeRemoved child parent :: .edgeAdded parent child :: repairs,
            .ok (.tapped (.edge (.committed parent child true stats)))⟩ ∧
          left.hasEdge child parent = false ∧
          (left.hasEdge parent child = true ∨ left.role parent = .interpretation ∧
            (∃ leaf, leaf ≠ child ∧ left.children parent = [leaf] ∧ left.children leaf = []) ∧
              .edgeRemoved parent child ∈ repairs)) ∧
      (s.config.flipReverseEdges = false →
        let reason : Rejection :=
          if s.graph.persists parent = true then .persistedParent else .reverseEdgeExists
        perform (.tap child) s =
          ⟨{ s with edgeTool := s.edgeTool.next s.config (.rejected reason) },
            [.notice (.rejected reason)], .ok (.tapped (.edge (.rejected reason)))⟩) := by
  refine ⟨fun actions ha => after_oneWay hg hone ha, fun parent child ht he hback => ?_⟩
  have hmem := Graph.hasEdge_iff.1 hback
  have hnew : child ∉ s.graph.children parent := hone child parent hmem
  refine ⟨fun hflip hp => ?_, tap_keeps_opposite hg ht he hback hnew⟩
  have hkp := hg.contains_child hmem
  have hw := hg.joined hkp (Graph.contains_of_mem_children hmem)
    (fun h => hg.notMem_children_self child (h ▸ hmem)) hnew
  obtain ⟨v, role, stats, -, hok, hupheld, hperform⟩ := tap_turns hg ht he hback hnew hflip hp
  refine ⟨fun x y => Graph.hasEdge_joined hkp, v, role, _, _, stats, ?_, hperform, ?_, ?_⟩
  · rw [← hok]
  · exact Bool.eq_false_iff.2 (mt Graph.hasEdge_iff.1 hupheld.clear)
  · rcases hupheld.support with hkept | ⟨hread, leaf, hleaf, hsole, hnil⟩
    · exact .inl (Graph.hasEdge_iff.2 hkept)
    · refine .inr ⟨hread, ⟨leaf, hleaf, hsole, hnil⟩, ?_⟩
      have hhonest := Graph.honest_propagate v role none true _ hw
      refine hhonest.edgeRemoved_mem (Graph.mem_children_joined hkp) ?_
      rw [hsole, List.mem_singleton]
      exact Ne.symm hleaf

def ringed (flip : Bool) : Session Graph where
  config := { flipReverseEdges := flip }
  graph := Graph.tangle
  tool := .edge
  edgeTool := .seekingChild ⟨"q"⟩

theorem stays_one_way_ringed :
    Graph.tangle.WellFormed ∧ Graph.tangle.OneWay ∧
      Graph.tangle.hasEdge ⟨"b"⟩ ⟨"q"⟩ = true ∧
      (perform (.tap ⟨"b"⟩) (ringed true)).state.graph.OneWay ∧
      (∃ repairs, (perform (.tap ⟨"b"⟩) (ringed true)).events =
        .edgeRemoved ⟨"b"⟩ ⟨"q"⟩ :: .edgeAdded ⟨"q"⟩ ⟨"b"⟩ :: repairs) ∧
      (perform (.tap ⟨"b"⟩) (ringed false)).events = [.notice (.rejected .reverseEdgeExists)] := by
  have hone : Graph.tangle.OneWay := (Graph.oneWay_iff_edges Graph.tangle_wellFormed).2 (by decide)
  have hback : Graph.tangle.hasEdge ⟨"b"⟩ ⟨"q"⟩ = true := by decide
  obtain ⟨hruns, hturn⟩ := stays_one_way (s := ringed true) Graph.tangle_wellFormed hone
  obtain ⟨-, v, role, left, repairs, stats, -, hperform, -⟩ :=
    (hturn ⟨"q"⟩ ⟨"b"⟩ rfl rfl hback).1 rfl (by decide)
  obtain ⟨-, hrefuse⟩ := stays_one_way (s := ringed false) Graph.tangle_wellFormed hone
  have hrefused := (hrefuse ⟨"q"⟩ ⟨"b"⟩ rfl rfl hback).2 rfl
  refine ⟨Graph.tangle_wellFormed, hone, hback, hruns [.tap ⟨"b"⟩] (by simp), ⟨repairs, ?_⟩, ?_⟩
  · rw [hperform]
  · rw [hrefused]
    rfl

end Session

end ArgumentMap
