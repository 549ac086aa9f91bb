import ArgumentMap.Proofs.Pass.Honesty
import ArgumentMap.Proofs.Pass.Upholding
import ArgumentMap.Proofs.Session.Drawing

/-!
# What becomes of a new edge

The pass that settles a new edge may write both of its cards several times and
even cut it again. What is left of it is the edge, or a parent that reads one
other leaf, and then the cut was announced.
-/

namespace ArgumentMap

namespace Graph

section
variable {g : Graph} {parent child v : NodeId} {role : Role} {stats : Stats}

theorem upheld_of_settlement (hg : g.WellFormed) (he : g.persists parent = false)
    (hc : child ∈ g.children parent) (hclear : parent ∉ g.children child)
    (hv : (v, role) = g.settlement parent child)
    (hok : (propagate v role none true g).result = .ok stats) :
    Pass.Upheld parent child (propagate v role none true g).state [] := by
  obtain ⟨p, q, log₁, log₂, more, henter, hclears, -, heq⟩ := propagate_of_ok hok
  obtain ⟨-, -, writes, -, hentered⟩ := Pass.entered_of_enter henter
  rw [heq]
  apply hclears.upheld (hentered.wellFormed hg)
  rw [settlement] at hv
  split_ifs at hv with hfit
  · cases hv
    exact hentered.upheld_of_parent hg he hc hclear hfit.1
  · cases hv
    exact hentered.upheld_of_child hg he hc hclear

theorem fits_of_upheld (h : Pass.Upheld parent child g []) :
    ∃ p, g.find? parent = some p ∧ (p.role = .interpretation ∨ p.role = .assertion) ∧
      p.allows p.role = true := by
  obtain ⟨c, hc⟩ := List.exists_mem_of_ne_nil _ h.children_ne_nil
  obtain ⟨p, hf⟩ := contains_iff_find?.1 (contains_of_mem_children hc)
  have hfit := h.fit
  rw [role_of_find? hf, children_of_find? hf] at hfit
  refine ⟨p, hf, ?_⟩
  rcases hfit with hr | ⟨hr, hlen⟩ | ⟨d, -, role, force, ht⟩
  · rw [hr]
    exact ⟨.inr rfl, rfl⟩
  · rw [hr, Node.allows, decide_eq_true_iff]
    exact ⟨.inl rfl, hlen⟩
  · cases ht

end

end Graph

namespace EdgeTool

section
variable {config : Config} {tool : EdgeTool} {g : Graph} {id parent child : NodeId}
  {flipped : Bool} {stats : Stats}

theorem drawn_of_respond (hg : g.WellFormed)
    (h : (respond config tool id g).result = .ok (.committed parent child flipped stats)) :
    tool = .seekingChild parent ∧ id = child ∧ g.contains child = true ∧
      Graph.objection? config parent child g = .ok none ∧
        respond config tool id g = Graph.commitEdge parent child g := by
  cases hk : g.contains id with
  | false =>
    rw [respond_unknown hk] at h
    cases h
  | true =>
    rw [respond_known hk] at h ⊢
    cases tool with
    | inactive => cases h
    | seekingParent => cases h
    | seekingChild p =>
      dsimp only at h ⊢
      rcases Graph.drawEdge_cases config g p id with ⟨-, -, hdraw⟩ | ⟨reason, -, hdraw⟩ |
        ⟨ho, hdraw⟩
      · rw [hdraw] at h
        cases h
      · rw [hdraw] at h
        cases h
      · obtain ⟨hne, hp, -, hnew, -⟩ := Graph.objection?_eq_none_iff.1 ho
        obtain ⟨v, role, stats', -, -, hcommit⟩ := Graph.commitEdge_eq hg hp hk hne hnew
        rw [hdraw, hcommit] at h
        cases h
        exact ⟨rfl, rfl, hk, ho, hdraw⟩

end

/-- What a committed edge leaves. Its parent is the user's own, and an opposite edge made
way for it, as announced first. After the new edge only the repairs of one pass are
announced. Then no edge runs against the new one and the parent is an interpretation or an
assertion in its place; either the edge is still there, or the parent reads one other leaf
and the pass cut the edge, as announced. The tool starts over. -/
theorem committed_leaves (config : Config) (tool : EdgeTool) {g : Graph} (hg : g.WellFormed)
    (id : NodeId) {parent child : NodeId} {flipped : Bool} {stats : Stats}
    (h : (select config id (tool, g)).result =
      .ok (.committed parent child flipped stats)) :
    let o := select config id (tool, g)
    let left := o.state.2
    g.persists parent = false ∧
    (flipped = true ↔ g.hasEdge child parent = true) ∧
    (∃ repairs v role, o.events = (if flipped then [.edgeRemoved child parent] else []) ++
        .edgeAdded parent child :: repairs ∧
      (v, role) = (g.joined parent child).settlement parent child ∧
      Graph.propagate v role none true (g.joined parent child) = ⟨left, repairs, .ok stats⟩ ∧
      (∀ e ∈ repairs, e.IsRepair) ∧
      (left.hasEdge parent child = true ∨ left.role parent = .interpretation ∧
        (∃ leaf, leaf ≠ child ∧ left.children parent = [leaf] ∧ left.children leaf = []) ∧
          .edgeRemoved parent child ∈ repairs)) ∧
    left.hasEdge child parent = false ∧
    (∃ p, left.find? parent = some p ∧ (p.role = .interpretation ∨ p.role = .assertion) ∧
      p.allows p.role = true) ∧
    o.state.1 = .seekingParent := by
  have hselect := select_eq config tool g id
  dsimp only at hselect
  rw [hselect] at h ⊢
  obtain ⟨rfl, rfl, hk, ho, hrespond⟩ := drawn_of_respond hg h
  obtain ⟨hne, hp, he, hnew, -⟩ := Graph.objection?_eq_none_iff.1 ho
  obtain ⟨v, role, stats', hv, hok, hcommit⟩ := Graph.commitEdge_eq hg hp hk hne hnew
  have hw := hg.joined hp hk hne hnew
  have hsupport : id ∈ (g.joined parent id).children parent := Graph.mem_children_joined hp
  have hupheld := Graph.upheld_of_settlement hw (by simpa using he) hsupport
    (Graph.notMem_children_joined hp hne) hv hok
  dsimp only at h
  rw [hrespond, hcommit] at h ⊢
  cases h
  have hrepairs := Graph.announces_propagate v role none true (g.joined parent id)
  refine ⟨he, Iff.rfl, ⟨_, v, role, ?_, hv, ?_, hrepairs, ?_⟩, ?_, Graph.fits_of_upheld hupheld,
    rfl⟩
  · rw [Graph.unlinkEvents_opposite]
  · rw [← hok]
  · rcases hupheld.support with hkept | ⟨hread, leaf, hleaf, hone, hnil⟩
    · exact .inl (Graph.hasEdge_iff.2 hkept)
    · have hcut : id ∉ (Graph.propagate v role none true (g.joined parent id)).state.children
          parent := by
        rw [hone, List.mem_singleton]
        exact Ne.symm hleaf
      have hhonest := Graph.honest_propagate v role none true _ hw
      exact .inr ⟨hread, ⟨leaf, hleaf, hone, hnil⟩, hhonest.edgeRemoved_mem hsupport hcut⟩
  · rw [Bool.eq_false_iff]
    exact mt Graph.hasEdge_iff.1 hupheld.clear

def contested : Graph where
  nodes :=
    [{ id := ⟨"p"⟩, role := .assertion, children := [⟨"l"⟩], parents := [⟨"c"⟩] },
      { id := ⟨"c"⟩, role := .assertion, children := [⟨"p"⟩] },
      { id := ⟨"l"⟩, parents := [⟨"p"⟩] }]

theorem committed_leaves_contested :
    let o := select {} ⟨"c"⟩ (.seekingChild ⟨"p"⟩, contested)
    contested.WellFormed ∧
      o.result = .ok (.committed ⟨"p"⟩ ⟨"c"⟩ true
        { calls := 3, typeWrites := 2, edgesDetached := 1 }) ∧
      o.state.2.edges = [(⟨"p"⟩, ⟨"l"⟩)] ∧
      ∃ repairs, o.events = .edgeRemoved ⟨"c"⟩ ⟨"p"⟩ :: .edgeAdded ⟨"p"⟩ ⟨"c"⟩ :: repairs ∧
        (∀ e ∈ repairs, e.IsRepair) ∧ .edgeRemoved ⟨"p"⟩ ⟨"c"⟩ ∈ repairs := by
  intro o
  have hw : contested.WellFormed := by constructor <;> decide
  have hok : o.result = .ok (.committed ⟨"p"⟩ ⟨"c"⟩ true
      { calls := 3, typeWrites := 2, edgesDetached := 1 }) := by decide
  obtain ⟨-, -, ⟨repairs, v, role, hevents, -, -, hrepairs, hfate⟩, -, -, -⟩ :=
    committed_leaves {} (.seekingChild ⟨"p"⟩) hw ⟨"c"⟩ hok
  have hcut : o.state.2.hasEdge ⟨"p"⟩ ⟨"c"⟩ = false := by decide
  refine ⟨hw, hok, by decide, repairs, hevents, hrepairs, ?_⟩
  rcases hfate with hkept | ⟨-, -, hremoved⟩
  · cases hcut.symm.trans hkept
  · exact hremoved

end EdgeTool

end ArgumentMap
