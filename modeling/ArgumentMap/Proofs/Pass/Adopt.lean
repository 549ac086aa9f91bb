import ArgumentMap.Proofs.Pass.Enter

/-!
# The graph after a card adopts a role

Adopting a role writes it and sheds surplus support. Leaves stay leaves, other
cards keep at least one child, and only interpretations lose any. A successful
entry is one of three things, and on a well-formed graph every entry succeeds.
-/

namespace ArgumentMap

namespace Graph

def adopt (g : Graph) (id : NodeId) (role : Role) (origin : Option NodeId) : Graph :=
  (g.recast id role).shed id (Pass.surplus role origin (g.children id))

section
variable (g : Graph) (id : NodeId) (role : Role) (origin : Option NodeId) (x : NodeId)

@[simp] theorem ids_adopt : (g.adopt id role origin).ids = g.ids := by simp [adopt]

@[simp] theorem persists_adopt : (g.adopt id role origin).persists x = g.persists x := by
  simp [adopt]

@[simp] theorem contains_adopt : (g.adopt id role origin).contains x = g.contains x := by
  simp [adopt]

theorem role_adopt_self (h : g.contains id = true) : (g.adopt id role origin).role id = role := by
  rw [adopt, role_shed, role_recast_self g id role h]

theorem role_adopt_of_ne (h : x ≠ id) : (g.adopt id role origin).role x = g.role x := by
  rw [adopt, role_shed, role_recast_of_ne g id role x h]

theorem children_adopt : (g.adopt id role origin).children x =
    if x = id then (g.children x).filter (· ∉ Pass.surplus role origin (g.children id))
    else g.children x := by
  simp [adopt, children_shed]

theorem children_adopt_of_ne (h : x ≠ id) :
    (g.adopt id role origin).children x = g.children x := by
  rw [children_adopt, if_neg h]

theorem parents_adopt : (g.adopt id role origin).parents x =
    if x ∈ Pass.surplus role origin (g.children id) then (g.parents x).filter (· ≠ id)
    else g.parents x := by
  simp [adopt, parents_shed]

theorem children_adopt_sublist :
    ((g.adopt id role origin).children x).Sublist (g.children x) := by
  rw [children_adopt]
  split_ifs
  · exact List.filter_sublist
  · exact List.Sublist.refl _

theorem parents_adopt_sublist :
    ((g.adopt id role origin).parents x).Sublist (g.parents x) := by
  rw [parents_adopt]
  split_ifs
  · exact List.filter_sublist
  · exact List.Sublist.refl _

theorem children_adopt_eq_nil :
    (g.adopt id role origin).children x = [] ↔ g.children x = [] := by
  rw [children_adopt]
  split_ifs with h
  · rw [h]
    exact Pass.filter_surplus_eq_nil
  · rfl

theorem adopt_of_surplus_eq_nil (h : Pass.surplus role origin (g.children id) = []) :
    g.adopt id role origin = g.recast id role := by
  rw [adopt, h, shed_nil]

end

section
variable {g : Graph} {id : NodeId}

theorem WellFormed.adopt (hg : g.WellFormed) (id : NodeId) (role : Role)
    (origin : Option NodeId) : (g.adopt id role origin).WellFormed :=
  (hg.recast g id role).shed _ _

theorem WellFormed.children_adopt_self (hg : g.WellFormed) (role : Role)
    (origin : Option NodeId) : (g.adopt id role origin).children id =
      Pass.retained role origin (g.children id) := by
  rw [children_adopt, if_pos rfl, Pass.filter_surplus (hg.nodup_children_of id)]

theorem WellFormed.parents_adopt_self (hg : g.WellFormed) (role : Role)
    (origin : Option NodeId) : (g.adopt id role origin).parents id = g.parents id := by
  rw [parents_adopt, if_neg]
  exact fun h => hg.notMem_children_self id (Pass.mem_of_mem_surplus h)

end

section
variable (g : Graph)

/-- The leaf that a card reads, if it reads nothing else. -/
def reading (x : NodeId) : Option NodeId :=
  (g.children x).head?.filter fun c => g.children c = [] ∧ ∀ d ∈ g.children x, d = c

variable {g}

theorem reading_eq_some_iff {x c : NodeId} : g.reading x = some c ↔
    c ∈ g.children x ∧ g.children c = [] ∧ ∀ d ∈ g.children x, d = c := by
  rw [reading, Option.filter_eq_some_iff]
  constructor
  · intro h
    obtain ⟨hh, hc⟩ := h
    exact ⟨List.mem_of_mem_head? hh, by simpa using hc⟩
  · intro h
    obtain ⟨hx, hc, hd⟩ := h
    refine ⟨?_, by simpa using ⟨hc, hd⟩⟩
    cases hs : g.children x with
    | nil => simp [hs] at hx
    | cons d rest => rw [List.head?_cons, hd d (by simp [hs])]

theorem reading_of_children_eq {h : Graph} {x : NodeId} (hx : h.children x = g.children x)
    (hleaf : ∀ y, h.children y = [] ↔ g.children y = []) : h.reading x = g.reading x := by
  simp only [reading, hx, hleaf]

@[simp] theorem reading_recast (g : Graph) (id : NodeId) (r : Role) (x : NodeId) :
    (g.recast id r).reading x = g.reading x :=
  reading_of_children_eq (by simp) (by simp)

theorem reading_eq_none_of_mem {x c : NodeId} (hx : c ∈ g.children x) (hc : g.children c ≠ []) :
    g.reading x = none := by
  cases hr : g.reading x with
  | none => rfl
  | some d =>
    obtain ⟨-, hd, ho⟩ := reading_eq_some_iff.1 hr
    rw [ho c hx] at hc
    exact absurd hd hc

theorem reading_adopt {x c : NodeId} (hx : c ∈ g.children x) (hc : g.children c = []) :
    (g.adopt x .interpretation (some c)).reading x = some c := by
  have hret : ∀ d, d ∈ (g.adopt x .interpretation (some c)).children x ↔ d = c := by
    intro d
    rw [children_adopt, if_pos rfl, List.mem_filter, Pass.surplus]
    split_ifs with hl
    · rw [Pass.kept_of_mem hx]
      by_cases hd : d = c <;> simp [hd, hx]
    · have hle : (g.children x).length ≤ 1 := by simpa using hl
      obtain ⟨e, he⟩ : ∃ e, g.children x = [e] :=
        List.length_eq_one_iff.1 (Nat.le_antisymm hle (List.length_pos_of_mem hx))
      rw [he] at hx ⊢
      have hce : c = e := by simpa using hx
      simp [hce]
  rw [reading_eq_some_iff, children_adopt_eq_nil]
  exact ⟨(hret c).2 rfl, hc, fun d hd => (hret d).1 hd⟩

end

end Graph

namespace Pass

/-- What a successful entry comes to: the graph after it, how many roles it
wrote, and what it asks. -/
inductive Entered (g : Graph) (id : NodeId) (role : Role) (origin : Option NodeId) :
    Bool → Graph → Nat → List Task → Prop where
  | idle : g.persists id = true ∨ g.role id = role → Entered g id role origin false g 0 []
  | handing : g.persists id = true →
      Entered g id role origin true g 0
        (asks id (g.children id) (g.parents id) (g.legalRole id))
  | taking {force : Bool} : g.persists id = false → (g.role id = role → force = true) →
      Entered g id role origin force (g.adopt id role origin) (if g.role id = role then 0 else 1)
        (asks id (retained role origin (g.children id)) (g.parents id) role)

section
variable {p q : Pass Graph} {id : NodeId} {role : Role} {origin : Option NodeId} {force : Bool}

theorem typeWrites_recast (p : Pass Graph) (id : NodeId) (role : Role) :
    (p.recast id role).stats.typeWrites =
      p.stats.typeWrites + if p.graph.role id = role then 0 else 1 := by
  simp only [recast]
  split_ifs <;> rfl

theorem calls_recast (p : Pass Graph) (id : NodeId) (role : Role) :
    (p.recast id role).stats.calls = p.stats.calls := by
  simp only [recast]
  split_ifs <;> rfl

theorem edgesDetached_recast (p : Pass Graph) (id : NodeId) (role : Role) :
    (p.recast id role).stats.edgesDetached = p.stats.edgesDetached := by
  simp only [recast]
  split_ifs <;> rfl

theorem entered_of_enter {log : List Event} {more : List Task}
    (h : enter id role origin force p = ⟨q, log, .ok more⟩) :
    p.graph.contains id = true ∧ q.stats.calls = p.stats.calls + 1 ∧
      ∃ writes, q.stats.typeWrites = p.stats.typeWrites + writes ∧
        Entered p.graph id role origin force q.graph writes more := by
  cases hf : p.graph.find? id with
  | none =>
    rw [enter_unknown hf] at h
    cases h
  | some n =>
    have hrole := Graph.role_of_find? hf
    have hpers := Graph.persists_of_find? hf
    have hchildren := Graph.children_of_find? hf
    have hparents := Graph.parents_of_find? hf
    refine ⟨Graph.contains_of_find? hf, ?_⟩
    cases hp : n.persisted with
    | true =>
      rw [enter_persisted hf hp] at h
      cases h
      refine ⟨rfl, 0, rfl, ?_⟩
      cases force with
      | false => exact .idle (.inl (hpers.trans hp))
      | true =>
        have he : Entered p.graph id role origin true p.graph 0 _ := .handing (hpers.trans hp)
        rwa [hchildren, hparents, Graph.legalRole_of_find? hf] at he
    | false =>
      by_cases hr : n.role = role → force = true
      · rw [enter_taking hf hp hr, Outcome.mk.injEq] at h
        obtain ⟨rfl, -, hres⟩ := h
        cases hcut : (detachEach id (surplus role origin n.children)
            (p.countCall.recast id role)).result with
        | error e =>
          rw [hcut] at hres
          cases hres
        | ok detached =>
          rw [hcut] at hres
          cases hres
          have htake : Entered p.graph id role origin force _ _ _ :=
            .taking (hpers.trans hp) (hrole.symm ▸ hr)
          rw [state_of_detachEach hcut]
          refine ⟨calls_recast _ _ _, _, typeWrites_recast _ _ _, ?_⟩
          rw [hchildren, hparents, Graph.adopt, hchildren] at htake
          simp only [graph_recast]
          exact htake
      · have hidle : n.role = role ∧ force = false := by simpa using hr
        obtain ⟨hsame, rfl⟩ := hidle
        rw [enter_idle hf hp hsame] at h
        cases h
        exact ⟨rfl, 0, rfl, .idle (.inr (hrole.trans hsame))⟩

theorem enter_taking_of_wellFormed (hg : p.graph.WellFormed) (hc : p.graph.contains id = true)
    (hp : p.graph.persists id = false) (hr : p.graph.role id = role → force = true) :
    enter id role origin force p =
      let cut := surplus role origin (p.graph.children id)
      ⟨{ graph := p.graph.adopt id role origin
         stats :=
          { calls := p.stats.calls + 1
            typeWrites := p.stats.typeWrites + if p.graph.role id = role then 0 else 1
            edgesDetached := p.stats.edgesDetached + cut.length } },
        recastEvents id (p.graph.role id) role ++
          (cut.map (.edgeRemoved id) ++ cutEvents id (.ok cut)),
        .ok (asks id (retained role origin (p.graph.children id)) (p.graph.parents id) role)⟩ := by
  obtain ⟨n, hf⟩ := Graph.contains_iff_find?.1 hc
  rw [Graph.role_of_find? hf] at hr ⊢
  rw [Graph.persists_of_find? hf] at hp
  rw [Graph.parents_of_find? hf, enter_taking hf hp hr, ← Graph.children_of_find? hf]
  have hnodup : (surplus role origin (p.graph.children id)).Nodup := by
    simp only [surplus]
    split_ifs
    · exact (hg.nodup_children_of id).filter _
    · exact List.nodup_nil
  have hgraph : (p.countCall.recast id role).graph = p.graph.recast id role :=
    graph_recast id role p.countCall
  have hsupport : ∀ c ∈ surplus role origin (p.graph.children id),
      c ∈ (p.countCall.recast id role).graph.children id ∧
        (p.countCall.recast id role).graph.contains c = true := by
    intro c hcs
    have hmem := mem_of_mem_surplus hcs
    simpa [hgraph] using ⟨hmem, hg.contains_child hmem⟩
  have hcut := detachEach_of_support (by simpa [hgraph] using hc) hnodup hsupport
  have hrole : p.countCall.graph.role id = n.role := Graph.role_of_find? hf
  simp only [hcut, hgraph, calls_recast, typeWrites_recast, edgesDetached_recast, hrole,
    Graph.adopt, Except.map]
  rfl

theorem enter_cases (hg : p.graph.WellFormed) {log : List Event} {more : List Task}
    (h : enter id role origin force p = ⟨q, log, .ok more⟩) :
    (q = p.countCall ∧ log = []) ∨ p.graph.persists id = false ∧
      let cut := surplus role origin (p.graph.children id)
      q = { graph := p.graph.adopt id role origin
            stats :=
            { calls := p.stats.calls + 1
              typeWrites := p.stats.typeWrites + if p.graph.role id = role then 0 else 1
              edgesDetached := p.stats.edgesDetached + cut.length } } ∧
      log = recastEvents id (p.graph.role id) role ++
        (cut.map (.edgeRemoved id) ++ cutEvents id (.ok cut)) := by
  have hk : p.graph.contains id = true := (entered_of_enter h).1
  obtain ⟨n, hf⟩ := Graph.contains_iff_find?.1 hk
  cases hp : n.persisted with
  | true =>
    rw [enter_persisted hf hp] at h
    cases h
    exact .inl ⟨rfl, rfl⟩
  | false =>
    by_cases hr : n.role = role → force = true
    · have hpers := (Graph.persists_of_find? hf).trans hp
      rw [← Graph.role_of_find? hf] at hr
      rw [enter_taking_of_wellFormed hg hk hpers hr] at h
      cases h
      exact .inr ⟨hpers, rfl, rfl⟩
    · obtain ⟨hsame, hforce⟩ := Classical.not_imp.1 hr
      rw [Bool.not_eq_true] at hforce
      rw [hforce, enter_idle hf hp hsame] at h
      cases h
      exact .inl ⟨rfl, rfl⟩

theorem enter_succeeds (hg : p.graph.WellFormed) (hc : p.graph.contains id = true) (role : Role)
    (origin : Option NodeId) (force : Bool) :
    ∃ q log more, enter id role origin force p = ⟨q, log, .ok more⟩ := by
  obtain ⟨n, hf⟩ := Graph.contains_iff_find?.1 hc
  cases hp : n.persisted with
  | true => exact ⟨_, _, _, enter_persisted hf hp role origin force⟩
  | false =>
    by_cases hr : n.role = role → force = true
    · have hpers := (Graph.persists_of_find? hf).trans hp
      rw [← Graph.role_of_find? hf] at hr
      exact ⟨_, _, _, enter_taking_of_wellFormed hg hc hpers hr⟩
    · have hidle : n.role = role ∧ force = false := by simpa using hr
      obtain ⟨hsame, rfl⟩ := hidle
      exact ⟨_, _, _, enter_idle hf hp hsame origin⟩

end

section
variable {g g' : Graph} {id : NodeId} {role : Role} {origin : Option NodeId} {force : Bool}
  {writes : Nat} {more : List Task}

theorem length_children_of_legalRole (h : g.legalRole id = .interpretation) :
    (g.children id).length ≤ 1 := by
  cases hf : g.find? id with
  | none => simp [Graph.children, hf]
  | some n =>
    have hallows := n.allows_legalRole
    rw [← Graph.legalRole_of_find? hf, h] at hallows
    rw [Graph.children_of_find? hf]
    simpa [Node.allows] using hallows

theorem Entered.more_eq (h : Entered g id role origin force g' writes more) :
    more = [] ∨ ∃ cs voice, more = asks id cs (g.parents id) voice ∧
      (cs = [] ↔ g.children id = []) ∧ cs.Sublist (g.children id) ∧
        (voice = .interpretation → cs.length ≤ 1) := by
  cases h with
  | idle => exact .inl rfl
  | handing =>
    exact .inr ⟨_, _, rfl, Iff.rfl, List.Sublist.refl _, length_children_of_legalRole⟩
  | taking =>
    refine .inr ⟨_, _, rfl, retained_eq_nil, retained_sublist _, ?_⟩
    intro hr
    subst hr
    exact length_retained_interpretation_le _ _

theorem Entered.ids (h : Entered g id role origin force g' writes more) : g'.ids = g.ids := by
  cases h <;> simp

theorem Entered.persists (h : Entered g id role origin force g' writes more) (x : NodeId) :
    g'.persists x = g.persists x := by
  cases h <;> simp

theorem Entered.children_eq_nil (h : Entered g id role origin force g' writes more) (x : NodeId) :
    g'.children x = [] ↔ g.children x = [] := by
  cases h with
  | taking => exact g.children_adopt_eq_nil _ _ _ x
  | _ => rfl

theorem Entered.children_sublist (h : Entered g id role origin force g' writes more)
    (x : NodeId) : (g'.children x).Sublist (g.children x) := by
  cases h with
  | taking => exact g.children_adopt_sublist _ _ _ x
  | _ => exact List.Sublist.refl _

theorem Entered.parents_sublist (h : Entered g id role origin force g' writes more)
    (x : NodeId) : (g'.parents x).Sublist (g.parents x) := by
  cases h with
  | taking => exact g.parents_adopt_sublist _ _ _ x
  | _ => exact List.Sublist.refl _

theorem Entered.role_of_ne (h : Entered g id role origin force g' writes more) {x : NodeId}
    (hx : x ≠ id) : g'.role x = g.role x := by
  cases h with
  | taking => exact g.role_adopt_of_ne _ _ _ x hx
  | _ => rfl

theorem Entered.children_of_ne (h : Entered g id role origin force g' writes more) {x : NodeId}
    (hx : x ≠ id) : g'.children x = g.children x := by
  cases h with
  | taking => exact g.children_adopt_of_ne _ _ _ x hx
  | _ => rfl

theorem Entered.wellFormed (h : Entered g id role origin force g' writes more)
    (hg : g.WellFormed) : g'.WellFormed := by
  cases h with
  | taking => exact hg.adopt _ _ _
  | _ => exact hg

theorem Entered.relations_le (h : Entered g id role origin force g' writes more) (x : NodeId) :
    (g'.parents x).length + (g'.children x).length ≤
      (g.parents x).length + (g.children x).length :=
  Nat.add_le_add (h.parents_sublist x).length_le (h.children_sublist x).length_le

end

end Pass

end ArgumentMap
