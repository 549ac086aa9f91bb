import ArgumentMap.Gesture
import ArgumentMap.Proofs.Graph.Change
import ArgumentMap.Proofs.Pass.Run

/-!
# Selections, one equation each

What a selection does to the edge tool and to the graph. A new edge first joins
its cards, which may seed a role, and then a pass from one of them settles it.
-/

namespace ArgumentMap

namespace Graph

section
variable {g : Graph} {parent child : NodeId}

theorem objection?_eq_none_iff {config : Config} :
    objection? config parent child g = .ok none ↔ parent ≠ child ∧ g.contains parent = true ∧
      g.persists parent = false ∧ child ∉ g.children parent ∧
        (parent ∈ g.children child → config.flipReverseEdges = true) := by
  simp only [objection?, Store.node, Store.hasEdge]
  by_cases hne : parent = child
  · simp [hne]
  · cases hf : g.find? parent with
    | none => simp [hne, node_eq_error_iff.2 ⟨hf, rfl⟩, contains, hf]
    | some p =>
      rw [if_neg hne, node_eq_ok_iff.2 hf, persists_of_find? hf]
      by_cases hp : p.persisted = true
      · simp [hp]
      · by_cases hd : child ∈ g.children parent
        · simp [hp, hasEdge, hd]
        · by_cases hr : parent ∈ g.children child
          · cases hflip : config.flipReverseEdges <;>
              simp [hne, contains_of_find? hf, hp, hasEdge, hd, hr]
          · simp [hne, contains_of_find? hf, hp, hasEdge, hd, hr]

theorem objection?_eq_error_iff {config : Config} {e : Failure} :
    objection? config parent child g = .error e ↔
      parent ≠ child ∧ g.find? parent = none ∧ e = .nodeNotFound parent := by
  simp only [objection?, Store.node, Store.hasEdge]
  by_cases hne : parent = child
  · simp [hne]
  · cases hf : g.find? parent with
    | none => simp [hne, node_eq_error_iff.2 ⟨hf, rfl⟩, eq_comm]
    | some p =>
      rw [if_neg hne, node_eq_ok_iff.2 hf]
      dsimp only
      split_ifs <;> simp

/-- The edge that runs against a new one. -/
def opposite (g : Graph) (parent child : NodeId) : Option (NodeId × NodeId) :=
  if g.hasEdge child parent then some (child, parent) else none

theorem opposite_eq_some_iff {e : NodeId × NodeId} :
    g.opposite parent child = some e ↔ g.hasEdge child parent = true ∧ e = (child, parent) := by
  rw [opposite]
  split_ifs with h <;> simp [h, eq_comm]

theorem opposite_isSome : (g.opposite parent child).isSome = g.hasEdge child parent := by
  rw [opposite]
  split_ifs with h <;> simp [h]

theorem unlinkEvents_opposite : unlinkEvents (g.opposite parent child) =
    if g.hasEdge child parent then [.edgeRemoved child parent] else [] := by
  rw [opposite]
  split_ifs <;> rfl

theorem notMem_children_unlink_opposite :
    parent ∉ (g.unlink (g.opposite parent child)).children child := by
  rw [children_unlink]
  intro h
  obtain ⟨hmem, hkept⟩ := List.mem_filter.1 h
  rw [decide_eq_true_iff] at hkept
  exact hkept (opposite_eq_some_iff.2 ⟨hasEdge_iff.2 hmem, rfl⟩)

theorem clearReverse_apply (hg : g.WellFormed) (parent child : NodeId) :
    clearReverse parent child g = ⟨g.unlink (g.opposite parent child),
      unlinkEvents (g.opposite parent child), .ok (g.opposite parent child).isSome⟩ := by
  rw [clearReverse, Edit.view_bind_apply, opposite]
  simp only [Store.hasEdge]
  split_ifs with h
  · have hmem := hasEdge_iff.1 h
    rw [Edit.attempt_bind_apply_of_ok g (disconnect_eq_shed (contains_of_mem_children hmem)
      (hg.contains_child hmem))]
    rfl
  · rfl

theorem seedRole_apply {p c : Node} (hp : g.find? parent = some p) (hc : g.find? child = some c) :
    seedRole parent child g =
      ⟨if !p.role.isSet ∧ !c.role.isSet ∧ !c.persisted then g.setRole child .assertion else g,
        [], .ok ()⟩ := by
  rw [seedRole, Edit.ask_bind_apply_of_ok g (node_eq_ok_iff.2 hp),
    Edit.ask_bind_apply_of_ok g (node_eq_ok_iff.2 hc)]
  split_ifs <;> rfl

theorem seedRole_cases (g : Graph) (parent child : NodeId) : (seedRole parent child g).state = g ∨
    g.persists child = false ∧
      (seedRole parent child g).state = g.setRole child .assertion := by
  cases hp : g.find? parent with
  | none =>
    rw [seedRole, Edit.ask_bind_apply_of_error g (node_eq_error_iff.2 ⟨hp, rfl⟩)]
    exact .inl rfl
  | some p =>
    cases hc : g.find? child with
    | none =>
      rw [seedRole, Edit.ask_bind_apply_of_ok g (node_eq_ok_iff.2 hp),
        Edit.ask_bind_apply_of_error g (node_eq_error_iff.2 ⟨hc, rfl⟩)]
      exact .inl rfl
    | some c =>
      rw [seedRole_apply hp hc]
      split_ifs with hunset
      · exact .inr ⟨by simpa [persists_of_find? hc] using hunset.2.2, rfl⟩
      · exact .inl rfl

end

section
variable (g : Graph) (parent child : NodeId)

def joined : Graph :=
  (seedRole parent child ((g.unlink (g.opposite parent child)).link parent child)).state

theorem read_joined {α : Type} (read : Graph → α)
    (hread : ∀ h : Graph, read (h.setRole child .assertion) = read h) :
    read (g.joined parent child) =
      read ((g.unlink (g.opposite parent child)).link parent child) := by
  rw [joined]
  rcases seedRole_cases ((g.unlink (g.opposite parent child)).link parent child) parent child
    with h | ⟨-, h⟩
  · rw [h]
  · rw [h, hread]

@[simp] theorem contains_joined (x : NodeId) :
    (g.joined parent child).contains x = g.contains x := by
  rw [read_joined g parent child (·.contains x) (by simp)]
  simp

@[simp] theorem persists_joined (x : NodeId) :
    (g.joined parent child).persists x = g.persists x := by
  rw [read_joined g parent child (·.persists x) (by simp)]
  simp

end

section
variable {g : Graph} {parent child : NodeId}

theorem children_joined (hp : g.contains parent = true) (x : NodeId) :
    (g.joined parent child).children x =
      if x = parent then (g.unlink (g.opposite parent child)).children x ++ [child]
      else (g.unlink (g.opposite parent child)).children x := by
  rw [read_joined g parent child (·.children x) (by simp), children_link (by simpa using hp)]

theorem mem_children_joined (hp : g.contains parent = true) :
    child ∈ (g.joined parent child).children parent := by
  rw [children_joined hp, if_pos rfl]
  exact List.mem_append_right _ (List.mem_singleton_self child)

theorem notMem_children_joined (hp : g.contains parent = true) (hne : parent ≠ child) :
    parent ∉ (g.joined parent child).children child := by
  rw [children_joined hp, if_neg (Ne.symm hne)]
  exact notMem_children_unlink_opposite

theorem role_of_joined {x : NodeId}
    (h : (g.joined parent child).role x = .interpretation) : g.role x = .interpretation := by
  rw [joined] at h
  rcases seedRole_cases ((g.unlink (g.opposite parent child)).link parent child) parent child
    with hseed | ⟨-, hseed⟩
  · simpa [hseed] using h
  · rw [hseed, role_setRole] at h
    split_ifs at h
    simpa using h

theorem WellFormed.joined (hg : g.WellFormed) (hp : g.contains parent = true)
    (hc : g.contains child = true) (hne : parent ≠ child) (hnew : child ∉ g.children parent) :
    (g.joined parent child).WellFormed := by
  have hlink := (hg.unlink (g.opposite parent child)).link (by simpa using hp)
    (by simpa using hc) hne (notMem_children_unlink _ hnew)
  rw [Graph.joined]
  rcases seedRole_cases _ parent child with h | ⟨-, h⟩
  · rwa [h]
  · rw [h]
    exact hlink.setRole child .assertion

/-- The card from which a pass settles a new edge, and the role that it enters it with. -/
def settlement (g : Graph) (parent child : NodeId) : NodeId × Role :=
  if g.legalRole parent = g.role parent ∧ g.persists child = false then (parent, g.role parent)
  else (child, g.legalRole child)

theorem allows_role_iff (n : Node) : n.allows n.role = true ↔ n.legalRole = n.role := by
  constructor
  · intro h
    rw [Node.legalRole, if_pos h]
  · intro h
    rw [← h]
    exact n.allows_legalRole

theorem settleEdge_apply (hp : g.contains parent = true) (hc : g.contains child = true) :
    settleEdge parent child g =
      propagate (g.settlement parent child).1 (g.settlement parent child).2 none true g := by
  obtain ⟨p, hp⟩ := contains_iff_find?.1 hp
  obtain ⟨c, hc⟩ := contains_iff_find?.1 hc
  have hfit : p.allows p.role ∧ !c.persisted ↔
      g.legalRole parent = g.role parent ∧ g.persists child = false := by
    rw [legalRole_of_find? hp, role_of_find? hp, persists_of_find? hc, allows_role_iff,
      Bool.not_eq_true']
  rw [settleEdge, Edit.ask_bind_apply_of_ok g (node_eq_ok_iff.2 hp),
    Edit.ask_bind_apply_of_ok g (node_eq_ok_iff.2 hc), settlement]
  by_cases h : p.allows p.role ∧ !c.persisted
  · rw [if_pos h, if_pos (hfit.1 h), role_of_find? hp]
  · rw [if_neg h, if_neg (mt hfit.2 h), legalRole_of_find? hc]

theorem commitEdge_apply (hg : g.WellFormed) (hp : g.contains parent = true)
    (hc : g.contains child = true) (hne : parent ≠ child) (hnew : child ∉ g.children parent) :
    commitEdge parent child g =
      let settled := settleEdge parent child (g.joined parent child)
      ⟨settled.state,
        unlinkEvents (g.opposite parent child) ++ .edgeAdded parent child :: settled.events,
        settled.result.map (.committed parent child (g.hasEdge child parent))⟩ := by
  have hclear := clearReverse_apply hg parent child
  rw [joined, ← opposite_isSome]
  generalize g.opposite parent child = e at hclear ⊢
  have hp' : (g.unlink e).contains parent = true := by simpa using hp
  have hc' : (g.unlink e).contains child = true := by simpa using hc
  have hnew' := notMem_children_unlink e hnew
  obtain ⟨p, hfp⟩ := contains_iff_find?.1 ((contains_link _ parent child parent).trans hp')
  obtain ⟨c, hfc⟩ := contains_iff_find?.1 ((contains_link _ parent child child).trans hc')
  have hseed := seedRole_apply hfp hfc
  rw [commitEdge, Edit.bind_apply_of_ok g (by rw [hclear]), hclear,
    Edit.attempt_bind_apply_of_ok _ (connect_eq_link hp' hc' hne hnew'),
    Edit.announce_bind_apply, Edit.bind_apply_of_ok _ (by rw [hseed]), Edit.bind_pure_apply]
  simp only [hseed, List.nil_append]

theorem commitEdge_eq (hg : g.WellFormed) (hp : g.contains parent = true)
    (hc : g.contains child = true) (hne : parent ≠ child) (hnew : child ∉ g.children parent) :
    ∃ v role stats, (v, role) = (g.joined parent child).settlement parent child ∧
      (propagate v role none true (g.joined parent child)).result = .ok stats ∧
      commitEdge parent child g =
        ⟨(propagate v role none true (g.joined parent child)).state,
          unlinkEvents (g.opposite parent child) ++ .edgeAdded parent child ::
            (propagate v role none true (g.joined parent child)).events,
          .ok (.committed parent child (g.hasEdge child parent) stats)⟩ := by
  obtain ⟨v, role, hv⟩ : ∃ v role, (v, role) = (g.joined parent child).settlement parent child :=
    ⟨_, _, rfl⟩
  have hk : (g.joined parent child).contains v = true := by
    rw [contains_joined]
    rw [settlement] at hv
    split_ifs at hv
    · cases hv
      exact hp
    · cases hv
      exact hc
  obtain ⟨stats, hok⟩ := propagate_succeeds (hg.joined hp hc hne hnew) hk role none true
  have hsettle : settleEdge parent child (g.joined parent child) = _ :=
    settleEdge_apply (by simpa using hp) (by simpa using hc)
  rw [← hv] at hsettle
  refine ⟨v, role, stats, hv, hok, ?_⟩
  rw [commitEdge_apply hg hp hc hne hnew, hsettle]
  dsimp only
  rw [hok]
  rfl

theorem drawEdge_cases (config : Config) (g : Graph) (parent child : NodeId) :
    (parent ≠ child ∧ g.contains parent = false ∧
      drawEdge config parent child g = ⟨g, [], .error (.nodeNotFound parent)⟩) ∨
    (∃ reason, objection? config parent child g = .ok (some reason) ∧
      drawEdge config parent child g =
        ⟨g, [.notice (.rejected reason)], .ok (.rejected reason)⟩) ∨
    (objection? config parent child g = .ok none ∧
      drawEdge config parent child g = commitEdge parent child g) := by
  cases ho : objection? config parent child g with
  | error e =>
    left
    obtain ⟨hne, hf, rfl⟩ := objection?_eq_error_iff.1 ho
    exact ⟨hne, by simpa [contains] using hf, by rw [drawEdge, Edit.ask_bind_apply_of_error g ho]⟩
  | ok objection =>
    rw [drawEdge, Edit.ask_bind_apply_of_ok g ho]
    cases objection with
    | some reason => exact .inr (.inl ⟨reason, rfl, rfl⟩)
    | none => exact .inr (.inr ⟨rfl, rfl⟩)

end

end Graph

namespace EdgeTool

def follow (config : Config) (tool : EdgeTool) : Except Failure EdgeOutcome → EdgeTool
  | .ok outcome => tool.next config outcome
  | .error _ => tool

section
variable {config : Config} {tool : EdgeTool} {g : Graph} {id : NodeId}

theorem select_eq (config : Config) (tool : EdgeTool) (g : Graph) (id : NodeId) :
    select config id (tool, g) =
      let answer := respond config tool id g
      ⟨(tool.follow config answer.result, answer.state), answer.events, answer.result⟩ := by
  have hzoom : Edit.zoom (·.2) (fun g s => (s.1, g)) (respond config tool id) (tool, g) =
      ⟨(tool, (respond config tool id g).state), (respond config tool id g).events,
        (respond config tool id g).result⟩ := rfl
  rw [select, Edit.view_bind_apply]
  cases hr : (respond config tool id g).result with
  | error e =>
    rw [hr] at hzoom
    rw [Edit.bind_apply_of_error _ (by rw [hzoom]), hzoom]
    simp only [hr, follow]
  | ok outcome =>
    rw [hr] at hzoom
    rw [Edit.bind_apply_of_ok _ (by rw [hzoom]), hzoom]
    simp [hr, follow]

theorem respond_unknown (h : g.contains id = false) :
    respond config tool id g = ⟨g, [], .error (.nodeNotFound id)⟩ := by
  have hf : g.find? id = none := by simpa [Graph.contains] using h
  simp only [respond]
  rw [Edit.ask_bind_apply_of_error g (Graph.node_eq_error_iff.2 ⟨hf, rfl⟩)]

theorem respond_known (h : g.contains id = true) : respond config tool id g =
    match tool with
    | .inactive => ⟨g, [], .ok .ignored⟩
    | .seekingParent => ⟨g, [], .ok (.parentSelected id)⟩
    | .seekingChild parent => Graph.drawEdge config parent id g := by
  obtain ⟨n, hf⟩ := Graph.contains_iff_find?.1 h
  simp only [respond]
  rw [Edit.ask_bind_apply_of_ok g (Graph.node_eq_ok_iff.2 hf)]
  cases tool <;> rfl

end

end EdgeTool

end ArgumentMap
