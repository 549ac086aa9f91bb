import ArgumentMap.Proofs.Graph.Relations
import ArgumentMap.Proofs.Pass.Asks

/-!
# Entering one card

What a pass does when it enters a card: nothing, handing on the role of a
persisted card, or taking the role, shedding surplus support and asking the
neighbours to follow. Each case is one equation, so that nothing later looks
inside `enter`.
-/

namespace ArgumentMap

namespace Graph

def recast (g : Graph) (id : NodeId) (r : Role) : Graph :=
  if g.role id = r then g else g.setRole id r

section
variable (g : Graph) (id : NodeId) (r : Role) (x : NodeId)

@[simp] theorem ids_recast : (g.recast id r).ids = g.ids := by
  simp only [recast]
  split_ifs <;> simp

@[simp] theorem children_recast : (g.recast id r).children x = g.children x := by
  simp only [recast]
  split_ifs <;> simp

@[simp] theorem parents_recast : (g.recast id r).parents x = g.parents x := by
  simp only [recast]
  split_ifs <;> simp

@[simp] theorem persists_recast : (g.recast id r).persists x = g.persists x := by
  simp only [recast]
  split_ifs <;> simp

@[simp] theorem contains_recast : (g.recast id r).contains x = g.contains x := by
  simp only [recast]
  split_ifs <;> simp

theorem role_recast_self (h : g.contains id = true) : (g.recast id r).role id = r := by
  rw [recast]
  split_ifs with hr
  · exact hr
  · rw [role_setRole, if_pos ⟨rfl, h⟩]

theorem role_recast_of_ne (h : x ≠ id) : (g.recast id r).role x = g.role x := by
  rw [recast]
  split_ifs with hr
  · rfl
  · rw [role_setRole, if_neg fun hx => h hx.1]

theorem WellFormed.recast (hg : g.WellFormed) : (g.recast id r).WellFormed :=
  hg.congr (by simp) (by simp) (by simp)

end

end Graph

namespace Pass

def recast (id : NodeId) (role : Role) (p : Pass Graph) : Pass Graph :=
  if p.graph.role id = role then p else p.writeRole id role

def recastEvents (id : NodeId) (before role : Role) : List Event :=
  if before ≠ role ∧ before ≠ .unset then [.notice (.typeChanged id before role)] else []

def cutEvents (id : NodeId) : Except Failure (List NodeId) → List Event
  | .ok (c :: cs) => [.notice (.nodesDetached id (c :: cs))]
  | _ => []

theorem graph_recast (id : NodeId) (role : Role) (p : Pass Graph) :
    (p.recast id role).graph = p.graph.recast id role := by
  simp only [recast, Graph.recast]
  split_ifs <;> rfl

section
variable {p : Pass Graph} {parent c : NodeId} {cs : List NodeId}

theorem disconnect_of_contains (hp : p.graph.contains parent = true)
    (hc : p.graph.contains c = true) : disconnect parent c p =
      .ok (decide (c ∈ p.graph.children parent) || decide (parent ∈ p.graph.parents c),
        { p with graph := p.graph.shed parent [c] }) := by
  simp only [disconnect, Store.disconnect, Graph.disconnect_eq_shed hp hc, Except.map]

theorem detachEach_cons_of_ok {removed : Bool} (h : disconnect parent c p = .ok (removed, q)) :
    detachEach parent (c :: cs) p =
      if removed then
        let r := detachEach parent cs q.countDetached
        ⟨r.state, .edgeRemoved parent c :: r.events, r.result.map (c :: ·)⟩
      else detachEach parent cs q := by
  rw [detachEach, Edit.attempt_bind_apply_of_ok _ h]
  cases removed with
  | false => rfl
  | true =>
    simp only [if_true, Edit.change_bind_apply, Edit.announce_bind_apply]
    cases hr : (detachEach parent cs q.countDetached).result with
    | error e =>
      rw [Edit.bind_apply_of_error _ hr]
      rfl
    | ok detached =>
      rw [Edit.bind_apply_of_ok _ hr]
      simp [Except.map]

theorem detachEach_cons_of_error {e : Failure} (h : disconnect parent c p = .error e) :
    detachEach parent (c :: cs) p = ⟨p, [], .error e⟩ := by
  rw [detachEach, Edit.attempt_bind_apply_of_error _ h]

theorem disconnect_eq_error (h : p.graph.contains parent = false ∨ p.graph.contains c = false) :
    ∃ e, disconnect parent c p = .error e := by
  cases hd : p.graph.disconnect parent c with
  | error e => exact ⟨e, by simp only [disconnect, Store.disconnect, hd, Except.map]⟩
  | ok r =>
    obtain ⟨hp, hc, -⟩ := Graph.disconnect_eq_ok_iff.1 hd
    simp [hp, hc] at h

theorem state_of_detachEach {detached : List NodeId}
    (h : (detachEach parent cs p).result = .ok detached) : (detachEach parent cs p).state =
      { graph := p.graph.shed parent cs
        stats := { p.stats with
          edgesDetached := p.stats.edgesDetached + detached.length } } := by
  induction cs generalizing p detached with
  | nil =>
    cases h
    simp [detachEach]
  | cons c cs ih =>
    by_cases hk : p.graph.contains parent = true ∧ p.graph.contains c = true
    · have hd := disconnect_of_contains hk.1 hk.2
      rw [detachEach_cons_of_ok hd] at h ⊢
      split_ifs at h ⊢ with hr
      · cases hrec : (detachEach parent cs
            (countDetached { p with graph := p.graph.shed parent [c] })).result with
        | error e => simp [hrec, Except.map] at h
        | ok rest =>
          simp only [hrec, Except.map, Except.ok.injEq] at h
          subst h
          rw [ih hrec]
          simp only [countDetached, Graph.shed_shed, List.length_cons, Pass.mk.injEq,
            Stats.mk.injEq, true_and]
          omega
      · rw [ih h]
        simp [Graph.shed_shed]
    · have hk' : p.graph.contains parent = false ∨ p.graph.contains c = false := by
        cases hp : p.graph.contains parent <;> simp_all
      obtain ⟨e, he⟩ := disconnect_eq_error hk'
      rw [detachEach_cons_of_error he] at h
      cases h

theorem detachEach_of_support (hp : p.graph.contains parent = true) (hn : cs.Nodup)
    (hcs : ∀ c ∈ cs, c ∈ p.graph.children parent ∧ p.graph.contains c = true) :
    detachEach parent cs p =
      ⟨{ graph := p.graph.shed parent cs
         stats := { p.stats with edgesDetached := p.stats.edgesDetached + cs.length } },
        cs.map (.edgeRemoved parent), .ok cs⟩ := by
  induction cs generalizing p with
  | nil => simp [detachEach]
  | cons c cs ih =>
    obtain ⟨hc, hk⟩ := hcs c (by simp)
    obtain ⟨hnot, hn⟩ := List.nodup_cons.1 hn
    rw [detachEach_cons_of_ok (disconnect_of_contains hp hk), if_pos (by simp [hc])]
    rw [ih (by simpa [countDetached] using hp) hn]
    · simp only [countDetached, Graph.shed_shed, Except.map, List.length_cons, List.map_cons,
        Nat.add_assoc, Nat.add_comm 1]
    · intro d hd
      obtain ⟨hd₁, hd₂⟩ := hcs d (by simp [hd])
      have hne : d ≠ c := fun he => hnot (he ▸ hd)
      simpa [countDetached, Graph.children_shed, hne] using ⟨hd₁, hd₂⟩

end

section
variable (n : Node) (role : Role) (origin : Option NodeId) (p : Pass Graph)

theorem reduce_apply : reduce n origin p =
    let cut := detachEach n.id (n.children.filter (· ∉ kept origin n.children)) p
    ⟨cut.state, cut.events ++ cutEvents n.id cut.result,
      cut.result.map fun _ => kept origin n.children⟩ := by
  simp only [reduce]
  generalize (detachEach n.id (n.children.filter (· ∉ kept origin n.children)) :
    Edit (Pass Graph) _) = cut
  cases hr : (cut p).result with
  | error e =>
    rw [Edit.bind_apply_of_error _ hr]
    simp [cutEvents, Except.map]
  | ok detached =>
    rw [Edit.bind_apply_of_ok _ hr]
    cases detached <;> simp [cutEvents, Except.map]

theorem spread_of_fit {repair : Bool}
    (h : ¬(role = .interpretation ∧ repair = true ∧ 1 < n.children.length)) :
    spread n role origin repair p = ⟨p, [], .ok (asks n.id n.children n.parents role)⟩ := by
  simp only [spread, asks]
  by_cases hl : n.children = []
  · simp [Node.isLeaf, hl]
  · rw [if_neg h]
    cases role <;> simp [Node.isLeaf, hl, demands]

theorem spread_with_repair : spread n role origin true p =
    let cut := detachEach n.id (surplus role origin n.children) p
    ⟨cut.state, cut.events ++ cutEvents n.id cut.result,
      cut.result.map fun _ => asks n.id (retained role origin n.children) n.parents role⟩ := by
  by_cases hs : role = .interpretation ∧ 1 < n.children.length
  · obtain ⟨rfl, hlen⟩ := hs
    have hleaf : n.children ≠ [] := by
      intro h
      simp [h] at hlen
    have hkept := kept_ne_nil origin hleaf
    have hasks : asks n.id (kept origin n.children) n.parents .interpretation =
        demands n (kept origin n.children) .interpretation := by
      simp [asks, demands, hkept]
    rw [surplus, retained, if_pos ⟨rfl, hlen⟩, if_pos ⟨rfl, hlen⟩, hasks, spread,
      if_neg (by simp [Node.isLeaf, hleaf]), if_pos ⟨rfl, rfl, hlen⟩,
      Edit.bind_pure_apply p _ (demands n · .interpretation), reduce_apply]
    generalize detachEach n.id (n.children.filter (· ∉ kept origin n.children)) p = cut
    obtain ⟨state, events, result⟩ := cut
    cases result <;> rfl
  · have hsur : surplus role origin n.children = [] := if_neg hs
    have hret : retained role origin n.children = n.children := if_neg hs
    rw [spread_of_fit n role origin p (by simpa using hs), hsur, hret]
    rfl

theorem assign_apply : assign n role p =
    ⟨p.writeRole n.id role,
      if n.role = .unset then [] else [.notice (.typeChanged n.id n.role role)], .ok ()⟩ := by
  simp only [assign]
  cases hr : n.role <;> rfl

end

section
variable {p : Pass Graph} {id : NodeId} {n : Node}

theorem node_bind_of_find? {α : Type} {f : Node → Edit (Pass Graph) α}
    (h : p.graph.find? id = some n) : (Edit.ask (Store.node ·.graph id) >>= f) p = f n p :=
  Edit.ask_bind_apply_of_ok p (Graph.node_eq_ok_iff.2 h)

theorem node_bind_of_unknown {α : Type} {f : Node → Edit (Pass Graph) α}
    (h : p.graph.find? id = none) :
    (Edit.ask (Store.node ·.graph id) >>= f) p = ⟨p, [], .error (.nodeNotFound id)⟩ :=
  Edit.ask_bind_apply_of_error p (Graph.node_eq_error_iff.2 ⟨h, rfl⟩)

theorem enter_unknown (h : p.graph.find? id = none) (role : Role) (origin : Option NodeId)
    (force : Bool) :
    enter id role origin force p = ⟨p.countCall, [], .error (.nodeNotFound id)⟩ := by
  rw [enter, Edit.change_bind_apply, node_bind_of_unknown (p := p.countCall) h]

theorem enter_persisted (h : p.graph.find? id = some n) (hp : n.persisted = true) (role : Role)
    (origin : Option NodeId) (force : Bool) : enter id role origin force p =
      ⟨p.countCall, [],
        .ok (if force then asks id n.children n.parents n.legalRole else [])⟩ := by
  rw [enter, Edit.change_bind_apply, node_bind_of_find? (p := p.countCall) h, if_pos hp]
  cases force with
  | false => rfl
  | true => rw [if_pos rfl, spread_of_fit _ _ _ _ (by simp), Graph.id_of_find? h, if_pos rfl]

theorem enter_idle (h : p.graph.find? id = some n) (hp : n.persisted = false) {role : Role}
    (hr : n.role = role) (origin : Option NodeId) :
    enter id role origin false p = ⟨p.countCall, [], .ok []⟩ := by
  rw [enter, Edit.change_bind_apply, node_bind_of_find? (p := p.countCall) h]
  simp [hp, hr]

theorem enter_taking (h : p.graph.find? id = some n) (hp : n.persisted = false) {role : Role}
    {force : Bool} (hr : n.role = role → force = true) (origin : Option NodeId) :
    enter id role origin force p =
      let cut := detachEach id (surplus role origin n.children) (p.countCall.recast id role)
      ⟨cut.state, recastEvents id n.role role ++ (cut.events ++ cutEvents id cut.result),
        cut.result.map fun _ => asks id (retained role origin n.children) n.parents role⟩ := by
  have hid := Graph.id_of_find? h
  have hrole : p.countCall.graph.role id = n.role := Graph.role_of_find? h
  rw [enter, Edit.change_bind_apply, node_bind_of_find? (p := p.countCall) h, if_neg (by simp [hp])]
  by_cases hc : n.role = role
  · rw [if_pos hc, hr hc, if_pos rfl, spread_with_repair, hid, recast, if_pos (hrole.trans hc),
      recastEvents, if_neg (by simp [hc])]
    rfl
  · have ha := assign_apply n role p.countCall
    have hw : p.countCall.recast id role = p.countCall.writeRole id role :=
      if_neg (by rwa [hrole])
    rw [if_neg hc, Edit.bind_apply_of_ok (a := ()) _ (by rw [ha]), ha, spread_with_repair, hid, hw]
    by_cases hu : n.role = .unset <;> simp [recastEvents, hc, hu]

end

end Pass

end ArgumentMap
