import ArgumentMap.Proofs.Graph.Acceptance
import ArgumentMap.Proofs.Graph.Loaded
import ArgumentMap.Proofs.Session.Honesty

/-!
# Loads are all or nothing

A load succeeds just on the snapshots that are acceptable. Any other one is refused
for its first fault and leaves the session as it was.
-/

namespace ArgumentMap.Snapshot

variable {s : Snapshot} {fresh : NodeId → Uuid} {g : Graph}

theorem load_error_iff {e : Failure} :
    (s.load fresh g).result = .error e ↔ s.FirstFault g e := by
  rw [← check_eq_error_iff]
  cases h : s.check g with
  | error f => simp [load_of_error h fresh]
  | ok _ => simp [load_of_ok h fresh]

theorem load_ok_iff {root : Option NodeId} : (s.load fresh g).result = .ok root ↔
    s.check g = .ok () ∧ root = s.root := by
  cases h : s.check g with
  | error f => simp [load_of_error h fresh]
  | ok _ => simp [load_of_ok h fresh, eq_comm]

theorem card_of_addedTo (h : s.check g = .ok ()) {c : Card} (hc : c ∈ s.cards) :
    ∃ n, (s.addedTo fresh g).find? c.id = some n ∧ n.persisted = true ∧ n.role = c.role ∧
      n.body = c.body ∧ n.stableId = c.stableId.getD (fresh c.id) := by
  have hn := find?_addedTo h fresh c.id
  rw [find?_stock_of_card h hc, Option.map_some] at hn
  exact ⟨_, hn, rfl, rfl, rfl, rfl⟩

theorem old_of_addedTo (h : s.check g = .ok ()) {x : NodeId} {n : Node}
    (hn : g.find? x = some n) : ∃ m, (s.addedTo fresh g).find? x = some m ∧ m.role = n.role ∧
      m.persisted = n.persisted ∧ m.body = n.body ∧ m.stableId = n.stableId := by
  have hm := find?_addedTo h fresh x
  rw [Graph.find?_stock_of_contains (Graph.contains_of_find? hn), hn, Option.map_some] at hm
  exact ⟨_, hm, rfl, rfl, rfl, rfl⟩

theorem relations_of_addedTo (h : s.check g = .ok ()) {x : NodeId} {m : Node}
    (hm : (s.addedTo fresh g).find? x = some m) :
    m.children = g.children x ++ ((g.missing s.edges).filter (·.parent = x)).map (·.child) ∧
      m.parents = g.parents x ++ ((g.missing s.edges).filter (·.child = x)).map (·.parent) := by
  rw [find?_addedTo h] at hm
  obtain ⟨n, hn, rfl⟩ := Option.map_eq_some_iff.1 hm
  have hchildren : n.children = g.children x := by
    rw [← Graph.children_of_find? hn, Graph.children_stock]
  have hparents : n.parents = g.parents x := by
    rw [← Graph.parents_of_find? hn, Graph.parents_stock]
  rw [hchildren, hparents]
  exact ⟨rfl, rfl⟩

/-- A snapshot is loaded just if it is acceptable, and otherwise refused for its first
fault, with nothing changed or announced. A load puts the new cards behind the old ones
and the edges that were missing behind the old relations, and announces the root. -/
theorem load_all_or_nothing (g : Graph) (s : Snapshot) (fresh : NodeId → Uuid) :
    ((∃ root, (s.load fresh g).result = .ok root) ↔ s.Acceptable g) ∧
    (∀ e, (s.load fresh g).result = .error e ↔ s.FirstFault g e) ∧
    (∀ e, s.FirstFault g e → s.load fresh g = ⟨g, [], .error e⟩ ∧
      ∀ t : Session Graph, t.graph = g →
        Session.perform (.load s fresh) t = ⟨t, [], .error e⟩) ∧
    ∀ root, (s.load fresh g).result = .ok root →
      let h := (s.load fresh g).state
      root = s.root ∧ (s.load fresh g).events = [] ∧ h.ids = g.ids ++ s.cards.map (·.id) ∧
      (∀ c ∈ s.cards, ∃ n, h.find? c.id = some n ∧ n.persisted = true ∧ n.role = c.role ∧
        n.body = c.body ∧ n.stableId = c.stableId.getD (fresh c.id)) ∧
      (∀ x n, g.find? x = some n → ∃ m, h.find? x = some m ∧ m.role = n.role ∧
        m.persisted = n.persisted ∧ m.body = n.body ∧ m.stableId = n.stableId) ∧
      (∀ x m, h.find? x = some m →
        m.children = g.children x ++ ((g.missing s.edges).filter (·.parent = x)).map (·.child) ∧
        m.parents = g.parents x ++ ((g.missing s.edges).filter (·.child = x)).map (·.parent)) ∧
      ∀ t : Session Graph, t.graph = g → Session.perform (.load s fresh) t =
        ⟨{ t with graph := h, root := s.root }, [.graphLoaded s.root], .ok (.loaded s.root)⟩ := by
  refine ⟨?_, fun e => load_error_iff, fun e he => ⟨?_, ?_⟩, fun root hload => ?_⟩
  · simp only [load_ok_iff, ← check_eq_ok_iff]
    exact ⟨fun ⟨_, hcheck, _⟩ => hcheck, fun hcheck => ⟨_, hcheck, rfl⟩⟩
  · exact load_of_error (check_eq_error_iff.2 he) fresh
  · intro t ht
    subst ht
    exact Session.perform_load_of_error (check_eq_error_iff.2 he) fresh
  · obtain ⟨hcheck, rfl⟩ := load_ok_iff.1 hload
    rw [load_of_ok hcheck]
    refine ⟨rfl, rfl, ids_addedTo hcheck, fun c hc => card_of_addedTo hcheck hc,
      fun x n hn => old_of_addedTo hcheck hn, fun x m hm => relations_of_addedTo hcheck hm, ?_⟩
    intro t ht
    subst ht
    exact Session.perform_load_of_ok hcheck fresh

theorem load_all_or_nothing_twice :
    let n : NodeId := ⟨"n"⟩
    let x : NodeId := ⟨"sketch-0"⟩
    let s : Snapshot :=
      { root := some n, cards := [{ id := n, role := .source }], edges := [⟨x, n⟩, ⟨x, n⟩] }
    let fresh : NodeId → Uuid := fun _ => .nil
    let t := (Session.start {}).after [.addNode .nil]
    let u := (Session.perform (.load s fresh) t).state
    s.load fresh t.graph = ⟨u.graph, [], .ok (some n)⟩ ∧ s.Acceptable t.graph ∧
      u.graph.find? x = some { id := x, children := [n] } ∧
      u.graph.children x = [] ++ ((t.graph.missing s.edges).filter (·.parent = x)).map (·.child) ∧
      s.FirstFault u.graph (.duplicateNode n) ∧
      Session.perform (.load s fresh) u = ⟨u, [], .error (.duplicateNode n)⟩ := by
  intro n x s fresh t u
  have hload : s.load fresh t.graph = ⟨u.graph, [], .ok (some n)⟩ := by rfl
  have hx : u.graph.find? x = some { id := x, children := [n] } := by decide
  have hagain : (s.load fresh u.graph).result = .error (.duplicateNode n) := by decide
  have hfault := ((load_all_or_nothing u.graph s fresh).2.1 _).1 hagain
  obtain ⟨haccept, -, -, hloaded⟩ := load_all_or_nothing t.graph s fresh
  rw [hload] at haccept hloaded
  obtain ⟨-, -, -, -, -, hrelations, -⟩ := hloaded _ rfl
  refine ⟨hload, haccept.1 ⟨_, rfl⟩, hx, ?_, hfault, ?_⟩
  · rw [Graph.children_of_find? hx]
    exact (hrelations x _ hx).1
  · exact ((load_all_or_nothing u.graph s fresh).2.2.1 _ hfault).2 u rfl

end ArgumentMap.Snapshot
