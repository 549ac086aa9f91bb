import ArgumentMap.Proofs.Graph.Growth
import ArgumentMap.Snapshot

/-!
# What a load adds

A snapshot that passes its check is added without fail: first the cards, then
the edges that are not there yet. Old cards keep their role, and what supports
them is followed by what the snapshot puts below them.
-/

namespace ArgumentMap

namespace Graph

def stock (g : Graph) (fresh : NodeId → Uuid) (cards : List Snapshot.Card) : Graph :=
  { g with nodes := g.nodes ++ cards.map (·.toNode fresh) }

def draw (g : Graph) (e : Snapshot.Edge) : Graph :=
  if e.child ∈ g.children e.parent then g else g.link e.parent e.child

section
variable {g : Graph} {fresh : NodeId → Uuid} {cards : List Snapshot.Card}

theorem find?_stock (g : Graph) (fresh : NodeId → Uuid) (cards : List Snapshot.Card) (x : NodeId) :
    (g.stock fresh cards).find? x =
      (g.find? x).or ((cards.find? (·.id = x)).map (·.toNode fresh)) := by
  rw [find?, stock, List.find?_append, List.find?_map]
  rfl

theorem stock_cons (g : Graph) (fresh : NodeId → Uuid) (c : Snapshot.Card)
    (cards : List Snapshot.Card) :
    g.stock fresh (c :: cards) = (g.push (c.toNode fresh)).stock fresh cards := by
  simp [stock, push]

theorem ids_stock : (g.stock fresh cards).ids = g.ids ++ cards.map (·.id) := by
  simp [ids, stock, Function.comp_def, Snapshot.Card.toNode]

theorem contains_stock (fresh : NodeId → Uuid) (x : NodeId) :
    (g.stock fresh cards).contains x = true ↔ x ∈ cards.map (·.id) ∨ g.contains x = true := by
  rw [contains_iff_mem_ids, contains_iff_mem_ids, ids_stock, List.mem_append, or_comm]

theorem read_stock {α : Type} (read : Option Node → α)
    (hread : ∀ c : Snapshot.Card, read (some (c.toNode fresh)) = read none) (x : NodeId) :
    read ((g.stock fresh cards).find? x) = read (g.find? x) := by
  rw [find?_stock]
  cases g.find? x with
  | some n => rfl
  | none =>
    cases cards.find? (·.id = x) with
    | none => rfl
    | some c => exact hread c

theorem children_stock (x : NodeId) : (g.stock fresh cards).children x = g.children x :=
  read_stock (readOff [] Node.children) (fun _ => rfl) x

theorem parents_stock (x : NodeId) : (g.stock fresh cards).parents x = g.parents x :=
  read_stock (readOff [] Node.parents) (fun _ => rfl) x

theorem find?_stock_of_contains {x : NodeId} (hx : g.contains x = true) :
    (g.stock fresh cards).find? x = g.find? x := by
  obtain ⟨n, hn⟩ := contains_iff_find?.1 hx
  rw [find?_stock, hn]
  rfl

theorem persists_stock_of_unknown {x : NodeId} (hx : g.contains x = false)
    (h : (g.stock fresh cards).contains x = true) : (g.stock fresh cards).persists x = true := by
  have hnone : g.find? x = none := by simpa [contains] using hx
  obtain ⟨n, hn⟩ := contains_iff_find?.1 h
  rw [persists_of_find? hn]
  rw [find?_stock, hnone, Option.none_or] at hn
  obtain ⟨c, -, rfl⟩ := Option.map_eq_some_iff.1 hn
  rfl

theorem WellFormed.stock (hg : g.WellFormed) (hn : (cards.map (·.id)).Nodup)
    (hnew : ∀ c ∈ cards, g.contains c.id = false) : (g.stock fresh cards).WellFormed := by
  refine wellFormed_iff.2 ⟨?_, ?_, ?_, ?_, ?_⟩
  · rw [ids_stock, List.nodup_append']
    refine ⟨hg.nodup_ids, hn, ?_⟩
    intro x hx hmem
    obtain ⟨c, hc, rfl⟩ := List.mem_map.1 hmem
    exact Bool.false_ne_true ((hnew c hc).symm.trans (contains_iff_mem_ids.2 hx))
  · intro x
    rw [children_stock]
    exact hg.nodup_children_of x
  · intro x
    rw [parents_stock]
    exact hg.nodup_parents_of x
  · intro x
    rw [children_stock]
    exact hg.notMem_children_self x
  · intro p c
    rw [children_stock, parents_stock]
    exact hg.mem_children_iff

theorem addCards_eq (fresh : NodeId → Uuid) (hn : (cards.map (·.id)).Nodup)
    (hnew : ∀ c ∈ cards, g.contains c.id = false) :
    Snapshot.addCards fresh cards g = ⟨g.stock fresh cards, [], .ok ()⟩ := by
  induction cards generalizing g with
  | nil => simp [Snapshot.addCards, stock]
  | cons c cards ih =>
    obtain ⟨hc, hn⟩ := List.nodup_cons.1 hn
    obtain ⟨hfresh, hnew⟩ := List.forall_mem_cons.1 hnew
    have hpush : (g.insert (c.toNode fresh)).map ((), ·) =
        .ok ((), g.push (c.toNode fresh)) := by
      rw [insert_eq_ok_iff.2 ⟨hfresh, rfl⟩]
      rfl
    rw [Snapshot.addCards, Edit.attempt_bind_apply_of_ok g hpush, stock_cons]
    refine ih hn fun d hd => ?_
    have hne : d.id ≠ (c.toNode fresh).id := fun heq => hc (List.mem_map.2 ⟨d, hd, heq⟩)
    rw [contains, find?_push hfresh, if_neg hne]
    exact hnew d hd

end

section
variable {g : Graph} {e : Snapshot.Edge} {edges : List Snapshot.Edge} {x : NodeId}

@[simp] theorem contains_draw : (g.draw e).contains x = g.contains x := by
  rw [draw]
  split_ifs <;> simp

@[simp] theorem persists_draw : (g.draw e).persists x = g.persists x := by
  rw [draw]
  split_ifs <;> simp

@[simp] theorem role_draw : (g.draw e).role x = g.role x := by
  rw [draw]
  split_ifs <;> simp

theorem foldl_draw_keeps {α : Type} (q : Graph → α) (hq : ∀ g e, q (draw g e) = q g) :
    q (edges.foldl draw g) = q g := by
  induction edges generalizing g with
  | nil => rfl
  | cons e edges ih => rw [List.foldl_cons, ih, hq]

theorem contains_foldl_draw : (edges.foldl draw g).contains x = g.contains x :=
  foldl_draw_keeps (·.contains x) fun _ _ => contains_draw

theorem persists_foldl_draw : (edges.foldl draw g).persists x = g.persists x :=
  foldl_draw_keeps (·.persists x) fun _ _ => persists_draw

theorem role_foldl_draw : (edges.foldl draw g).role x = g.role x :=
  foldl_draw_keeps (·.role x) fun _ _ => role_draw

def Joins (g : Graph) (e : Snapshot.Edge) : Prop :=
  e.parent ≠ e.child ∧ g.contains e.parent = true ∧ g.contains e.child = true

theorem Joins.draw {d : Snapshot.Edge} (h : g.Joins d) : (g.draw e).Joins d := by
  simpa [Joins] using h

theorem connect_eq_draw (h : g.Joins e) :
    ∃ added, g.connect e.parent e.child = .ok (added, g.draw e) := by
  obtain ⟨hne, hp, hc⟩ := h
  rw [draw]
  split_ifs with hold
  · obtain ⟨p, hp⟩ := contains_iff_find?.1 hp
    obtain ⟨c, hc⟩ := contains_iff_find?.1 hc
    rw [children_of_find? hp] at hold
    refine ⟨false, ?_⟩
    simp [connect, node_eq_ok_iff.2 hp, node_eq_ok_iff.2 hc, hne, hold, bind, Except.bind, pure,
      Except.pure]
  · exact ⟨true, connect_eq_link hp hc hne hold⟩

theorem addEdges_eq (h : ∀ e ∈ edges, g.Joins e) :
    Snapshot.addEdges edges g = ⟨edges.foldl draw g, [], .ok ()⟩ := by
  induction edges generalizing g with
  | nil => rfl
  | cons e edges ih =>
    obtain ⟨added, he⟩ := connect_eq_draw (h e List.mem_cons_self)
    rw [Snapshot.addEdges, Edit.attempt_bind_apply_of_ok g he, List.foldl_cons]
    exact ih fun d hd => (h d (List.mem_cons_of_mem e hd)).draw

theorem WellFormed.draw (hg : g.WellFormed) (h : g.Joins e) : (g.draw e).WellFormed := by
  rw [Graph.draw]
  split_ifs with hold
  · exact hg
  · exact hg.link h.2.1 h.2.2 h.1 hold

theorem WellFormed.foldl_draw (hg : g.WellFormed) (h : ∀ e ∈ edges, g.Joins e) :
    (edges.foldl Graph.draw g).WellFormed := by
  induction edges generalizing g with
  | nil => exact hg
  | cons e edges ih =>
    exact ih (hg.draw (h e List.mem_cons_self))
      fun d hd => (h d (List.mem_cons_of_mem e hd)).draw

theorem children_draw (h : g.contains e.parent = true) : (g.draw e).children x =
    if e.parent = x ∧ e.child ∉ g.children x then g.children x ++ [e.child] else g.children x := by
  rw [draw]
  by_cases hx : e.parent = x
  · subst hx
    by_cases hold : e.child ∈ g.children e.parent
    · simp [hold]
    · simp [hold, children_link h]
  · have hother : ¬(e.parent = x ∧ e.child ∉ g.children x) := fun h => hx h.1
    rw [if_neg hother]
    split_ifs
    · rfl
    · rw [children_link h, if_neg (Ne.symm hx)]

theorem children_foldl_draw (h : ∀ e ∈ edges, g.Joins e) : (edges.foldl Graph.draw g).children x =
    g.children x ++ (((edges.filter (·.parent = x)).map (·.child)).filter
      (· ∉ g.children x)).eraseDups := by
  induction edges generalizing g with
  | nil => simp
  | cons e edges ih =>
    have he := h e List.mem_cons_self
    rw [List.foldl_cons, ih fun d hd => (h d (List.mem_cons_of_mem e hd)).draw,
      children_draw he.2.1]
    by_cases hx : e.parent = x
    · by_cases hold : e.child ∈ g.children x
      · simp [hx, hold]
      · have hskip : ∀ cs : List NodeId, cs.filter (· ∉ g.children x ++ [e.child]) =
            (cs.filter (· ∉ g.children x)).filter (fun c => !c == e.child) := by
          intro cs
          rw [List.filter_filter]
          refine List.filter_congr fun c _ => ?_
          by_cases hc : c = e.child <;> simp [hc, hold]
        simp only [hx, hold, not_false_eq_true, and_self, if_true, decide_true,
          List.filter_cons_of_pos, List.map_cons, List.eraseDups_cons, hskip, List.append_assoc,
          List.singleton_append]
    · simp [hx]

end

end Graph

namespace Snapshot

def support (s : Snapshot) (x : NodeId) : List NodeId :=
  (s.edges.filter (·.parent = x)).map (·.child)

def addedTo (s : Snapshot) (fresh : NodeId → Uuid) (g : Graph) : Graph :=
  s.edges.foldl Graph.draw (g.stock fresh s.cards)

section
variable {s : Snapshot} {fresh : NodeId → Uuid} {g : Graph}

theorem then_eq_ok_iff {x y : Except Failure Unit} :
    (x >>= fun _ => y) = .ok () ↔ x = .ok () ∧ y = .ok () := by
  cases x <;> simp [bind, Except.bind]

theorem checkCards_eq_ok_iff {seen : List NodeId} {cards : List Card} :
    checkCards g seen cards = .ok () ↔ (cards.map (·.id)).Nodup ∧
      ∀ c ∈ cards, c.id ∉ seen ∧ g.contains c.id = false := by
  induction cards generalizing seen with
  | nil => simp [checkCards]
  | cons c cards ih =>
    rw [checkCards]
    split_ifs with hc
    · refine iff_of_false nofun fun h => ?_
      obtain ⟨hseen, hk⟩ := h.2 c List.mem_cons_self
      exact hc.elim hseen fun hc => Bool.false_ne_true (hk.symm.trans hc)
    · rw [not_or, Bool.not_eq_true] at hc
      rw [ih]
      simp only [List.mem_cons, not_or, List.map_cons, List.nodup_cons, List.mem_map, not_exists,
        not_and, forall_eq_or_imp]
      constructor
      · intro h
        obtain ⟨hn, hrest⟩ := h
        exact ⟨⟨fun d hd => (hrest d hd).1.1, hn⟩, hc,
          fun d hd => ⟨(hrest d hd).1.2, (hrest d hd).2⟩⟩
      · intro h
        obtain ⟨⟨hne, hn⟩, -, hrest⟩ := h
        exact ⟨hn, fun d hd => ⟨⟨hne d hd, (hrest d hd).1⟩, (hrest d hd).2⟩⟩

theorem Edge.check_eq_ok_iff {known : NodeId → Bool} {e : Edge} : e.check known = .ok () ↔
    e.parent ≠ e.child ∧ known e.parent = true ∧ known e.child = true := by
  by_cases hne : e.parent = e.child
  · simp [Edge.check, hne]
  · cases hp : known e.parent <;> cases hc : known e.child <;>
      simp [Edge.check, checkKnown, hne, hp, hc, bind, Except.bind]

theorem check_edges_eq_ok_iff {known : NodeId → Bool} {edges : List Edge} :
    edges.forM (·.check known) = .ok () ↔ ∀ e ∈ edges, e.check known = .ok () := by
  induction edges with
  | nil => simp [pure, Except.pure]
  | cons e edges ih =>
    have hcons : (e :: edges).forM (·.check known) =
        e.check known >>= fun _ => edges.forM (·.check known) := rfl
    rw [hcons, then_eq_ok_iff, List.forall_mem_cons, ih]

theorem check_eq (s : Snapshot) (g : Graph) : s.check g = (checkCards g [] s.cards >>= fun _ =>
    s.edges.forM (·.check (s.knows g)) >>= fun _ => s.root.forM (checkKnown (s.knows g))) := rfl

theorem knows_iff {x : NodeId} :
    s.knows g x = true ↔ x ∈ s.cards.map (·.id) ∨ g.contains x = true := by
  rw [knows, Bool.or_eq_true, decide_eq_true_iff]
  rfl

theorem of_check (h : s.check g = .ok ()) (fresh : NodeId → Uuid) :
    (s.cards.map (·.id)).Nodup ∧ (∀ c ∈ s.cards, g.contains c.id = false) ∧
      ∀ e ∈ s.edges, (g.stock fresh s.cards).Joins e := by
  rw [check_eq, then_eq_ok_iff, then_eq_ok_iff] at h
  obtain ⟨hcards, hedges, -⟩ := h
  obtain ⟨hn, hnew⟩ := checkCards_eq_ok_iff.1 hcards
  refine ⟨hn, fun c hc => (hnew c hc).2, fun e he => ?_⟩
  have hcheck := Edge.check_eq_ok_iff.1 (check_edges_eq_ok_iff.1 hedges e he)
  rwa [knows_iff, knows_iff, ← Graph.contains_stock fresh, ← Graph.contains_stock fresh] at hcheck

/-- What has passed its check is added without fail. -/
theorem load_of_ok (h : s.check g = .ok ()) (fresh : NodeId → Uuid) :
    s.load fresh g = ⟨s.addedTo fresh g, [], .ok s.root⟩ := by
  obtain ⟨hn, hnew, hedges⟩ := of_check h fresh
  have hcards := Graph.addCards_eq fresh hn hnew
  have hlinks := Graph.addEdges_eq hedges
  rw [load, Edit.ask_bind_apply_of_ok g h, Edit.bind_apply_of_ok g (by rw [hcards]), hcards,
    Edit.bind_apply_of_ok _ (by rw [hlinks]), hlinks]
  rfl

theorem load_of_error {e : Failure} (h : s.check g = .error e) (fresh : NodeId → Uuid) :
    s.load fresh g = ⟨g, [], .error e⟩ := by
  rw [load, Edit.ask_bind_apply_of_error g h]

theorem addedTo_wellFormed (hg : g.WellFormed) (h : s.check g = .ok ()) :
    (s.addedTo fresh g).WellFormed := by
  obtain ⟨hn, hnew, hedges⟩ := of_check h fresh
  exact (hg.stock hn hnew).foldl_draw hedges

theorem children_addedTo (h : s.check g = .ok ()) (x : NodeId) :
    (s.addedTo fresh g).children x =
      g.children x ++ ((s.support x).filter (· ∉ g.children x)).eraseDups := by
  obtain ⟨-, -, hedges⟩ := of_check h fresh
  rw [addedTo, Graph.children_foldl_draw hedges, Graph.children_stock]
  rfl

theorem mem_children_addedTo (h : s.check g = .ok ()) {x c : NodeId} :
    c ∈ (s.addedTo fresh g).children x ↔ c ∈ g.children x ++ s.support x := by
  rw [children_addedTo h, List.mem_append, List.mem_append, List.mem_eraseDups, List.mem_filter]
  by_cases hc : c ∈ g.children x <;> simp [hc]

theorem persists_addedTo {x : NodeId} (hx : g.contains x = true) :
    (s.addedTo fresh g).persists x = g.persists x := by
  rw [addedTo, Graph.persists_foldl_draw, Graph.persists, Graph.find?_stock_of_contains hx]
  rfl

theorem role_addedTo {x : NodeId} (hx : g.contains x = true) :
    (s.addedTo fresh g).role x = g.role x := by
  rw [addedTo, Graph.role_foldl_draw, Graph.role, Graph.find?_stock_of_contains hx]
  rfl

theorem contains_of_persists_addedTo {x : NodeId}
    (hx : (s.addedTo fresh g).contains x = true)
    (hp : (s.addedTo fresh g).persists x = false) : g.contains x = true := by
  rw [addedTo, Graph.contains_foldl_draw] at hx
  rw [addedTo, Graph.persists_foldl_draw] at hp
  by_contra hk
  rw [Bool.not_eq_true] at hk
  rw [Graph.persists_stock_of_unknown hk hx] at hp
  cases hp

end

end Snapshot

end ArgumentMap
