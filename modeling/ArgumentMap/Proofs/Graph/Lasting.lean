import ArgumentMap.Proofs.Graph.Change
import ArgumentMap.Proofs.Graph.Loading

/-!
# Cards last

Every edit leaves the cards of a graph in their places, with the identifiers and
marks that they came with. Persisted cards keep their role too, and the content
of a card changes only where its text is written.
-/

namespace ArgumentMap

structure Node.Lasts (texts : List String) (n m : Node) : Prop where
  id : m.id = n.id
  stableId : m.stableId = n.stableId
  persisted : m.persisted = n.persisted
  role : n.persisted = true → m.role = n.role
  body : m.body = texts.foldl Body.setText n.body

namespace Node.Lasts

variable {n m k : Node} {texts texts' : List String}

theorem refl (n : Node) : n.Lasts [] n := ⟨rfl, rfl, rfl, fun _ => rfl, rfl⟩

theorem trans (h : n.Lasts texts m) (h' : m.Lasts texts' k) : n.Lasts (texts ++ texts') k := by
  refine ⟨h'.id.trans h.id, h'.stableId.trans h.stableId, h'.persisted.trans h.persisted,
    fun hp => ?_, ?_⟩
  · exact (h'.role (h.persisted.trans hp)).trans (h.role hp)
  · rw [h'.body, h.body, List.foldl_append]

end Node.Lasts

namespace Graph

/-- The cards of the first graph stand in the second one in their places. -/
structure Lasts (texts : NodeId → List String) (g h : Graph) : Prop where
  order : g.ids <+: h.ids
  card : ∀ {id : NodeId} {n : Node}, g.find? id = some n →
    ∃ m, h.find? id = some m ∧ n.Lasts (texts id) m

def silent (_ : NodeId) : List String := []

section
variable {g h k : Graph} {texts texts' : NodeId → List String} {id : NodeId}

theorem Lasts.refl (g : Graph) : g.Lasts silent g :=
  ⟨List.prefix_refl _, fun hf => ⟨_, hf, .refl _⟩⟩

theorem Lasts.trans (h₁ : g.Lasts texts h) (h₂ : h.Lasts texts' k) :
    g.Lasts (fun id => texts id ++ texts' id) k := by
  refine ⟨h₁.order.trans h₂.order, fun hf => ?_⟩
  obtain ⟨m, hm, hnm⟩ := h₁.card hf
  obtain ⟨l, hl, hml⟩ := h₂.card hm
  exact ⟨l, hl, hnm.trans hml⟩

theorem Lasts.then_silent (h₁ : g.Lasts texts h) (h₂ : h.Lasts silent k) : g.Lasts texts k := by
  have hboth := h₁.trans h₂
  simpa only [silent, List.append_nil] using hboth

theorem Lasts.contains (hl : g.Lasts texts h) (hk : g.contains id = true) :
    h.contains id = true := by
  obtain ⟨n, hn⟩ := contains_iff_find?.1 hk
  obtain ⟨m, hm, -⟩ := hl.card hn
  exact contains_of_find? hm

theorem Lasts.persists (hl : g.Lasts texts h) (hk : g.contains id = true) :
    h.persists id = g.persists id := by
  obtain ⟨n, hn⟩ := contains_iff_find?.1 hk
  obtain ⟨m, hm, hnm⟩ := hl.card hn
  rw [persists_of_find? hm, persists_of_find? hn, hnm.persisted]

theorem Lasts.role (hl : g.Lasts texts h) (hp : g.persists id = true) :
    h.role id = g.role id := by
  obtain ⟨n, hn⟩ := contains_iff_find?.1 (contains_of_persists hp)
  obtain ⟨m, hm, hnm⟩ := hl.card hn
  rw [persists_of_find? hn] at hp
  rw [role_of_find? hm, role_of_find? hn, hnm.role hp]

theorem lasts_of_map {f : NodeId → Node → Node} (hids : h.ids = g.ids)
    (hfind : ∀ x, h.find? x = (g.find? x).map (f x))
    (hf : ∀ {x n}, g.find? x = some n → n.Lasts (texts x) (f x n)) : g.Lasts texts h := by
  refine ⟨hids ▸ List.prefix_refl _, fun {x n} hn => ?_⟩
  exact ⟨f x n, by rw [hfind, hn, Option.map_some], hf hn⟩

theorem lasts_setRole (role : Role) (hp : g.persists id = false) :
    g.Lasts silent (g.setRole id role) := by
  refine lasts_of_map (f := fun x n => if x = id then { n with role := role } else n)
    (ids_setRole g id role) (fun x => ?_) fun {x n} hn => ?_
  · rw [find?_setRole]
    split_ifs <;> simp
  · split_ifs with hx
    · subst hx
      rw [persists_of_find? hn] at hp
      refine ⟨rfl, rfl, rfl, fun hpers => ?_, rfl⟩
      rw [hp] at hpers
      cases hpers
    · exact .refl n

theorem lasts_shed (parent : NodeId) (cs : List NodeId) : g.Lasts silent (g.shed parent cs) :=
  lasts_of_map (ids_shed g parent cs) (find?_shed g parent cs)
    fun _ => ⟨rfl, rfl, rfl, fun _ => rfl, rfl⟩

theorem lasts_link (parent child : NodeId) : g.Lasts silent (g.link parent child) :=
  lasts_of_map (ids_link g parent child) (find?_link g parent child)
    fun _ => ⟨rfl, rfl, rfl, fun _ => rfl, rfl⟩

theorem lasts_push {n : Node} (hn : g.contains n.id = false) : g.Lasts silent (g.push n) := by
  refine ⟨?_, fun {x m} hm => ⟨m, ?_, .refl m⟩⟩
  · rw [ids_push]
    exact List.prefix_append _ _
  · rw [find?_push hn, if_neg, hm]
    intro hx
    rw [← hx, contains_of_find? hm] at hn
    cases hn

theorem lasts_mint (g : Graph) (u : Uuid) : g.Lasts silent (g.mint u).2 := by
  -- the counter is no part of what lasts
  have hpush : g.Lasts silent (g.push { id := (g.mint u).1, stableId := u }) :=
    lasts_push (g.mint_fresh u)
  exact ⟨hpush.order, hpush.card⟩

theorem lasts_reword (g : Graph) (id : NodeId) (text : String) :
    g.Lasts (fun x => if x = id then [text] else []) (g.reword id text) := by
  refine lasts_of_map
    (f := fun x n => if x = id then { n with body := n.body.setText text } else n)
    ids_reword (fun x => ?_) fun {x n} _ => ?_
  · rw [reword, find?_modify]
    · split_ifs <;> simp
    · exact fun _ => rfl
  · split_ifs
    · exact ⟨rfl, rfl, rfl, fun _ => rfl, rfl⟩
    · exact .refl n

theorem lasts_stock (fresh : NodeId → Uuid) (cards : List Snapshot.Card) :
    g.Lasts silent (g.stock fresh cards) := by
  refine ⟨?_, fun {x n} hn => ⟨n, ?_, .refl n⟩⟩
  · rw [ids_stock]
    exact List.prefix_append _ _
  · rw [find?_stock_of_contains (contains_of_find? hn), hn]

theorem lasts_draw (e : Snapshot.Edge) : g.Lasts silent (g.draw e) := by
  rw [draw]
  split_ifs
  · exact .refl g
  · exact lasts_link e.parent e.child

theorem lasts_foldl_draw (edges : List Snapshot.Edge) :
    g.Lasts silent (edges.foldl draw g) := by
  induction edges generalizing g with
  | nil => exact .refl g
  | cons e edges ih => exact (lasts_draw e).then_silent ih

theorem lasts_addedTo (s : Snapshot) (fresh : NodeId → Uuid) (g : Graph) :
    g.Lasts silent (s.addedTo fresh g) :=
  (lasts_stock fresh s.cards).then_silent (lasts_foldl_draw s.edges)

end

end Graph

end ArgumentMap
