import ArgumentMap.Proofs.Graph.Loading

/-!
# Which snapshots are accepted

A snapshot is accepted if its cards are new and distinct and its edges and root
name known cards. Otherwise it is refused for the first thing wrong with it.
-/

namespace ArgumentMap

namespace Snapshot

def Fresh (g : Graph) (cards : List Card) : Prop :=
  (cards.map (·.id)).Nodup ∧ ∀ c ∈ cards, g.contains c.id = false

def Known (s : Snapshot) (g : Graph) (id : NodeId) : Prop :=
  id ∈ s.cards.map (·.id) ∨ g.contains id = true

def Fits (s : Snapshot) (g : Graph) (e : Edge) : Prop :=
  e.parent ≠ e.child ∧ s.Known g e.parent ∧ s.Known g e.child

structure Acceptable (s : Snapshot) (g : Graph) : Prop where
  cards : Fresh g s.cards
  edges : ∀ e ∈ s.edges, s.Fits g e
  root : ∀ id, s.root = some id → s.Known g id

inductive EdgeFault (s : Snapshot) (g : Graph) (e : Edge) : Failure → Prop where
  | loop : e.parent = e.child → EdgeFault s g e (.selfLoop e.parent)
  | parent : e.parent ≠ e.child → ¬s.Known g e.parent → EdgeFault s g e (.nodeNotFound e.parent)
  | child : e.parent ≠ e.child → s.Known g e.parent → ¬s.Known g e.child →
      EdgeFault s g e (.nodeNotFound e.child)

/-- The first thing wrong with a snapshot: with a card, then with an edge, each in their order,
then with the root. -/
inductive FirstFault (s : Snapshot) (g : Graph) : Failure → Prop where
  | card {before after : List Card} {c : Card} : s.cards = before ++ c :: after →
      Fresh g before → c.id ∈ before.map (·.id) ∨ g.contains c.id = true →
      FirstFault s g (.duplicateNode c.id)
  | edge {before after : List Edge} {e : Edge} {f : Failure} : Fresh g s.cards →
      s.edges = before ++ e :: after → (∀ d ∈ before, s.Fits g d) → s.EdgeFault g e f →
      FirstFault s g f
  | root {id : NodeId} : Fresh g s.cards → (∀ e ∈ s.edges, s.Fits g e) → s.root = some id →
      ¬s.Known g id → FirstFault s g (.nodeNotFound id)

section
variable {α : Type} {x y : Except Failure Unit} {f : α → Except Failure Unit} {l : List α}
  {e : Failure}

theorem then_eq_error_iff :
    (x >>= fun _ => y) = .error e ↔ x = .error e ∨ x = .ok () ∧ y = .error e := by
  cases x <;> simp [bind, Except.bind]

theorem forM_eq_error_iff : l.forM f = .error e ↔ ∃ before a after,
    l = before ++ a :: after ∧ (∀ b ∈ before, f b = .ok ()) ∧ f a = .error e := by
  have hcons : ∀ a l, (a :: l).forM f = f a >>= fun _ => l.forM f := fun _ _ => rfl
  constructor
  · intro h
    induction l with
    | nil => cases h
    | cons a l ih =>
      rw [hcons, then_eq_error_iff] at h
      rcases h with ha | ⟨ha, h⟩
      · exact ⟨[], a, l, rfl, by simp, ha⟩
      · obtain ⟨before, b, after, rfl, hbefore, hb⟩ := ih h
        exact ⟨a :: before, b, after, rfl, List.forall_mem_cons.2 ⟨ha, hbefore⟩, hb⟩
  · intro h
    obtain ⟨before, a, after, rfl, hbefore, ha⟩ := h
    induction before with
    | nil => rw [List.nil_append, hcons, ha]; rfl
    | cons b before ih =>
      obtain ⟨hb, hbefore⟩ := List.forall_mem_cons.1 hbefore
      rw [List.cons_append, hcons, hb]
      exact ih hbefore

end

theorem checkCards_eq_error_iff {g : Graph} {seen : List NodeId} {cards : List Card} {e : Failure} :
    checkCards g seen cards = .error e ↔ ∃ before c after, cards = before ++ c :: after ∧
      checkCards g seen before = .ok () ∧
        ((c.id ∈ before.map (·.id) ∨ c.id ∈ seen) ∨ g.contains c.id = true) ∧
          e = .duplicateNode c.id := by
  constructor
  · intro h
    induction cards generalizing seen with
    | nil => cases h
    | cons c cards ih =>
      rw [checkCards] at h
      split_ifs at h with hc
      · exact ⟨[], c, cards, rfl, rfl, hc.imp_left .inr, (Except.error.inj h).symm⟩
      · obtain ⟨before, d, after, rfl, hbefore, hd, he⟩ := ih h
        refine ⟨c :: before, d, after, rfl, by rwa [checkCards, if_neg hc], hd.imp_left ?_, he⟩
        rw [List.mem_cons, List.map_cons, List.mem_cons, or_assoc, or_left_comm]
        exact id
  · intro h
    obtain ⟨before, c, after, rfl, hbefore, hc, rfl⟩ := h
    induction before generalizing seen with
    | nil =>
      have hseen : c.id ∈ seen ∨ Store.contains g c.id = true := hc.imp_left (by simp)
      rw [List.nil_append, checkCards, if_pos hseen]
    | cons b before ih =>
      rw [checkCards] at hbefore
      split_ifs at hbefore with hb
      rw [List.cons_append, checkCards, if_neg hb]
      refine ih hbefore (hc.imp_left ?_)
      rw [List.map_cons, List.mem_cons, List.mem_cons, or_assoc, or_left_comm]
      exact id

section
variable {s : Snapshot} {g : Graph} {f : Failure}

theorem fresh_iff {cards : List Card} : checkCards g [] cards = .ok () ↔ Fresh g cards := by
  simp [checkCards_eq_ok_iff, Fresh]

theorem fits_iff {e : Edge} : e.check (s.knows g) = .ok () ↔ s.Fits g e := by
  rw [Edge.check_eq_ok_iff, knows_iff, knows_iff, Fits, Known, Known]

theorem checkKnown_eq_error_iff {known : NodeId → Bool} {id : NodeId} :
    checkKnown known id = .error f ↔ known id = false ∧ f = .nodeNotFound id := by
  rw [checkKnown]
  cases known id <;> simp [eq_comm]

theorem not_knows_iff {id : NodeId} : s.knows g id = false ↔ ¬s.Known g id := by
  rw [← Bool.not_eq_true, knows_iff, Known]

theorem edgeFault_iff {e : Edge} : e.check (s.knows g) = .error f ↔ s.EdgeFault g e f := by
  rw [Edge.check]
  constructor
  · intro h
    split_ifs at h with hne
    · cases h
      exact .loop hne
    · rw [then_eq_error_iff, checkKnown_eq_error_iff, checkKnown_eq_error_iff, not_knows_iff,
        not_knows_iff] at h
      rcases h with ⟨hp, rfl⟩ | ⟨hp, hc, rfl⟩
      · exact .parent hne hp
      · refine .child hne ?_ hc
        rw [checkKnown] at hp
        split_ifs at hp with hk
        exact knows_iff.1 hk
  · intro h
    cases h with
    | loop h => rw [if_pos h]
    | parent hne hp =>
      rw [if_neg hne, then_eq_error_iff, checkKnown_eq_error_iff, not_knows_iff]
      exact .inl ⟨hp, rfl⟩
    | child hne hp hc =>
      rw [if_neg hne, then_eq_error_iff, checkKnown_eq_error_iff, checkKnown_eq_error_iff,
        not_knows_iff, not_knows_iff]
      exact .inr ⟨if_pos (knows_iff.2 hp), hc, rfl⟩

theorem fits_all_iff {edges : List Edge} :
    edges.forM (·.check (s.knows g)) = .ok () ↔ ∀ e ∈ edges, s.Fits g e := by
  simp only [check_edges_eq_ok_iff, fits_iff]

theorem check_root_eq_ok_iff {known : NodeId → Bool} {root : Option NodeId} :
    root.forM (checkKnown known) = .ok () ↔ ∀ id, root = some id → known id = true := by
  cases root with
  | none => simp [Option.forM, pure, Except.pure]
  | some id => simp [Option.forM, checkKnown]

theorem check_root_eq_error_iff {known : NodeId → Bool} {root : Option NodeId} :
    root.forM (checkKnown known) = .error f ↔
      ∃ id, root = some id ∧ known id = false ∧ f = .nodeNotFound id := by
  cases root with
  | none => simp [Option.forM, pure, Except.pure]
  | some id => simp [Option.forM, checkKnown_eq_error_iff]

theorem check_eq_error_iff : s.check g = .error f ↔ s.FirstFault g f := by
  rw [check_eq, then_eq_error_iff, then_eq_error_iff, check_root_eq_error_iff, fresh_iff,
    fits_all_iff, checkCards_eq_error_iff, forM_eq_error_iff]
  constructor
  · intro h
    rcases h with ⟨before, c, after, hcards, hbefore, hc, rfl⟩ |
      ⟨hcards, ⟨before, e, after, hedges, hbefore, he⟩ | ⟨hedges, id, hroot, hid, rfl⟩⟩
    · exact .card hcards (fresh_iff.1 hbefore) (hc.imp_left (by simp))
    · exact .edge hcards hedges (fun d hd => fits_iff.1 (hbefore d hd)) (edgeFault_iff.1 he)
    · exact .root hcards hedges hroot (not_knows_iff.1 hid)
  · intro h
    cases h with
    | card hcards hbefore hc =>
      exact .inl ⟨_, _, _, hcards, fresh_iff.2 hbefore, hc.imp_left .inl, rfl⟩
    | edge hcards hedges hbefore he =>
      exact .inr ⟨hcards, .inl ⟨_, _, _, hedges, fun d hd => fits_iff.2 (hbefore d hd),
        edgeFault_iff.2 he⟩⟩
    | root hcards hedges hroot hid =>
      exact .inr ⟨hcards, .inr ⟨hedges, _, hroot, not_knows_iff.2 hid, rfl⟩⟩

theorem check_eq_ok_iff : s.check g = .ok () ↔ s.Acceptable g := by
  rw [check_eq, then_eq_ok_iff, then_eq_ok_iff, fresh_iff, fits_all_iff, check_root_eq_ok_iff]
  simp only [knows_iff]
  exact ⟨fun h => ⟨h.1, h.2.1, h.2.2⟩, fun h => ⟨h.cards, h.edges, h.root⟩⟩

end

end Snapshot

end ArgumentMap
