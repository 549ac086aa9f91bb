import ArgumentMap.Proofs.Graph.Listing
import ArgumentMap.Proofs.Pass.Matching
import ArgumentMap.Proofs.Pass.Repairs
import Mathlib.Logic.Relation

/-!
# Passes over unconnected parts

A pass stays among the cards that chains of edges join to its first card: it looks
at no other card and changes none. So two passes over unconnected parts do not
notice each other, and their order makes no difference.
-/

namespace ArgumentMap

namespace Graph

/-- Joined by a chain of edges, each taken in either direction. -/
def Linked (g : Graph) : NodeId → NodeId → Prop :=
  Relation.EqvGen fun p c => g.hasEdge p c = true

section
variable {g : Graph} {x y z : NodeId}

theorem Linked.refl (x : NodeId) : g.Linked x x := Relation.EqvGen.refl x

theorem Linked.symm (h : g.Linked x y) : g.Linked y x := Relation.EqvGen.symm x y h

theorem Linked.trans (h : g.Linked x y) (h' : g.Linked y z) : g.Linked x z :=
  Relation.EqvGen.trans x y z h h'

theorem linked_child (h : y ∈ g.children x) : g.Linked x y :=
  Relation.EqvGen.rel x y (hasEdge_iff.2 h)

theorem linked_parent (hg : g.WellFormed) (h : y ∈ g.parents x) : g.Linked x y :=
  (linked_child (hg.mem_children_iff.2 h)).symm

theorem Linked.iff {P : NodeId → Prop} (hP : ∀ p c, g.hasEdge p c = true → (P p ↔ P c))
    (h : g.Linked x y) : P x ↔ P y := by
  induction h with
  | rel p c hpc => exact hP p c hpc
  | refl => exact Iff.rfl
  | symm _ _ _ ih => exact ih.symm
  | trans _ _ _ _ _ ih ih' => exact ih.trans ih'

end

def Closed (g : Graph) (S : NodeId → Prop) : Prop :=
  ∀ x, S x → (∀ c ∈ g.children x, S c) ∧ ∀ p ∈ g.parents x, S p

/-- The graphs agree on a part that no edge leaves, and elsewhere each is what it was. -/
structure Within (S : NodeId → Prop) (g₀ h₀ g h : Graph) : Prop where
  inside : ∀ x, S x → g.find? x = h.find? x
  closed : g.Closed S
  outside : ∀ x, ¬ S x → g.find? x = g₀.find? x ∧ h.find? x = h₀.find? x

section
variable {S : NodeId → Prop} {g₀ h₀ g h : Graph} (hr : Within S g₀ h₀ g h) {x p c : NodeId}
include hr

theorem Within.sameAt (hx : S x) : g.SameAt h x := by
  rw [SameAt, hr.inside x hx]

theorem Within.setRole (role : Role) (hx : S x) :
    Within S g₀ h₀ (g.setRole x role) (h.setRole x role) := by
  refine ⟨fun y hy => ?_, fun y hy => ?_, fun y hy => ?_⟩
  · rw [find?_setRole, find?_setRole, hr.inside y hy]
  · rw [children_setRole, parents_setRole]
    exact hr.closed y hy
  · have hne : y ≠ x := fun he => hy (he ▸ hx)
    rw [find?_setRole_of_ne hne, find?_setRole_of_ne hne]
    exact hr.outside y hy

theorem Within.shed (hp : S p) (hc : S c) :
    Within S g₀ h₀ (g.shed p [c]) (h.shed p [c]) := by
  refine ⟨fun y hy => ?_, fun y hy => ?_, fun y hy => ?_⟩
  · rw [find?_shed, find?_shed, hr.inside y hy]
  · exact ⟨fun d hd => (hr.closed y hy).1 d (mem_children_of_shed hd),
      fun q hq => (hr.closed y hy).2 q (mem_parents_of_shed hq)⟩
  · have hyp : y ≠ p := fun he => hy (he ▸ hp)
    have hyc : y ∉ [c] := fun he => hy (List.mem_singleton.1 he ▸ hc)
    rw [find?_shed_of_ne hyp hyc, find?_shed_of_ne hyp hyc]
    exact hr.outside y hy

end

theorem matching_within (S : NodeId → Prop) (g₀ h₀ : Graph) :
    Store.Matching S (Within S g₀ h₀) where
  node := by
    intro g h x hr hx
    refine (hr.sameAt hx).node_known.mono fun n m hnm => ?_
    obtain ⟨houtline, hn⟩ := hnm
    have hclosed := hr.closed x hx
    rw [children_of_find? hn, parents_of_find? hn] at hclosed
    exact ⟨houtline, (id_of_find? hn).symm ▸ hx, hclosed⟩
  hasEdge := by
    intro g h x c hr hx
    exact congrArg (fun cs => decide (c ∈ cs)) (hr.sameAt hx).children
  setRole := fun role hr hx => hr.setRole role hx
  disconnect := by
    intro g h p c hr hp hc
    refine ((hr.sameAt hp).disconnect (hr.sameAt hc)).mono fun a b hab => ?_
    obtain ⟨hremoved, hg, hh⟩ := hab
    exact ⟨hremoved, by rw [hg, hh]; exact hr.shed hp hc⟩

theorem WellFormed.closed_linked {g : Graph} (hg : g.WellFormed) (u : NodeId) :
    g.Closed (g.Linked u) :=
  fun _ hx => ⟨fun _ hc => hx.trans (linked_child hc), fun _ hp => hx.trans (linked_parent hg hp)⟩

theorem Closed.congr {g h : Graph} {S : NodeId → Prop} (hS : h.Closed S)
    (hgh : ∀ x, S x → g.find? x = h.find? x) : g.Closed S := by
  intro x hx
  rw [children, parents, hgh x hx]
  exact hS x hx

section
variable {g h : Graph} {S : NodeId → Prop} {u x : NodeId} (role : Role) (origin : Option NodeId)
  (force : Bool)

theorem propagate_within (hS : h.Closed S) (hgh : ∀ x, S x → g.find? x = h.find? x) (hu : S u) :
    (propagate u role origin force g).Alike (Within S g h) Eq (propagate u role origin force h) :=
  (matching_within S g h).alike_propagate hu role origin force g h
    ⟨hgh, hS.congr hgh, fun _ _ => ⟨rfl, rfl⟩⟩

theorem propagate_elsewhere (hg : g.WellFormed) (hx : ¬ g.Linked u x) :
    (propagate u role origin force g).state.find? x = g.find? x :=
  ((propagate_within role origin force (hg.closed_linked u) (fun _ _ => rfl)
    (Linked.refl u)).state.outside x hx).1

end

section
variable {g : Graph} (hg : g.WellFormed) {u v : NodeId} (huv : ¬ g.Linked u v)
  (role₁ role₂ : Role) (origin₁ origin₂ : Option NodeId) (force₁ force₂ : Bool)
include hg huv

theorem propagate_after :
    (propagate u role₁ origin₁ force₁ (propagate v role₂ origin₂ force₂ g).state).Alike
      (Within (g.Linked u) (propagate v role₂ origin₂ force₂ g).state g) Eq
      (propagate u role₁ origin₁ force₁ g) :=
  propagate_within role₁ origin₁ force₁ (hg.closed_linked u)
    (fun _ hx => propagate_elsewhere role₂ origin₂ force₂ hg fun hvx => huv (hx.trans hvx.symm))
    (Linked.refl u)

theorem find?_propagate_comm (x : NodeId) :
    (propagate v role₂ origin₂ force₂ (propagate u role₁ origin₁ force₁ g).state).state.find? x =
      (propagate u role₁ origin₁ force₁
        (propagate v role₂ origin₂ force₂ g).state).state.find? x := by
  have hfirst := (propagate_after hg huv role₁ role₂ origin₁ origin₂ force₁ force₂).state
  have hsecond := (propagate_after hg (fun h => huv h.symm) role₂ role₁ origin₂ origin₁ force₂
    force₁).state
  by_cases hv : g.Linked v x
  · have hu : ¬ g.Linked u x := fun hu => huv (hu.trans hv.symm)
    rw [hsecond.inside x hv, (hfirst.outside x hu).1]
  · rw [(hsecond.outside x hv).1]
    by_cases hu : g.Linked u x
    · rw [hfirst.inside x hu]
    · rw [(hfirst.outside x hu).1, propagate_elsewhere role₁ origin₁ force₁ hg hu,
        propagate_elsewhere role₂ origin₂ force₂ hg hv]

end

/-- What a graph is apart from its cards, but with their order. -/
def SameFrame (g h : Graph) : Prop := h.stem = g.stem ∧ h.counter = g.counter ∧ h.ids = g.ids

theorem propagate_sameFrame (g : Graph) (id : NodeId) (role : Role) (origin : Option NodeId)
    (force : Bool) : g.SameFrame (propagate id role origin force g).state := by
  have hP : Repairable g.SameFrame := by
    refine ⟨fun id role hg _ => ?_, fun parent child hg => ?_⟩
    · exact ⟨hg.1, hg.2.1, (ids_setRole _ id role).trans hg.2.2⟩
    · exact ⟨hg.1, hg.2.1, (ids_shed _ parent [child]).trans hg.2.2⟩
  exact hP.keeps_propagate id role origin force g ⟨rfl, rfl, rfl⟩

theorem SameFrame.trans {g h k : Graph} (hgh : g.SameFrame h) (hhk : h.SameFrame k) :
    g.SameFrame k :=
  ⟨hhk.1.trans hgh.1, hhk.2.1.trans hgh.2.1, hhk.2.2.trans hgh.2.2⟩

theorem SameFrame.symm {g h : Graph} (hgh : g.SameFrame h) : h.SameFrame g :=
  ⟨hgh.1.symm, hgh.2.1.symm, hgh.2.2.symm⟩

theorem SameFrame.eq {g h : Graph} (hgh : g.SameFrame h) (hg : g.WellFormed) (hh : h.WellFormed)
    (hfind : ∀ x, g.find? x = h.find? x) : g = h := by
  obtain ⟨hstem, hcounter, hids⟩ := hgh
  have hnodes : g.nodes.map some = h.nodes.map some := by
    rw [← map_find?_ids hg, ← map_find?_ids hh, hids, funext hfind]
  have hinj : Function.Injective (List.map (some : Node → Option Node)) :=
    List.map_injective_iff.2 (Option.some_injective Node)
  cases g
  cases h
  cases hstem
  cases hcounter
  cases hinj hnodes
  rfl

/-- A pass leaves alone every card that no chain of edges joins to its first card, and
two passes over unconnected parts lead to the same graph in either order, each with
the same announcements and the same counters. -/
theorem propagate_apart {g : Graph} (hg : g.WellFormed) :
    (∀ u role origin force x, ¬ g.Linked u x →
      (propagate u role origin force g).state.find? x = g.find? x) ∧
    ∀ u v, g.contains u = true → g.contains v = true → ¬ g.Linked u v →
      ∀ role₁ role₂ origin₁ origin₂ force₁ force₂,
      let first := propagate u role₁ origin₁ force₁
      let second := propagate v role₂ origin₂ force₂
      (second (first g).state).state = (first (second g).state).state ∧
        (first (second g).state).events = (first g).events ∧
        (second (first g).state).events = (second g).events ∧
        ∃ stats₁ stats₂, (first g).result = .ok stats₁ ∧
          (first (second g).state).result = .ok stats₁ ∧ (second g).result = .ok stats₂ ∧
          (second (first g).state).result = .ok stats₂ := by
  refine ⟨fun u role origin force x hx => propagate_elsewhere role origin force hg hx, ?_⟩
  intro u v hu hv huv role₁ role₂ origin₁ origin₂ force₁ force₂ first second
  have halike₁ := propagate_after hg huv role₁ role₂ origin₁ origin₂ force₁ force₂
  have halike₂ := propagate_after hg (fun h => huv h.symm) role₂ role₁ origin₂ origin₁ force₂ force₁
  obtain ⟨stats₁, hok₁⟩ := propagate_succeeds hg hu role₁ origin₁ force₁
  obtain ⟨stats₂, hok₂⟩ := propagate_succeeds hg hv role₂ origin₂ force₂
  refine ⟨?_, halike₁.events, halike₂.events, stats₁, stats₂, hok₁,
    halike₁.result.eq.trans hok₁, hok₂, halike₂.result.eq.trans hok₂⟩
  have hframe : SameFrame (second (first g).state).state (first (second g).state).state :=
    ((propagate_sameFrame g u role₁ origin₁ force₁).trans
      (propagate_sameFrame _ v role₂ origin₂ force₂)).symm.trans
    ((propagate_sameFrame g v role₂ origin₂ force₂).trans
      (propagate_sameFrame _ u role₁ origin₁ force₁))
  exact hframe.eq (propagate_wellFormed (propagate_wellFormed hg _ _ _ _) _ _ _ _)
    (propagate_wellFormed (propagate_wellFormed hg _ _ _ _) _ _ _ _)
    (find?_propagate_comm hg huv role₁ role₂ origin₁ origin₂ force₁ force₂)

theorem propagate_apart_tangle :
    let m : NodeId := ⟨"m"⟩
    let beside : List Node :=
      [{ id := m, role := .assertion, children := [⟨"k"⟩, ⟨"l"⟩] },
        { id := ⟨"k"⟩, role := .source, parents := [m] },
        { id := ⟨"l"⟩, role := .source, parents := [m] }]
    let g : Graph := { tangle with nodes := tangle.nodes ++ beside }
    let first := propagate ⟨"q"⟩ .assertion none true
    let second := propagate m .interpretation (some ⟨"l"⟩) true
    g.WellFormed ∧ ¬ g.Linked ⟨"q"⟩ m ∧ (first g).state.find? m = g.find? m ∧
      (second (first g).state).state = (first (second g).state).state ∧
      (second (first g).state).events = (second g).events ∧
      .edgeRemoved m ⟨"k"⟩ ∈ (second g).events ∧ (first g).state.role ⟨"q"⟩ ≠ g.role ⟨"q"⟩ := by
  intro m beside g first second
  have hg : g.WellFormed := by constructor <;> decide
  have hedges : ∀ e ∈ g.edges, e.1 ∈ tangle.ids ↔ e.2 ∈ tangle.ids := by decide
  have hlinked : ¬ g.Linked ⟨"q"⟩ m := fun h => absurd
    ((h.iff fun p c hpc => hedges (p, c) ((mem_edges_iff hg).2 hpc)).1 (by decide)) (by decide)
  obtain ⟨helsewhere, hcomm⟩ := propagate_apart hg
  have hboth := hcomm ⟨"q"⟩ m (by decide) (by decide) hlinked .assertion .interpretation none
    (some ⟨"l"⟩) true true
  exact ⟨hg, hlinked, helsewhere _ _ _ _ _ hlinked, hboth.1, hboth.2.2.1, by decide,
    by decide⟩

end Graph

end ArgumentMap
