import ArgumentMap.Proofs.Pass.Mending
import ArgumentMap.Proofs.Session.Edits

/-!
# Gestures on a sound graph

A graph is sound if it is well-formed and no interpretation of the user's own
reads several cards. A new edge may break the latter for its parent only, and
the pass that follows starts from an end of the edge from which it is mended.
-/

namespace ArgumentMap.Graph

/-- A well-formed graph without overfull cards, whose persisted cards are among the
stored ones. -/
structure Sound (stored : NodeId → Prop) (g : Graph) : Prop where
  wellFormed : g.WellFormed
  single : ∀ x, ¬g.Overfull x
  persisted : ∀ x, g.persists x = true → stored x

section
variable {stored : NodeId → Prop} {g h : Graph}

theorem Sound.of_fewer (hg : g.Sound stored) (hw : h.WellFormed)
    (hpersists : ∀ x, h.persists x = g.persists x)
    (hrole : ∀ x, h.role x = .interpretation → g.role x = .interpretation)
    (hchildren : ∀ x, (h.children x).length ≤ (g.children x).length) : h.Sound stored := by
  refine ⟨hw, ?_, ?_⟩
  · intro x hx
    exact hg.single x (hx.of_fewer (hpersists x) (hrole x) (hchildren x))
  · intro x hx
    rw [hpersists] at hx
    exact hg.persisted x hx

theorem Sound.shed (hg : g.Sound stored) (parent : NodeId) (cs : List NodeId) :
    (g.shed parent cs).Sound stored := by
  apply hg.of_fewer (hg.wellFormed.shed parent cs) (by simp) (by simp)
  intro x
  rw [children_shed]
  split_ifs
  · exact List.length_filter_le _ _
  · exact Nat.le_refl _

theorem Sound.mint (hg : g.Sound stored) (u : Uuid) : (g.mint u).2.Sound stored :=
  hg.of_fewer (hg.wellFormed.mint u) (by simp) (by simp) (by simp)

theorem Sound.reword (hg : g.Sound stored) (id : NodeId) (text : String) :
    (g.reword id text).Sound stored :=
  hg.of_fewer (hg.wellFormed.reword id text) (by simp) (by simp) (by simp)

theorem Sound.propagate (hg : g.Sound stored) (id : NodeId) (role : Role)
    (origin : Option NodeId) (force : Bool) :
    (propagate id role origin force g).state.Sound stored := by
  refine ⟨propagate_wellFormed hg.wellFormed id role origin force,
    propagate_not_overfull hg.wellFormed hg.single id role origin force, ?_⟩
  intro x hx
  rw [propagate_persists hg.wellFormed] at hx
  exact hg.persisted x hx

end

section
variable {stored : NodeId → Prop} {g : Graph} {parent child : NodeId}

structure Fresh (stored : NodeId → Prop) (g : Graph) (parent child : NodeId) : Prop where
  wellFormed : g.WellFormed
  support : child ∈ g.children parent
  editable : g.persists parent = false
  single : ∀ x, g.Overfull x → x = parent
  persisted : ∀ x, g.persists x = true → stored x

theorem Sound.joined (hg : g.Sound stored) (hp : g.contains parent = true)
    (hc : g.contains child = true) (hne : parent ≠ child) (he : g.persists parent = false)
    (hnew : child ∉ g.children parent) : (g.joined parent child).Fresh stored parent child := by
  refine ⟨hg.wellFormed.joined hp hc hne hnew, mem_children_joined hp, by simpa using he, ?_, ?_⟩
  · intro x ho
    by_contra hx
    refine hg.single x (ho.of_fewer (by simp) role_of_joined ?_)
    rw [children_joined hp, if_neg hx, children_unlink]
    exact List.length_filter_le _ _
  · intro x hx
    rw [persists_joined] at hx
    exact hg.persisted x hx

theorem Fresh.settled (hg : g.Fresh stored parent child) {v : NodeId} {role : Role}
    (hv : (v, role) = g.settlement parent child) :
    (Graph.propagate v role none true g).state.Sound stored := by
  refine ⟨propagate_wellFormed hg.wellFormed _ _ _ _, ?_, fun x hx => ?_⟩
  · rw [settlement] at hv
    split_ifs at hv with hfit
    -- From the parent only if it reads no other card; from the child the pass mends the parent.
    · apply propagate_not_overfull hg.wellFormed
      intro x hx
      obtain rfl := hg.single x hx
      obtain ⟨-, hr, hl⟩ := hx
      have hone := Pass.length_children_of_legalRole (hfit.1.trans hr)
      omega
    · cases hv
      apply propagate_legalRole_not_overfull hg.wellFormed
        (hg.wellFormed.contains_child hg.support)
      intro x hx
      rw [hg.single x hx]
      exact hg.support
  · rw [propagate_persists hg.wellFormed] at hx
    exact hg.persisted x hx

theorem Sound.drawEdge (hg : g.Sound stored) (config : Config) (parent : NodeId)
    (hc : g.contains child = true) : (drawEdge config parent child g).state.Sound stored := by
  rcases drawEdge_cases config g parent child with ⟨-, -, h⟩ | ⟨reason, -, h⟩ | ⟨ho, h⟩
  · rwa [h]
  · rwa [h]
  · obtain ⟨hne, hp, he, hnew, -⟩ := objection?_eq_none_iff.1 ho
    obtain ⟨v, role, stats, hv, -, hcommit⟩ := commitEdge_eq hg.wellFormed hp hc hne hnew
    rw [h, hcommit]
    exact (hg.joined hp hc hne he hnew).settled hv

theorem keeps_respond (config : Config) (tool : EdgeTool) (id : NodeId) :
    Edit.Keeps (Sound stored) (EdgeTool.respond config tool id) := by
  intro g hg
  cases hk : g.contains id with
  | false => rwa [EdgeTool.respond_unknown hk]
  | true =>
    rw [EdgeTool.respond_known hk]
    cases tool with
    | inactive => exact hg
    | seekingParent => exact hg
    | seekingChild parent => exact hg.drawEdge config parent hk

end

theorem sound_gestural (stored : NodeId → Prop) : Gestural (Sound stored) where
  select config id s hs := by
    obtain ⟨tool, g⟩ := s
    rw [EdgeTool.select_eq]
    exact keeps_respond config tool id g hs
  detachParents := keeps_detachParents fun parent child hg => hg.shed parent [child]
  propagate id role origin force g hg := hg.propagate id role origin force

end ArgumentMap.Graph
