import ArgumentMap.Proofs.Graph.Change
import ArgumentMap.Proofs.Graph.Faults
import ArgumentMap.Proofs.Graph.Relations
import Mathlib.Data.List.Nodup

/-!
# What a well-formed graph shows

Its list of edges has every edge once, and its audit finds nothing but
interpretations that read several cards. Every edge that comes or goes is
announced once, so the announcements of any chain of changes account for the
number of edges.
-/

open Finset

namespace ArgumentMap.Graph

variable {g : Graph}

theorem mem_edges_iff (hg : g.WellFormed) {p c : NodeId} :
    (p, c) ∈ g.edges ↔ g.hasEdge p c = true := by
  rw [hasEdge_iff, edges_eq, List.mem_flatMap]
  constructor
  · intro h
    obtain ⟨n, hn, hc⟩ := h
    obtain ⟨d, hd, he⟩ := List.mem_map.1 hc
    obtain ⟨rfl, rfl⟩ := Prod.mk.inj he
    rwa [children_of_find? (find?_of_mem hg.nodup_ids hn)]
  · intro h
    obtain ⟨n, hn⟩ := contains_iff_find?.1 (contains_of_mem_children h)
    rw [children_of_find? hn] at h
    exact ⟨n, mem_of_find? hn, List.mem_map.2 ⟨c, h, by rw [id_of_find? hn]⟩⟩

theorem nodup_edges (hg : g.WellFormed) : g.edges.Nodup := by
  rw [edges_eq, List.nodup_flatMap]
  refine ⟨?_, ?_⟩
  · intro n hn
    exact (hg.nodup_children n hn).map fun _ _ h => (Prod.mk.inj h).2
  · refine (List.pairwise_map.1 hg.nodup_ids).imp fun {m n} hne => ?_
    intro e hm hn
    obtain ⟨c, -, rfl⟩ := List.mem_map.1 hm
    obtain ⟨d, -, he⟩ := List.mem_map.1 hn
    exact hne (Prod.mk.inj he).1.symm

theorem count_edges (hg : g.WellFormed) (p c : NodeId) :
    g.edges.count (p, c) = if g.hasEdge p c then 1 else 0 := by
  rw [(nodup_edges hg).count]
  simp only [mem_edges_iff hg]

theorem edgeCount_eq (g : Graph) : g.edgeCount = g.edges.length := by
  simp only [edgeCount, edges_eq]
  induction g.nodes with
  | nil => rfl
  | cons n rest ih => simp [ih]

theorem map_find?_ids (hg : g.WellFormed) : g.ids.map g.find? = g.nodes.map some := by
  rw [ids, List.map_map]
  exact List.map_congr_left fun n hn => find?_of_mem hg.nodup_ids hn

theorem mem_audit_iff (hg : g.WellFormed) {f : Fault} : f ∈ g.audit ↔ ∃ n ∈ g.nodes,
    n.role = .interpretation ∧ 1 < n.children.length ∧
      f = .overfullInterpretation n.id n.children.length := by
  rw [audit_eq, List.mem_flatMap]
  refine exists_congr fun n => and_congr_right fun hn => ?_
  have hf := find?_of_mem hg.nodup_ids hn
  have hchildren := children_of_find? hf
  have hparents := parents_of_find? hf
  rw [mem_faultsAt_iff, ← hchildren, ← hparents]
  constructor
  · intro h
    obtain ⟨hloop, -⟩ | ⟨c, hc, hmissing, -⟩ | ⟨p, hp, hmissing, -⟩ | ⟨⟨hr, hl⟩, he⟩ := h
    · rw [← hg.mem_children_iff, or_self] at hloop
      exact absurd hloop (hg.notMem_children_self n.id)
    · exact absurd (hg.mem_children_iff.1 hc) hmissing
    · exact absurd (hg.mem_children_iff.2 hp) hmissing
    · exact ⟨hr, hl, he⟩
  · intro h
    obtain ⟨hr, hl, he⟩ := h
    exact .inr (.inr (.inr ⟨⟨hr, hl⟩, he⟩))

section
variable {h : Graph} {log : List Event} {p c : NodeId}

theorem WellFormed.edgeCount_eq_card (hg : g.WellFormed) : g.edgeCount = #g.edges.toFinset := by
  rw [edgeCount_eq, List.toFinset_card_of_nodup (nodup_edges hg)]

theorem mem_toFinset_edges (hg : g.WellFormed) {e : NodeId × NodeId} :
    e ∈ g.edges.toFinset ↔ e.2 ∈ g.children e.1 := by
  rw [List.mem_toFinset, mem_edges_iff hg, hasEdge_iff]

theorem edgeCount_congr (hg : g.WellFormed) (hh : h.WellFormed)
    (hchildren : ∀ x, h.children x = g.children x) : h.edgeCount = g.edgeCount := by
  rw [hg.edgeCount_eq_card, hh.edgeCount_eq_card]
  congr 1
  ext e
  rw [mem_toFinset_edges hg, mem_toFinset_edges hh, hchildren]

theorem edgeCount_shed (hg : g.WellFormed) (hc : c ∈ g.children p) :
    (g.shed p [c]).edgeCount + 1 = g.edgeCount := by
  have hh := hg.shed p [c]
  have hmem : (p, c) ∈ g.edges.toFinset := (mem_toFinset_edges hg).2 hc
  have hedges : (g.shed p [c]).edges.toFinset = g.edges.toFinset.erase (p, c) := by
    ext ⟨x, d⟩
    rw [mem_erase, mem_toFinset_edges hg, mem_toFinset_edges hh, children_shed]
    by_cases hx : x = p <;> simp [hx, and_comm]
  rw [hg.edgeCount_eq_card, hh.edgeCount_eq_card, hedges, card_erase_add_one hmem]

theorem edgeCount_link (hg : g.WellFormed) (hp : g.contains p = true) (hk : g.contains c = true)
    (hne : p ≠ c) (hc : c ∉ g.children p) : (g.link p c).edgeCount = g.edgeCount + 1 := by
  have hh := hg.link hp hk hne hc
  have hnew : (p, c) ∉ g.edges.toFinset := mt (mem_toFinset_edges hg).1 hc
  have hedges : (g.link p c).edges.toFinset = Insert.insert (p, c) g.edges.toFinset := by
    ext ⟨x, d⟩
    rw [mem_insert, mem_toFinset_edges hg, mem_toFinset_edges hh, children_link hp]
    by_cases hx : x = p <;> simp [hx, or_comm]
  rw [hg.edgeCount_eq_card, hh.edgeCount_eq_card, hedges, card_insert_of_notMem hnew]

theorem Change.edgeCount (hc : Change g log h) (hg : g.WellFormed) :
    h.edgeCount + log.countP (·.topic = .edgeRemoved) =
      g.edgeCount + log.countP (·.topic = .edgeAdded) := by
  have hh := hc.wellFormed hg
  cases hc with
  | @remark e he => rcases he with he | he <;> simp [he]
  | recast => exact edgeCount_congr hg hh (by simp)
  | reword => exact edgeCount_congr hg hh (by simp)
  | mint => simpa [Event.topic] using edgeCount_congr hg hh (by simp)
  | cut hc => simpa [Event.topic] using edgeCount_shed hg hc
  | join hp hk hne hc => simpa [Event.topic] using edgeCount_link hg hp hk hne hc

theorem Changes.edgeCount (hc : Changes g log h) (hg : g.WellFormed) :
    h.edgeCount + log.countP (·.topic = .edgeRemoved) =
      g.edgeCount + log.countP (·.topic = .edgeAdded) := by
  induction hc with
  | refl => rfl
  | head hc _ ih =>
    have hfirst := hc.edgeCount hg
    have hrest := ih (hc.wellFormed hg)
    rw [List.countP_append, List.countP_append]
    omega

end

end ArgumentMap.Graph
