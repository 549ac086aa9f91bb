import ArgumentMap.Operation
import ArgumentMap.Proofs.Session.Edits
import ArgumentMap.Proofs.Session.Honesty

/-!
# Minting in runs

A mint leaves the counter behind the number that it took, and nothing else moves the counter: not
the insertion of a card and not a load, even one that brings in cards under identifiers that look
like minted ones, nor any gesture. So numbers only grow, and no two cards are minted under one
identifier in a run, on a graph as well as in a session.
-/

namespace ArgumentMap

theorem Edit.result_ne_ok {σ α β : Type} {f : α → β} {b : β} (hf : ∀ a, f a ≠ b) (m : Edit σ α)
    (s : σ) : ((m >>= fun a => Pure.pure (f a)) s).result ≠ .ok b := by
  rw [Edit.bind_pure_apply]
  cases (m s).result <;> simp [Except.map, hf]

namespace Graph

section
variable {g h : Graph} {ms : List (Graph × NodeId)}

/-- The next number comes from the same series in both graphs. -/
def SameSeries (g h : Graph) : Prop := h.stem = g.stem ∧ h.counter = g.counter

theorem SameSeries.numbered (hgh : g.SameSeries h) : h.numbered = g.numbered := by
  funext k
  rw [Graph.numbered, Graph.numbered, hgh.1]

/-- The cards minted from a graph on, each with the graph that it was minted in. Whatever happens
in between leaves the series alone. -/
inductive Mints : Graph → List (Graph × NodeId) → Prop where
  | nil (g : Graph) : Mints g []
  | mint {g : Graph} {ms : List (Graph × NodeId)} (u : Uuid) :
      Mints (g.mint u).2 ms → Mints g ((g, (g.mint u).1) :: ms)
  | keep {g h : Graph} {ms : List (Graph × NodeId)} : g.SameSeries h → Mints h ms → Mints g ms

/-- The identifiers minted in a run were free, are distinct, and have growing numbers. -/
structure FreshRun (g : Graph) (ms : List (Graph × NodeId)) : Prop where
  free : ∀ m ∈ ms, m.1.contains m.2 = false
  distinct : (ms.map (·.2)).Nodup
  growing : ∃ numbers : List Nat, ms.map (·.2) = numbers.map g.numbered ∧
    numbers.Pairwise (· < ·)

theorem Mints.free (hms : g.Mints ms) : ∀ m ∈ ms, m.1.contains m.2 = false := by
  induction hms with
  | nil => simp
  | @mint g _ u _ ih => exact List.forall_mem_cons.2 ⟨g.mint_fresh u, ih⟩
  | keep _ _ ih => exact ih

theorem Mints.growing (hms : g.Mints ms) : ∃ numbers : List Nat,
    ms.map (·.2) = numbers.map g.numbered ∧ numbers.Pairwise (· < ·) ∧
      ∀ k ∈ numbers, g.counter ≤ k := by
  induction hms with
  | nil => exact ⟨[], rfl, .nil, by simp⟩
  | @mint g ms u _ ih =>
    obtain ⟨numbers, hids, hpairwise, hcounter⟩ := ih
    obtain ⟨rounds, -, found, hsearch⟩ := g.exists_search g.counter
    rw [mint_of_search hsearch u] at hids hcounter ⊢
    have hstart : g.counter ≤ found := by
      have hrounds := hsearch.rounds_eq
      have hpos := hsearch.one_le_rounds
      omega
    refine ⟨found :: numbers, ?_, List.pairwise_cons.2 ⟨fun k hk => hcounter k hk, hpairwise⟩, ?_⟩
    · rw [List.map_cons, List.map_cons, hids]
      rfl
    · refine List.forall_mem_cons.2 ⟨hstart, fun k hk => ?_⟩
      have hbehind : found + 1 ≤ k := hcounter k hk
      omega
  | keep hseries _ ih =>
    rwa [hseries.numbered, hseries.2] at ih

theorem Mints.freshRun (hms : g.Mints ms) : g.FreshRun ms := by
  obtain ⟨numbers, hids, hpairwise, -⟩ := hms.growing
  refine ⟨hms.free, ?_, numbers, hids, hpairwise⟩
  rw [hids]
  exact (hpairwise.imp fun hlt => Nat.ne_of_lt hlt).map _ fun _ _ => g.numbered_injective.ne

theorem SameSeries.refl (g : Graph) : g.SameSeries g := ⟨rfl, rfl⟩

theorem sameSeries_editable (g : Graph) : Editable g.SameSeries where
  setRole _ _ hs _ := hs
  shed _ _ hs := hs
  link _ _ hs := hs

theorem SameSeries.addedTo (hgh : g.SameSeries h) (snapshot : Snapshot) (fresh : NodeId → Uuid) :
    g.SameSeries (snapshot.addedTo fresh h) := by
  have hdraw : ∀ (edges : List Snapshot.Edge) (k : Graph), g.SameSeries k →
      g.SameSeries (edges.foldl draw k) := by
    intro edges
    induction edges with
    | nil => exact fun k hk => hk
    | cons e edges ih =>
      intro k hk
      refine ih (k.draw e) ?_
      rw [draw]
      split_ifs <;> exact hk
  exact hdraw snapshot.edges (h.stock fresh snapshot.cards) hgh

theorem keeps_series_insert (g : Graph) (n : Node) :
    Edit.Keeps g.SameSeries (Edit.attempt fun h => (h.insert n).map ((), ·)) := by
  refine .attempt_unit fun h k hgh hk => ?_
  rw [(insert_eq_ok_iff.1 hk).2]
  exact hgh

theorem keeps_series_setText (g : Graph) (id : NodeId) (text : String) :
    Edit.Keeps g.SameSeries (Edit.attempt fun h => (h.setText id text).map ((), ·)) := by
  refine .attempt_unit fun h k hgh hk => ?_
  rw [setText_eq_ok hk]
  exact hgh

theorem keeps_series_load (g : Graph) (snapshot : Snapshot) (fresh : NodeId → Uuid) :
    Edit.Keeps g.SameSeries (snapshot.load fresh) := by
  intro h hgh
  cases hcheck : snapshot.check h with
  | error e =>
    rw [Snapshot.load_of_error hcheck]
    exact hgh
  | ok _ =>
    rw [Snapshot.load_of_ok hcheck]
    exact hgh.addedTo snapshot fresh

end

end Graph

namespace Operation

theorem perform_mint (u : Uuid) (g : Graph) :
    perform (.mint u) g = ⟨(g.mint u).2, [], .ok (some (g.mint u).1)⟩ := rfl

theorem perform_spares {op : Operation} (hop : ∀ u, op ≠ .mint u) (g : Graph) :
    g.SameSeries (op.perform g).state ∧ ∀ id, (op.perform g).result ≠ .ok (some id) := by
  have hnone : ∀ {α : Type} {m : Edit Graph α}, Edit.Keeps g.SameSeries m →
      let o := (do let _ ← m; return none : Edit Graph (Option NodeId)) g
      g.SameSeries o.state ∧ ∀ id, o.result ≠ .ok (some id) :=
    fun {_ m} hm => ⟨Edit.Keeps.bind hm (fun _ => .pure none) g (.refl g),
      fun _ => Edit.result_ne_ok (by simp) m g⟩
  have heditable := g.sameSeries_editable
  cases op with
  | mint u => exact absurd rfl (hop u)
  | insert n => exact hnone (g.keeps_series_insert n)
  | load snapshot fresh => exact hnone (g.keeps_series_load snapshot fresh)
  | connect parent child => exact hnone (heditable.keeps_attempt_connect parent child)
  | disconnect parent child =>
    exact hnone (Graph.keeps_attempt_disconnect (P := g.SameSeries) heditable.shed parent child)
  | setText id text => exact hnone (g.keeps_series_setText id text)
  | propagate id role origin force => exact hnone (heditable.keeps_propagate id role origin force)
  | detach id => exact hnone (Graph.keeps_detachParents (P := g.SameSeries) heditable.shed id)
  | select config tool id => exact hnone (heditable.keeps_respond config tool id)

theorem mints_minted (ops : List Operation) (g : Graph) : g.Mints (minted ops g) := by
  induction ops generalizing g with
  | nil => exact .nil g
  | cons op ops ih =>
    rw [minted]
    by_cases hop : ∃ u, op = .mint u
    · obtain ⟨u, rfl⟩ := hop
      rw [perform_mint]
      exact .mint u (ih (g.mint u).2)
    · rw [not_exists] at hop
      obtain ⟨hseries, hnone⟩ := perform_spares hop g
      split
      · next id hid => exact absurd hid (hnone id)
      · exact .keep hseries (ih _)

end Operation

namespace Session

def minted : List Action → Session Graph → List (Graph × NodeId)
  | [], _ => []
  | a :: actions, s =>
    match (perform a s).result with
    | .ok (.added id) => (s.graph, id) :: minted actions (perform a s).state
    | _ => minted actions (perform a s).state

theorem perform_addNode (u : Uuid) (s : Session Graph) : perform (.addNode u) s =
    ⟨{ s with graph := (s.graph.mint u).2 }, [.nodeAdded none (s.graph.mint u).1],
      .ok (.added (s.graph.mint u).1)⟩ := rfl

theorem keeps_series_perform {a : Action} (ha : ∀ u, a ≠ .addNode u) (g : Graph) :
    Edit.Keeps (fun s : Session Graph => g.SameSeries s.graph) (perform a) := by
  by_cases hg : a.IsGesture
  · exact g.sameSeries_editable.gestural.keeps_perform hg
  · cases a with
    | addNode u => exact absurd rfl (ha u)
    | setText id text =>
      exact .bind (.zoom (fun _ _ => rfl) (g.keeps_series_setText id text)) fun _ => .pure _
    | load snapshot fresh =>
      refine .map (.bind ?_ fun root => .bind (.announce _) fun _ => .bind ?_ fun _ => .pure _) _
      · exact .zoom (fun _ _ => rfl) (g.keeps_series_load snapshot fresh)
      · exact .change fun s hs => hs
    | _ => exact absurd trivial hg

theorem result_ne_added {a : Action} (ha : ∀ u, a ≠ .addNode u) (s : Session Graph) (id : NodeId) :
    (perform a s).result ≠ .ok (.added id) := by
  cases a with
  | addNode u => exact absurd rfl (ha u)
  | setTool tool => exact Edit.result_ne_ok (by simp) (setTool tool) s
  | tap id => exact Edit.result_ne_ok (by simp) (tap id) s
  | highlight id => exact Edit.result_ne_ok (by simp) (highlight id) s
  | retype role => exact Edit.result_ne_ok (by simp) (retype role) s
  | setText id text => exact Edit.result_ne_ok (by simp) (setText id text) s
  | load snapshot fresh => exact Edit.result_ne_ok (by simp) (load snapshot fresh) s

theorem mints_minted (actions : List Action) (s : Session Graph) :
    s.graph.Mints (minted actions s) := by
  induction actions generalizing s with
  | nil => exact .nil s.graph
  | cons a actions ih =>
    rw [minted]
    by_cases ha : ∃ u, a = .addNode u
    · obtain ⟨u, rfl⟩ := ha
      rw [perform_addNode]
      exact .mint u (ih { s with graph := (s.graph.mint u).2 })
    · rw [not_exists] at ha
      split
      · next id hid => exact absurd hid (result_ne_added ha s id)
      · exact .keep (keeps_series_perform ha s.graph s (.refl s.graph)) (ih _)

end Session

namespace Graph

/-- The search for a free number from the counter on ends within one round more than there are
cards, at the least number that is free. The card minted has it behind the stem, stands last,
and has no role and no relations; the counter goes behind the number, and no other card changes.
In any run of operations on the graph, and in any run of a session, identifiers were free when
they were minted, no two of them are the same, and their numbers grow. -/
theorem mint_always_fresh (g : Graph) :
    (∃ rounds found, (∀ r n, g.Search g.counter r n ↔ r = rounds ∧ n = found) ∧
      rounds ≤ g.nodeCount + 1 ∧ g.counter ≤ found ∧ found ≤ g.counter + g.nodeCount ∧
      g.contains ⟨g.stem ++ found.repr⟩ = false ∧
      (∀ k, g.counter ≤ k → k < found → g.contains ⟨g.stem ++ k.repr⟩ = true) ∧
      ∀ stableId, g.mint stableId = (⟨g.stem ++ found.repr⟩,
        { g with
          counter := found + 1
          nodes := g.nodes ++ [{
            id := ⟨g.stem ++ found.repr⟩
            stableId := stableId
            role := .unset
            persisted := false
            parents := []
            children := [] }] }) ∧
        ∀ x, x ≠ ⟨g.stem ++ found.repr⟩ → (g.mint stableId).2.find? x = g.find? x) ∧
    (∀ ops : List Operation, g.FreshRun (Operation.minted ops g)) ∧
    ∀ (s : Session Graph) (actions : List Action), s.graph = g → g.FreshRun (s.minted actions) := by
  refine ⟨?_, fun ops => (Operation.mints_minted ops g).freshRun, ?_⟩
  · obtain ⟨rounds, hrounds, found, hsearch⟩ := g.exists_search g.counter
    have hcount := hsearch.rounds_eq
    have hstart := hsearch.one_le_rounds
    refine ⟨rounds, found, fun r n => ⟨hsearch.unique, ?_⟩, hrounds, by omega, by omega,
      hsearch.free_found, fun k hk hlt => hsearch.taken_before hk hlt,
      fun stableId => ⟨mint_of_search hsearch stableId, fun x hx => ?_⟩⟩
    · rintro ⟨rfl, rfl⟩
      exact hsearch
    · refine find?_mint_of_ne ?_
      rwa [mint_of_search hsearch stableId]
  · rintro s actions rfl
    exact (Session.mints_minted actions s).freshRun

/-- A loaded card takes the number that the counter stands at, and an inserted one the next. -/
example : (Operation.minted [.mint .nil,
    .load { cards := [{ id := ⟨"sketch-1"⟩, role := .source }] } fun _ => .nil,
    .insert { id := ⟨"sketch-2"⟩ }, .mint .nil] {}).map (·.2) = [⟨"sketch-0"⟩, ⟨"sketch-3"⟩] := by
  decide

end Graph

end ArgumentMap
