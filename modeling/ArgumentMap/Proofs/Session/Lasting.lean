import ArgumentMap.Proofs.Graph.Lasting
import ArgumentMap.Proofs.Session.Edits
import ArgumentMap.Proofs.Session.Honesty

/-!
# Cards last through a session

No action takes a card out of its place or makes another card of it. So through
a run a persisted card keeps its role, every card keeps its marks, and the
content of a card is what was written to it.
-/

namespace ArgumentMap

def Action.writes : Action → NodeId → List String
  | .setText id text, x => if x = id then [text] else []
  | .addNode _, _ | .setTool _, _ | .tap _, _ | .highlight _, _ | .retype _, _ | .load .., _ => []

/-- The texts that a run writes to a card, in order. -/
def writtenTo (actions : List Action) (id : NodeId) : List String :=
  actions.flatMap (·.writes id)

theorem Graph.editable_lasts (g : Graph) : Editable (g.Lasts silent) where
  setRole _ role hg hp := hg.then_silent (lasts_setRole role hp)
  shed parent child hg := hg.then_silent (lasts_shed parent [child])
  link parent child hg := hg.then_silent (lasts_link parent child)

namespace Session

theorem setText_lasts (s : Session Graph) (id : NodeId) (text : String) :
    s.graph.Lasts ((Action.setText id text).writes) (setText id text s).state.graph := by
  have hstate : (setText id text s).state.graph =
      (Edit.attempt (fun g => (g.setText id text).map ((), ·)) s.graph).state := rfl
  rw [hstate, Edit.attempt]
  cases ht : s.graph.setText id text with
  | error e =>
    refine ⟨List.prefix_refl _, fun {x n} hn => ⟨n, hn, ?_⟩⟩
    -- the write failed because there is no such card
    have hx : x ≠ id := by
      intro hx
      rw [Graph.setText, Graph.node_eq_ok_iff.2 (hx ▸ hn)] at ht
      cases ht
    rw [Action.writes, if_neg hx]
    exact .refl n
  | ok h =>
    rw [Graph.setText_eq_ok ht]
    exact s.graph.lasts_reword id text

theorem perform_lasts (s : Session Graph) (a : Action) :
    s.graph.Lasts a.writes (perform a s).state.graph := by
  by_cases ha : a.IsGesture
  · have hkeeps := s.graph.editable_lasts.gestural.keeps_perform ha s (.refl _)
    cases a with
    | addNode u => exact ha.elim
    | setText id text => exact ha.elim
    | load snapshot fresh => exact ha.elim
    | _ => exact hkeeps
  · cases a with
    | addNode u => exact s.graph.lasts_mint u
    | setText id text =>
      have hperform : perform (.setText id text) s = _ :=
        Edit.bind_pure_apply s (setText id text) fun _ => Reply.done
      rw [hperform]
      exact s.setText_lasts id text
    | load snapshot fresh =>
      cases hcheck : snapshot.check s.graph with
      | error e =>
        rw [perform_load_of_error hcheck]
        exact .refl s.graph
      | ok _ =>
        rw [perform_load_of_ok hcheck]
        exact Graph.lasts_addedTo snapshot fresh s.graph
    | _ => exact absurd trivial ha

theorem after_lasts (s : Session Graph) (actions : List Action) :
    s.graph.Lasts (writtenTo actions) (s.after actions).graph := by
  induction actions generalizing s with
  | nil => exact .refl s.graph
  | cons a actions ih => exact (s.perform_lasts a).trans (ih (perform a s).state)

/-- Once a card is in the graph of a session it stays for the rest of every run, in
its place and with its marks. A persisted card keeps its role, the content of a card
is changed by the texts written to it alone, and a card that the user added is never
persisted and keeps the stable identifier generated for it. -/
theorem cards_last (s : Session Graph) (later : List Action) :
    s.graph.ids <+: (s.after later).graph.ids ∧
    (∀ id n, s.graph.find? id = some n →
      ∃ m, (s.after later).graph.find? id = some m ∧ m.id = n.id ∧ m.stableId = n.stableId ∧
        m.persisted = n.persisted ∧ (n.persisted = true → m.role = n.role) ∧
        m.body = (writtenTo later id).foldl Body.setText n.body) ∧
    ∀ stableId id, (perform (.addNode stableId) s).result = .ok (.added id) →
      ∃ m, ((perform (.addNode stableId) s).state.after later).graph.find? id = some m ∧
        m.id = id ∧ m.stableId = stableId ∧ m.persisted = false := by
  refine ⟨(s.after_lasts later).order, fun id n hn => ?_, fun stableId id hid => ?_⟩
  · obtain ⟨m, hm, hl⟩ := (s.after_lasts later).card hn
    exact ⟨m, hm, hl.id, hl.stableId, hl.persisted, hl.role, hl.body⟩
  · have hmint : (s.graph.mint stableId).1 = id := Reply.added.inj (Except.ok.inj hid)
    have hadded : (s.graph.mint stableId).2.find? id = some { id := id, stableId := stableId } :=
      hmint ▸ s.graph.find?_minted stableId
    obtain ⟨m, hm, hl⟩ := ((perform (.addNode stableId) s).state.after_lasts later).card hadded
    exact ⟨m, hm, hl.id, hl.stableId, hl.persisted⟩

theorem cards_last_rewritten :
    let uuid (d : Fin 16) : Uuid := ⟨List.replicate 32 d, rfl⟩
    let stored : Node := { id := ⟨"n"⟩, stableId := uuid 1, role := .source, persisted := true }
    let s := (start {}).after
      [.load { cards := [{ id := ⟨"n"⟩, role := .source }] } fun _ => uuid 1]
    let later : List Action := [.setText ⟨"n"⟩ "first", .setTool .edge, .tap ⟨"sketch-0"⟩,
      .tap ⟨"n"⟩, .setText ⟨"sketch-0"⟩ "other", .setText ⟨"n"⟩ "second"]
    s.graph.find? ⟨"n"⟩ = some stored ∧
      (∃ m, (s.after (.addNode (uuid 2) :: later)).graph.find? ⟨"n"⟩ = some m ∧
        m.stableId = uuid 1 ∧ m.role = .source ∧ m.parents = [⟨"sketch-0"⟩] ∧
        m.body = (Body.empty.setText "first").setText "second") ∧
      (perform (.addNode (uuid 2)) s).result = .ok (.added ⟨"sketch-0"⟩) ∧
      ∃ m, ((perform (.addNode (uuid 2)) s).state.after later).graph.find? ⟨"sketch-0"⟩ = some m ∧
        m.stableId = uuid 2 ∧ m.persisted = false := by
  intro uuid stored s later
  have hn : s.graph.find? ⟨"n"⟩ = some stored := by decide
  have hadd : (perform (.addNode (uuid 2)) s).result = .ok (.added ⟨"sketch-0"⟩) := by decide
  obtain ⟨m, hm, -, hstable, -, hrole, hbody⟩ :=
    (cards_last s (.addNode (uuid 2) :: later)).2.1 ⟨"n"⟩ stored hn
  have hparents :
      (s.after (.addNode (uuid 2) :: later)).graph.parents ⟨"n"⟩ = [⟨"sketch-0"⟩] := by decide
  rw [Graph.parents_of_find? hm] at hparents
  obtain ⟨m', hm', -, hstable', hpersisted⟩ :=
    (cards_last s later).2.2 (uuid 2) ⟨"sketch-0"⟩ hadd
  exact ⟨hn, ⟨m, hm, hstable, hrole rfl, hparents, hbody⟩, hadd, m', hm', hstable', hpersisted⟩

end Session

end ArgumentMap
