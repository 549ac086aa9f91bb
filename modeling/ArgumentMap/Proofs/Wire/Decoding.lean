import ArgumentMap.Proofs.Wire.Rendering

/-!
# Decoding undoes encoding

Every snapshot, every body and every setting comes back from its written form as it
was, whatever characters its texts hold and whatever it leaves out: what is written
is one of its renderings.
-/

namespace ArgumentMap

namespace Body

theorem renderedAs_toJson (b : Body) : b.RenderedAs b.toJson := ⟨b.entries, .refl _, rfl⟩

theorem ofJson?_toJson (b : Body) : ofJson? b.toJson = some b :=
  ofJson?_of_rendered b.renderedAs_toJson

theorem parse?_toText (b : Body) : (Json.parse? b.toText).bind ofJson? = some b := by
  rw [toText, Json.parse?_compact, Option.bind_some, ofJson?_toJson]

end Body

namespace Snapshot

theorem Card.renderedAs_toJson (c : Card) : c.RenderedAs c.toJson :=
  Json.Filled.arranged
    (.given rfl (.given rfl (.given rfl (.given c.body.renderedAs_toJson .nil))))

theorem Edge.renderedAs_toJson (e : Edge) : e.RenderedAs e.toJson :=
  Json.Filled.arranged (.given rfl (.given rfl .nil))

theorem renderedAs_toJson (s : Snapshot) : s.RenderedAs s.toJson := by
  have hcards : List.Forall₂ Card.RenderedAs s.cards (s.cards.map Card.toJson) :=
    List.forall₂_map_right_iff.2 (List.forall₂_same.2 fun c _ => c.renderedAs_toJson)
  have hedges : List.Forall₂ Edge.RenderedAs s.edges (s.edges.map Edge.toJson) :=
    List.forall₂_map_right_iff.2 (List.forall₂_same.2 fun e _ => e.renderedAs_toJson)
  exact Json.Filled.arranged
    (.given rfl (.given ⟨_, rfl, hcards⟩ (.given ⟨_, rfl, hedges⟩ .nil)))

theorem ofText?_toText (s : Snapshot) : ofText? s.toText = .ok s :=
  ofText?_of_rendered s.renderedAs_toJson s.toJson.writtenAs_compact

end Snapshot

namespace Config

theorem renderedAs_toJson (c : Config) : c.RenderedAs c.toJson :=
  Json.Filled.arranged (.given rfl (.given rfl (.given rfl .nil)))

theorem ofText?_toText (c : Config) : ofText? c.toText = .ok c :=
  ofText?_of_rendered c.renderedAs_toJson c.toJson.writtenAs_compact

end Config

/-- What is written is read back as it was: snapshots, bodies on their own, and settings. -/
theorem decoding_undoes_encoding :
    (∀ s : Snapshot, Snapshot.ofText? s.toText = .ok s) ∧
      (∀ b : Body, (Json.parse? b.toText).bind Body.ofJson? = some b) ∧
      ∀ c : Config, Config.ofText? c.toText = .ok c :=
  ⟨Snapshot.ofText?_toText, Body.parse?_toText, Config.ofText?_toText⟩

end ArgumentMap
