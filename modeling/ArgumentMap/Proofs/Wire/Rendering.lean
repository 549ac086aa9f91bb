import ArgumentMap.Proofs.Body
import ArgumentMap.Proofs.Json.Reading
import ArgumentMap.Proofs.Wire.Values
import ArgumentMap.Wire.Rendering

/-!
# Decoding does not depend on the rendering

Every rendering of a snapshot or of settings is decoded to what it renders, and a
value that is flawed is decoded to nothing. Both hold of every text of such a value.
-/

namespace ArgumentMap

theorem Body.ofJson?_of_rendered {b : Body} {v : Json} (h : b.RenderedAs v) :
    ofJson? v = some b := by
  obtain ⟨entries, hperm, rfl⟩ := h
  have hentries := mapM_of_undone (f := fun e : Entry => (e.1, e.2.toJson))
    (g := fun m => (Scalar.ofJson? m.2).map (m.1, ·))
    (fun e => by rw [Scalar.ofJson?_toJson, Option.map_some]) entries
  rw [ofJson?, Json.members?_record, Option.bind_eq_bind, Option.bind_some, hentries]
  simp [ofList_of_perm hperm]

namespace Config

variable {v : Json} {c : Config}

theorem ofJson?_eq_some_iff :
    ofJson? v = some c ↔ ∃ stem reset flip, v.fields? fieldNames = some [stem, reset, flip] ∧
      Json.withDefault "sketch-" Json.string? stem = some c.idStem ∧
      Json.withDefault true Json.bool? reset = some c.resetOnPersistedParent ∧
      Json.withDefault true Json.bool? flip = some c.flipReverseEdges := by
  rw [ofJson?, Option.bind_eq_bind, Option.bind_eq_some_iff]
  constructor
  · rintro ⟨os, hos, h⟩
    split at h
    · next stem reset flip =>
      simp only [Option.bind_eq_bind, Option.bind_eq_some_iff, Option.pure_def] at h
      obtain ⟨s, hs, r, hr, f, hf, h⟩ := h
      cases h
      exact ⟨stem, reset, flip, hos, hs, hr, hf⟩
    · cases h
  · rintro ⟨stem, reset, flip, hos, hs, hr, hf⟩
    exact ⟨_, hos, by simp [hs, hr, hf]⟩

theorem ofJson?_of_rendered (h : c.RenderedAs v) : ofJson? v = some c := by
  obtain ⟨os, hos, hfits⟩ := Json.Arranged.fields? h (by decide : fieldNames.Nodup)
  rcases hfits with _ | ⟨hstem, _ | ⟨hreset, _ | ⟨hflip, _ | _⟩⟩⟩
  exact ofJson?_eq_some_iff.2 ⟨_, _, _, hos,
    Json.withDefault_of_fits hstem (fun _ h => h ▸ rfl) id,
    Json.withDefault_of_fits hreset (fun _ h => h ▸ rfl) id,
    Json.withDefault_of_fits hflip (fun _ h => h ▸ rfl) id⟩

theorem not_flawed (h : ofJson? v = some c) : ¬ Flawed v := by
  obtain ⟨_, _, _, hos, -⟩ := ofJson?_eq_some_iff.1 h
  exact Json.not_flawed hos (List.nil_subset _) (List.forall_mem_nil _)

theorem ofText?_of_rendered {text : String} (h : c.RenderedAs v) (hv : v.WrittenAs text) :
    ofText? text = .ok c := by
  rw [ofText?, Json.parse?_written hv, Option.bind_some, ofJson?_of_rendered h]

theorem ofText?_of_flawed {text : String} (h : Flawed v) (hv : v.WrittenAs text) :
    ofText? text = .error .malformedConfig := by
  have hnone : ofJson? v = none :=
    Option.eq_none_iff_forall_not_mem.2 fun _ hc => not_flawed hc h
  rw [ofText?, Json.parse?_written hv, Option.bind_some, hnone]

end Config

namespace Snapshot

variable {v : Json}

namespace Card

variable {c : Card}

theorem ofJson?_eq_some_iff :
    ofJson? v = some c ↔ ∃ id stableId role body,
      v.fields? fieldNames = some [id, stableId, role, body] ∧
      Json.required NodeId.ofJson? id = some c.id ∧
      Json.withDefault none (Json.nullable Uuid.ofJson?) stableId = some c.stableId ∧
      Json.required Role.ofJson? role = some c.role ∧
      Json.withDefault .empty Body.ofJson? body = some c.body := by
  rw [ofJson?, Option.bind_eq_bind, Option.bind_eq_some_iff]
  constructor
  · rintro ⟨os, hos, h⟩
    split at h
    · next id stableId role body =>
      simp only [Option.bind_eq_bind, Option.bind_eq_some_iff, Option.pure_def] at h
      obtain ⟨i, hi, u, hu, r, hr, b, hb, h⟩ := h
      cases h
      exact ⟨id, stableId, role, body, hos, hi, hu, hr, hb⟩
    · cases h
  · rintro ⟨id, stableId, role, body, hos, hi, hu, hr, hb⟩
    exact ⟨_, hos, by simp [hi, hu, hr, hb]⟩

theorem ofJson?_of_rendered (h : c.RenderedAs v) : ofJson? v = some c := by
  obtain ⟨os, hos, hfits⟩ := Json.Arranged.fields? h (by decide : fieldNames.Nodup)
  rcases hfits with _ | ⟨hid, _ | ⟨hstable, _ | ⟨hrole, _ | ⟨hbody, _ | _⟩⟩⟩⟩
  have hnull := Json.nullable_optional Uuid.ofJson?_toJson (fun _ => nofun) c.stableId
  exact ofJson?_eq_some_iff.2 ⟨_, _, _, _, hos,
    Json.required_of_fits hid (fun _ h => h ▸ NodeId.ofJson?_toJson c.id) (fun h => h),
    Json.withDefault_of_fits hstable (fun _ h => h ▸ hnull) (fun h => h),
    Json.required_of_fits hrole (fun _ h => h ▸ Role.ofJson?_toJson c.role) (fun h => h),
    Json.withDefault_of_fits hbody (fun _ h => Body.ofJson?_of_rendered h) (fun h => h)⟩

theorem not_flawed (h : ofJson? v = some c) : ¬ Flawed v := by
  obtain ⟨id, stableId, role, body, hos, hid, -, hrole, -⟩ := ofJson?_eq_some_iff.1 h
  refine Json.not_flawed hos (by decide) ?_
  have hid := Json.ne_none_of_required hid
  have hrole := Json.ne_none_of_required hrole
  simp [fieldNames, hid.symm, hrole.symm]

end Card

namespace Edge

variable {e : Edge}

theorem ofJson?_eq_some_iff :
    ofJson? v = some e ↔ ∃ parent child, v.fields? fieldNames = some [parent, child] ∧
      Json.required NodeId.ofJson? parent = some e.parent ∧
      Json.required NodeId.ofJson? child = some e.child := by
  rw [ofJson?, Option.bind_eq_bind, Option.bind_eq_some_iff]
  constructor
  · rintro ⟨os, hos, h⟩
    split at h
    · next parent child =>
      simp only [Option.bind_eq_bind, Option.bind_eq_some_iff, Option.pure_def] at h
      obtain ⟨p, hp, c, hc, h⟩ := h
      cases h
      exact ⟨parent, child, hos, hp, hc⟩
    · cases h
  · rintro ⟨parent, child, hos, hp, hc⟩
    exact ⟨_, hos, by simp [hp, hc]⟩

theorem ofJson?_of_rendered (h : e.RenderedAs v) : ofJson? v = some e := by
  obtain ⟨os, hos, hfits⟩ := Json.Arranged.fields? h (by decide : fieldNames.Nodup)
  rcases hfits with _ | ⟨hparent, _ | ⟨hchild, _ | _⟩⟩
  exact ofJson?_eq_some_iff.2 ⟨_, _, hos,
    Json.required_of_fits hparent (fun _ h => h ▸ NodeId.ofJson?_toJson e.parent) id,
    Json.required_of_fits hchild (fun _ h => h ▸ NodeId.ofJson?_toJson e.child) id⟩

theorem not_flawed (h : ofJson? v = some e) : ¬ Flawed v := by
  obtain ⟨parent, child, hos, hparent, hchild⟩ := ofJson?_eq_some_iff.1 h
  refine Json.not_flawed hos (by decide) ?_
  have hparent := Json.ne_none_of_required hparent
  have hchild := Json.ne_none_of_required hchild
  simp [fieldNames, hparent.symm, hchild.symm]

end Edge

variable {s : Snapshot}

theorem ofJson?_eq_some_iff :
    ofJson? v = some s ↔ ∃ root cards edges, v.fields? fieldNames = some [root, cards, edges] ∧
      Json.withDefault none (Json.nullable NodeId.ofJson?) root = some s.root ∧
      Json.withDefault [] (fun v => v.items?.bind (·.mapM Card.ofJson?)) cards = some s.cards ∧
      Json.withDefault [] (fun v => v.items?.bind (·.mapM Edge.ofJson?)) edges = some s.edges := by
  rw [ofJson?, Option.bind_eq_bind, Option.bind_eq_some_iff]
  constructor
  · rintro ⟨os, hos, h⟩
    split at h
    · next root cards edges =>
      simp only [Option.bind_eq_bind, Option.bind_eq_some_iff, Option.pure_def] at h
      obtain ⟨r, hr, c, hc, e, he, h⟩ := h
      cases h
      exact ⟨root, cards, edges, hos, hr, hc, he⟩
    · cases h
  · rintro ⟨root, cards, edges, hos, hr, hc, he⟩
    exact ⟨_, hos, by simp [hr, hc, he]⟩

theorem items_of_rendered {α : Type} {RenderedAs : α → Json → Prop} {read : Json → Option α}
    (hread : ∀ a v, RenderedAs a v → read v = some a) {as : List α}
    (h : ∃ items, v = .array items ∧ List.Forall₂ RenderedAs as items) :
    v.items?.bind (·.mapM read) = some as := by
  obtain ⟨items, rfl, hitems⟩ := h
  exact mapM_eq_some_iff.2 (hitems.imp hread).flip

theorem ofJson?_of_rendered (h : s.RenderedAs v) : ofJson? v = some s := by
  obtain ⟨os, hos, hfits⟩ := Json.Arranged.fields? h (by decide : fieldNames.Nodup)
  rcases hfits with _ | ⟨hroot, _ | ⟨hcards, _ | ⟨hedges, _ | _⟩⟩⟩
  have hnull := Json.nullable_optional NodeId.ofJson?_toJson (fun _ => nofun) s.root
  have hcard : ∀ c v, Card.RenderedAs c v → Card.ofJson? v = some c := fun _ _ =>
    Card.ofJson?_of_rendered
  have hedge : ∀ e v, Edge.RenderedAs e v → Edge.ofJson? v = some e := fun _ _ =>
    Edge.ofJson?_of_rendered
  exact ofJson?_eq_some_iff.2 ⟨_, _, _, hos,
    Json.withDefault_of_fits hroot (fun _ h => h ▸ hnull) id,
    Json.withDefault_of_fits hcards (fun _ => items_of_rendered hcard) id,
    Json.withDefault_of_fits hedges (fun _ => items_of_rendered hedge) id⟩

theorem not_flawedItem {α : Type} {Flawed : Json → Prop} {read : Json → Option α} {name : String}
    {names : List String} {os : List (Option Json)} (h : v.fields? names = some os)
    (hname : name ∈ names)
    (hlist : ∀ w, (name, some w) ∈ names.zip os → ∃ as, w.items?.bind (·.mapM read) = some as)
    (hitem : ∀ item a, read item = some a → ¬ Flawed item) : ¬ FlawedItem name Flawed v := by
  rintro ⟨members, items, rfl, hm, item, hmem, hflawed⟩
  obtain ⟨as, has⟩ := hlist _ (Json.mem_zip_of_fields? h hname hm)
  obtain ⟨a, -, ha⟩ := exists_mem_zip (mapM_eq_some_iff.1 has) item hmem
  exact hitem item a ha hflawed

theorem not_flawed (h : ofJson? v = some s) : ¬ Flawed v := by
  obtain ⟨root, cards, edges, hos, -, hcards, hedges⟩ := ofJson?_eq_some_iff.1 h
  rintro (hflawed | hflawed | hflawed)
  · exact Json.not_flawed hos (List.nil_subset _) (List.forall_mem_nil _) hflawed
  · refine not_flawedItem hos (by decide) (fun w hw => ?_) (fun _ _ => Card.not_flawed) hflawed
    obtain rfl : cards = some w := by simpa [fieldNames, eq_comm] using hw
    exact ⟨_, hcards⟩
  · refine not_flawedItem hos (by decide) (fun w hw => ?_) (fun _ _ => Edge.not_flawed) hflawed
    obtain rfl : edges = some w := by simpa [fieldNames, eq_comm] using hw
    exact ⟨_, hedges⟩

theorem ofText?_of_rendered {text : String} (h : s.RenderedAs v) (hv : v.WrittenAs text) :
    ofText? text = .ok s := by
  rw [ofText?, Json.parse?_written hv, Option.bind_some, ofJson?_of_rendered h]

theorem ofText?_of_flawed {text : String} (h : Flawed v) (hv : v.WrittenAs text) :
    ofText? text = .error .malformedSnapshot := by
  have hnone : ofJson? v = none :=
    Option.eq_none_iff_forall_not_mem.2 fun _ hs => not_flawed hs h
  rw [ofText?, Json.parse?_written hv, Option.bind_some, hnone]

end Snapshot

/-- Each text of a rendering is decoded to what it renders, and each text of a value in which a
known name repeats or a required one is missing is refused. -/
theorem decoding_ignores_rendering :
    (∀ (s : Snapshot) (v : Json) (text : String), s.RenderedAs v → v.WrittenAs text →
        Snapshot.ofText? text = .ok s) ∧
      (∀ (c : Config) (v : Json) (text : String), c.RenderedAs v → v.WrittenAs text →
        Config.ofText? text = .ok c) ∧
      (∀ (v : Json) (text : String), Snapshot.Flawed v → v.WrittenAs text →
        Snapshot.ofText? text = .error .malformedSnapshot) ∧
      ∀ (v : Json) (text : String), Config.Flawed v → v.WrittenAs text →
        Config.ofText? text = .error .malformedConfig :=
  ⟨fun _ _ _ => Snapshot.ofText?_of_rendered, fun _ _ _ => Config.ofText?_of_rendered,
    fun _ _ => Snapshot.ofText?_of_flawed, fun _ _ => Config.ofText?_of_flawed⟩

namespace Snapshot

open Json

def shuffled : Json := .record [
  ("x", .real),
  ("nodes", .array [
    .record [("type", .string "source"), ("x", .text none), ("id", .string "a")]]),
  ("x", .null)]

theorem renderedAs_shuffled :
    RenderedAs { cards := [{ id := ⟨"a"⟩, role := .source }] } shuffled := by
  have hcard : Card.RenderedAs { id := ⟨"a"⟩, role := .source }
      (.record [("type", .string "source"), ("x", .text none), ("id", .string "a")]) :=
    ⟨[("id", .string "a"), ("type", .string "source")], [("x", .text none)], _,
      .given rfl (.omitted rfl (.given rfl (.omitted rfl .nil))), by simp [Card.fields],
      @List.perm_append_comm _ [_, _] [_], rfl⟩
  refine ⟨[("nodes", .array [_])], [("x", .real), ("x", .null)], _,
    .omitted rfl (.given ⟨_, rfl, .cons hcard .nil⟩ (.omitted rfl .nil)), by simp [fields],
    .swap _ _ _, rfl⟩

theorem shuffled_writtenAs : shuffled.WrittenAs
    ("\x7b\"x\" : -0.5E3,\"nodes\":[\x7b\"type\":\"source\",\"x\":\"\\uD800\"," ++
      "\"id\":\"\\u0061\"\x7d],\"x\":null\x7d\n") := by
  have hblank : ∀ c, Scanner.isBlank c = true → Written [] [c] := fun c hc =>
    .nil (List.forall_mem_singleton.2 hc)
  have hdigit : ∀ c, c.isDigit = true → Numeral.Digits [c] := fun c hc =>
    ⟨nofun, List.forall_mem_singleton.2 hc⟩
  have hreal : Token.Spelled .real "-0.5E3".toList :=
    .number (@Numeral.Spelled.real ['-'] ['0'] ['.', '5'] ['E', '3'] (by simp) .zero
      (.point (hdigit '5' rfl)) (@Numeral.Exponent.marked 'E' [] ['3'] (by simp) (by simp)
        (hdigit '3' rfl)) (by simp))
  have hhalf : Token.Spelled (.text none) "\"\\uD800\"".toList :=
    .brokenText (.cons (.unit (i := 13) (j := 8) (k := 0) (l := 0) rfl rfl rfl rfl) .nil)
      (Piece.not_denotes (by decide))
  have hletter : Piece.Denotes [.unit 97] "a".toList := @Piece.Denotes.unit 'a' [] [] .nil
  have hid : Token.Spelled (.text (some "a")) "\"\\u0061\"".toList :=
    .text (.cons (.unit (i := 0) (j := 0) (k := 6) (l := 1) rfl rfl rfl rfl) .nil) hletter
  exact (written_spell [.openObject, .text (some "x")]).append <| (hblank ' ' rfl).append <|
    (written_spell [.colon]).append <| (hblank ' ' rfl).append <|
    (written_of_spelled hreal).append <|
    (written_spell [.comma, .text (some "nodes"), .colon, .openArray, .openObject,
      .text (some "type"), .colon, .text (some "source"), .comma, .text (some "x"),
      .colon]).append <|
    (written_of_spelled hhalf).append <|
    (written_spell [.comma, .text (some "id"), .colon]).append <|
    (written_of_spelled hid).append <|
    (written_spell [.closeObject, .closeArray, .comma, .text (some "x"), .colon, .null,
      .closeObject]).append (hblank '\n' rfl)

end Snapshot

theorem decoding_ignores_rendering_shuffled :
    Snapshot.ofText? ("\x7b\"x\" : -0.5E3,\"nodes\":[\x7b\"type\":\"source\",\"x\":\"\\uD800\"," ++
        "\"id\":\"\\u0061\"\x7d],\"x\":null\x7d\n") =
      .ok { cards := [{ id := ⟨"a"⟩, role := .source }] } ∧
    Config.ofText? "\x7b\"flip_reverse_edges\":false\x7d" = .ok { flipReverseEdges := false } ∧
    Snapshot.ofText? "\x7b\"nodes\":[\x7b\"id\":\"a\"\x7d]\x7d" = .error .malformedSnapshot ∧
    Config.ofText? "\x7b\"flip_reverse_edges\":true,\"flip_reverse_edges\":true\x7d" =
      .error .malformedConfig := by
  obtain ⟨hsnapshot, hconfig, hflawed, hflawed'⟩ := decoding_ignores_rendering
  refine ⟨hsnapshot _ _ _ Snapshot.renderedAs_shuffled Snapshot.shuffled_writtenAs, ?_, ?_, ?_⟩
  · refine hconfig _ (.record [("flip_reverse_edges", .bool false)]) _ ?_
      (Json.writtenAs_compact _)
    exact Json.Filled.arranged (.omitted rfl (.omitted rfl (.given rfl .nil)))
  · refine hflawed (.record [("nodes", .array [.record [("id", .string "a")]])]) _ ?_
      (Json.writtenAs_compact _)
    have hcard : Snapshot.Card.Flawed (.record [("id", .string "a")]) :=
      ⟨_, rfl, .inr ⟨"type", by decide, by decide⟩⟩
    exact .inr (.inl ⟨_, _, rfl, List.mem_singleton_self _, _, List.mem_singleton_self _, hcard⟩)
  · refine hflawed' (.record [("flip_reverse_edges", .bool true),
      ("flip_reverse_edges", .bool true)]) _ ?_ (Json.writtenAs_compact _)
    exact ⟨_, rfl, .inl ⟨"flip_reverse_edges", by decide, by decide⟩⟩

end ArgumentMap
