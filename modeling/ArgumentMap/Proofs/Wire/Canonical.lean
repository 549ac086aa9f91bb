import ArgumentMap.Proofs.Body
import ArgumentMap.Proofs.Wire.Decoding

/-!
# The text of a body

A body is written as its names in order, each once and with its value. The text
tells what the body holds, and nothing of how it came to hold it.
-/

namespace ArgumentMap

namespace Json

theorem flatMap_separate {α β : Type} (f : α → List β) (comma : α) (parts : List (List α)) :
    (separate comma parts).flatMap f = (f comma).intercalate (parts.map (·.flatMap f)) := by
  cases parts with
  | nil => rfl
  | cons first rest =>
    rw [separate, List.flatMap_append]
    induction rest generalizing first with
    | nil => simp
    | cons second rest ih =>
      rw [List.map_cons, List.map_cons, List.intercalate_cons_cons, ← List.map_cons, ← ih second]
      simp

theorem memberTokens_eq (members : List Member) :
    memberTokens members = members.map fun m => .text m.1 :: .colon :: m.2.tokens := by
  induction members with
  | nil => rfl
  | cons m rest ih => rw [memberTokens, ih, List.map_cons]

theorem compact_record (members : List (String × Json)) :
    (record members).compact.toList = '\x7b' :: [','].intercalate (members.map fun m =>
      (string m.1).compact.toList ++ ':' :: m.2.compact.toList) ++ ['\x7d'] := by
  have hmember : ∀ m : String × Json,
      (Token.text (some m.1) :: .colon :: m.2.tokens).flatMap Token.spell =
        (string m.1).compact.toList ++ ':' :: m.2.compact.toList := by
    intro m
    rw [compact, compact, String.toList_ofList, String.toList_ofList, string, tokens,
      List.flatMap_cons, List.flatMap_cons, List.flatMap_singleton]
    rfl
  have hcontent : (separate .comma (memberTokens (members.map fun m => (some m.1, m.2)))).flatMap
      Token.spell = [','].intercalate (members.map fun m =>
        (string m.1).compact.toList ++ ':' :: m.2.compact.toList) := by
    rw [flatMap_separate, memberTokens_eq, List.map_map, List.map_map]
    exact congrArg [','].intercalate (List.map_congr_left fun m _ => hmember m)
  rw [record, compact, String.toList_ofList, tokens, List.flatMap_append, List.flatMap_cons,
    hcontent]
  rfl

end Json

def Entry.spell (e : Entry) : List Char :=
  (Json.string e.1).compact.toList ++ ':' :: e.2.toJson.compact.toList

namespace Body

variable {b c : Body}

theorem toList_toText (b : Body) :
    b.toText.toList = '\x7b' :: [','].intercalate (b.entries.map Entry.spell) ++ ['\x7d'] := by
  rw [toText, toJson, Json.compact_record, List.map_map]
  rfl

theorem toText_eq_iff : b.toText = c.toText ↔ ∀ key, b.get? key = c.get? key := by
  constructor
  · intro h key
    have hb := parse?_toText b
    rw [h, parse?_toText c] at hb
    rw [Option.some.inj hb]
  · intro h
    rw [ext_get? h]

/-- After a run of writes a body holds under each name the last value written there, or what it
held before. Its text lists each name once, in order and with that value, and two bodies have the
same text just if they hold the same, whatever was written into them in whatever order. -/
theorem after_canonical (start : Body) (writes : List Write) :
    let b := start.after writes
    (∀ key, b.get? key =
      ((writes.reverse.find? (·.key = key)).map (·.value)).or (start.get? key)) ∧
    (∀ key text, b.getText? key = some text ↔ b.get? key = some (.text text)) ∧
    (∀ key i, b.getInt? key = some i ↔ b.get? key = some (.int i)) ∧
    b.size = (start.keys ++ writes.map (·.key)).toFinset.card ∧
    (∃ entries : List Entry, entries.Pairwise (·.1 < ·.1) ∧
      (∀ key value, (key, value) ∈ entries ↔ b.get? key = some value) ∧
      b.toText.toList = '\x7b' :: [','].intercalate (entries.map Entry.spell) ++ ['\x7d']) ∧
    ∀ (start' : Body) (writes' : List Write), (start'.after writes').toText = b.toText ↔
      ∀ key, (start'.after writes').get? key = b.get? key := by
  intro b
  have hsize : b.size = (start.keys ++ writes.map (·.key)).toFinset.card := by
    rw [size_eq_card, keys_after]
  exact ⟨get?_after start writes, fun _ _ => getText?_eq_some_iff, fun _ _ => getInt?_eq_some_iff,
    hsize, ⟨b.entries, b.increasing, fun _ _ => mem_entries_iff, toList_toText b⟩,
    fun _ _ => toText_eq_iff⟩

end Body

end ArgumentMap
