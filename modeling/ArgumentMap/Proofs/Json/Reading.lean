import ArgumentMap.Json.Parse
import ArgumentMap.Proofs.Json.Spelling

/-!
# Reading what was written

The tokens of a value build that value again, so every text with these tokens is read
as that value. Both layouts write them, and what they write is read back.
-/

namespace ArgumentMap.Json

open Scanner (Blank)

namespace Cursor

theorem build_firstItem (v : Json) (stack : List Frame) :
    v.tokens.foldlM step ⟨stack, .firstItem⟩ = v.tokens.foldlM step ⟨stack, .value⟩ := by
  cases v <;> rfl

mutual

theorem build_value : ∀ (v : Json) (stack : List Frame),
    v.tokens.foldlM step ⟨stack, .value⟩ = complete v stack
  | .null, _ | .bool _, _ | .int _, _ | .real, _ | .text _, _ => by simp [tokens, step, begin]
  | .array [], stack => by simp [tokens, itemTokens, separate, step, begin, close]
  | .array (v :: items), stack => by
    have hfirst := (build_firstItem v (.array [] :: stack)).trans (build_value v _)
    have hitems := build_items items [v] stack
    have htokens : (array (v :: items)).tokens = .openArray :: (v.tokens ++
        ((itemTokens items).flatMap (.comma :: ·) ++ [.closeArray])) := by
      simp [tokens, itemTokens, separate]
    rw [htokens, List.foldlM_cons]
    change (v.tokens ++ _).foldlM step ⟨.array [] :: stack, .firstItem⟩ = _
    rw [foldlM_append_of_eq_some hfirst, foldlM_append_of_eq_some hitems]
    change (complete (.array (items.reverse ++ [v]).reverse) stack >>= pure) = _
    simp
  | .object [], stack => by simp [tokens, memberTokens, separate, step, begin, close]
  | .object ((name, v) :: members), stack => by
    have hfirst := build_value v (.member [] name :: stack)
    have hmembers := build_members members [(name, v)] stack
    have htokens : (object ((name, v) :: members)).tokens = .openObject :: .text name :: .colon ::
        (v.tokens ++ ((memberTokens members).flatMap (.comma :: ·) ++ [.closeObject])) := by
      simp [tokens, memberTokens, separate]
    rw [htokens]
    change (v.tokens ++ _).foldlM step ⟨.member [] name :: stack, .value⟩ = _
    rw [foldlM_append_of_eq_some hfirst, foldlM_append_of_eq_some hmembers]
    change (complete (.object (members.reverse ++ [(name, v)]).reverse) stack >>= pure) = _
    simp

theorem build_items : ∀ (items acc : List Json) (stack : List Frame),
    ((itemTokens items).flatMap (Token.comma :: ·)).foldlM step ⟨.array acc :: stack, .next⟩ =
      some ⟨.array (items.reverse ++ acc) :: stack, .next⟩
  | [], _, _ => rfl
  | v :: items, acc, stack => by
    have hitem := build_value v (.array acc :: stack)
    rw [itemTokens, List.flatMap_cons, List.cons_append]
    change (v.tokens ++ _).foldlM step ⟨.array acc :: stack, .value⟩ = _
    rw [foldlM_append_of_eq_some hitem, build_items items (v :: acc) stack]
    simp

theorem build_members : ∀ (members acc : List Member) (stack : List Frame),
    ((memberTokens members).flatMap (Token.comma :: ·)).foldlM step ⟨.object acc :: stack, .next⟩ =
      some ⟨.object (members.reverse ++ acc) :: stack, .next⟩
  | [], _, _ => rfl
  | (name, v) :: members, acc, stack => by
    have hvalue := build_value v (.member acc name :: stack)
    rw [memberTokens, List.flatMap_cons, List.cons_append]
    change (v.tokens ++ _).foldlM step ⟨.member acc name :: stack, .value⟩ = _
    rw [foldlM_append_of_eq_some hvalue, build_members members ((name, v) :: acc) stack]
    simp

end

end Cursor

theorem ofTokens?_tokens (v : Json) : ofTokens? v.tokens = some v := by
  rw [ofTokens?, Cursor.build_value]
  rfl

theorem Spaced.after {bare : Bool} {ts : List Token} (h : Spaced true ts) : Spaced bare ts := by
  cases ts with
  | nil => trivial
  | cons t ts => exact ⟨fun _ => h.1 rfl, h.2⟩

theorem spaced_cons {bare : Bool} {t : Token} {ts : List Token} (ht : t.bare = false)
    (hts : Spaced false ts) : Spaced bare (t :: ts) :=
  ⟨fun _ => ht, by rwa [ht]⟩

mutual

theorem spaced_tokens : ∀ (v : Json) {rest : List Token}, Spaced true rest →
    Spaced false (v.tokens ++ rest)
  | .null, _, h | .bool _, _, h | .int _, _, h | .real, _, h => ⟨nofun, h⟩
  | .text _, _, h => spaced_cons rfl h.after
  | .array [], _, h | .object [], _, h => spaced_cons rfl (spaced_cons rfl h.after)
  | .array (v :: items), rest, h => by
    have hitems := spaced_tokens v (spaced_items items (spaced_cons (t := .closeArray) rfl h.after))
    simpa [tokens, itemTokens, separate] using spaced_cons (t := .openArray) rfl hitems
  | .object ((name, v) :: members), rest, h => by
    have hmembers := spaced_tokens v
      (spaced_members members (spaced_cons (t := .closeObject) rfl h.after))
    simpa [tokens, memberTokens, separate] using
      spaced_cons (t := .openObject) rfl
        (spaced_cons (t := .text name) rfl (spaced_cons (t := .colon) rfl hmembers))

theorem spaced_items : ∀ (items : List Json) {rest : List Token}, Spaced true rest →
    Spaced true ((itemTokens items).flatMap (Token.comma :: ·) ++ rest)
  | [], _, h => h
  | v :: items, rest, h => by
    have hitems := spaced_tokens v (spaced_items items h)
    simpa [itemTokens] using spaced_cons (t := .comma) rfl hitems

theorem spaced_members : ∀ (members : List Member) {rest : List Token}, Spaced true rest →
    Spaced true ((memberTokens members).flatMap (Token.comma :: ·) ++ rest)
  | [], _, h => h
  | (name, v) :: members, rest, h => by
    have hmembers := spaced_tokens v (spaced_members members h)
    simpa [memberTokens] using spaced_cons (t := .comma) rfl
      (spaced_cons (t := .text name) rfl (spaced_cons (t := .colon) rfl hmembers))

end

/-- A text with the tokens of a value is that value, however they are spelled and whatever
blanks stand between them. -/
theorem parse?_written {v : Json} {text : String} (h : v.WrittenAs text) :
    parse? text = some v := by
  have hspaced : Spaced false v.tokens := by
    rw [← List.append_nil v.tokens]
    exact spaced_tokens v trivial
  rw [parse?, scan_written h hspaced, Option.bind_some, ofTokens?_tokens]

theorem map_separate {α β : Type} (f : α → β) (comma : α) (parts : List (List α)) :
    (separate comma parts).map f = separate (f comma) (parts.map (List.map f)) := by
  cases parts with
  | nil => rfl
  | cons first rest => simp [separate, List.map_flatMap, List.flatMap_map]

mutual

theorem token_place : ∀ (depth : Nat) (lead : List Char) (v : Json),
    (place depth lead v).map (·.token) = v.tokens
  | _, _, .null | _, _, .bool _ | _, _, .int _ | _, _, .real | _, _, .text _ => rfl
  | depth, _, .array items => by
    simp [place, tokens, map_separate, token_placeItems (depth + 1) items]
  | depth, _, .object members => by
    simp [place, tokens, map_separate, token_placeMembers (depth + 1) members]

theorem token_placeItems : ∀ (depth : Nat) (items : List Json),
    (placeItems depth items).map (List.map (·.token)) = itemTokens items
  | _, [] => rfl
  | depth, v :: items => by
    simp [placeItems, itemTokens, token_place depth _ v, token_placeItems depth items]

theorem token_placeMembers : ∀ (depth : Nat) (members : List Member),
    (placeMembers depth members).map (List.map (·.token)) = memberTokens members
  | _, [] => rfl
  | depth, (name, v) :: members => by
    simp [placeMembers, memberTokens, token_place depth _ v, token_placeMembers depth members]

end

theorem blank_newline (depth : Nat) : Blank (newline depth) := by
  intro c hc
  rcases List.mem_cons.1 hc with rfl | hc
  · rfl
  · rw [List.eq_of_mem_replicate hc]
    rfl

theorem forall_mem_separate {α : Type} {P : α → Prop} {comma : α} {parts : List (List α)}
    (hcomma : P comma) (hparts : ∀ part ∈ parts, ∀ a ∈ part, P a) :
    ∀ a ∈ separate comma parts, P a := by
  cases parts with
  | nil => exact List.forall_mem_nil _
  | cons first rest =>
    obtain ⟨hfirst, hrest⟩ := List.forall_mem_cons.1 hparts
    refine List.forall_mem_append.2 ⟨hfirst, fun a ha => ?_⟩
    obtain ⟨part, hpart, ha⟩ := List.mem_flatMap.1 ha
    rcases List.mem_cons.1 ha with rfl | ha
    · exact hcomma
    · exact hrest part hpart a ha

theorem blank_container {lead : List Char} {token close : Token} {parts : List (List Placed)}
    {last : List Char} (hlead : Blank lead) (hlast : Blank last)
    (hparts : ∀ part ∈ parts, ∀ p ∈ part, Blank p.blanks) :
    ∀ p ∈ ⟨lead, token⟩ :: separate ⟨[], .comma⟩ parts ++ [⟨last, close⟩], Blank p.blanks := by
  rw [List.forall_mem_append, List.forall_mem_cons, List.forall_mem_singleton]
  exact ⟨⟨hlead, forall_mem_separate blank_nil hparts⟩, hlast⟩

mutual

theorem blank_place : ∀ (depth : Nat) {lead : List Char} (v : Json), Blank lead →
    ∀ p ∈ place depth lead v, Blank p.blanks
  | _, _, .null, h | _, _, .bool _, h | _, _, .int _, h | _, _, .real, h | _, _, .text _, h =>
    List.forall_mem_singleton.2 h
  | depth, _, .array items, h => by
    refine blank_container h ?_ (blank_placeItems (depth + 1) items)
    split_ifs
    · exact blank_nil
    · exact blank_newline depth
  | depth, _, .object members, h => by
    refine blank_container h ?_ (blank_placeMembers (depth + 1) members)
    split_ifs
    · exact blank_nil
    · exact blank_newline depth

theorem blank_placeItems : ∀ (depth : Nat) (items : List Json),
    ∀ part ∈ placeItems depth items, ∀ p ∈ part, Blank p.blanks
  | _, [] => List.forall_mem_nil _
  | depth, v :: items => List.forall_mem_cons.2
    ⟨blank_place depth v (blank_newline depth), blank_placeItems depth items⟩

theorem blank_placeMembers : ∀ (depth : Nat) (members : List Member),
    ∀ part ∈ placeMembers depth members, ∀ p ∈ part, Blank p.blanks
  | _, [] => List.forall_mem_nil _
  | depth, (_, v) :: members => by
    have hvalue := blank_place depth v (List.forall_mem_singleton.2 rfl : Blank [' '])
    refine List.forall_mem_cons.2 ⟨?_, blank_placeMembers depth members⟩
    exact List.forall_mem_cons.2 ⟨blank_newline depth, List.forall_mem_cons.2 ⟨blank_nil, hvalue⟩⟩

end

theorem writtenAs_compact (v : Json) : v.WrittenAs v.compact := by
  rw [WrittenAs, compact, String.toList_ofList]
  exact written_spell v.tokens

theorem parse?_compact (v : Json) : parse? v.compact = some v :=
  parse?_written v.writtenAs_compact

end ArgumentMap.Json
