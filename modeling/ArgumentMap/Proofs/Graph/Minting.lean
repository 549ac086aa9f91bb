import ArgumentMap.Proofs.Graph.Tally

/-!
# Minting identifiers

The search for a free number tries one number after the other. Each card can take only one, so the
search ends within one more round than there are cards, at the first number that is free.
-/

open Finset

namespace ArgumentMap.Graph

theorem numbered_injective (g : Graph) : Function.Injective g.numbered := by
  intro j k h
  have hrepr : j.repr = k.repr := (String.append_right_inj g.stem).1 (NodeId.mk.inj h)
  have hdigits := congrArg String.toList hrepr
  rw [Nat.toList_repr, Nat.toList_repr] at hdigits
  have hvalue := congrArg (Nat.ofDigitChars 10 · 0) hdigits
  simpa using hvalue

/-- The search for a free number: from a number on, in so many rounds, up to the number found. -/
inductive Search (g : Graph) : Nat → Nat → Nat → Prop where
  | free {k : Nat} : g.contains (g.numbered k) = false → Search g k 1 k
  | taken {k rounds found : Nat} : g.contains (g.numbered k) = true →
      Search g (k + 1) rounds found → Search g k (rounds + 1) found

namespace Search

variable {g : Graph} {k rounds rounds' found found' tries : Nat}

theorem rounds_eq (h : g.Search k rounds found) : k + rounds = found + 1 := by
  induction h with
  | free => rfl
  | taken _ _ ih => omega

theorem one_le_rounds (h : g.Search k rounds found) : 1 ≤ rounds := by
  cases h <;> omega

theorem free_found (h : g.Search k rounds found) : g.contains (g.numbered found) = false := by
  induction h with
  | free hfree => exact hfree
  | taken _ _ ih => exact ih

theorem taken_before (h : g.Search k rounds found) {j : Nat} (hk : k ≤ j) (hj : j < found) :
    g.contains (g.numbered j) = true := by
  induction h with
  | free => omega
  | @taken k _ _ htaken _ ih =>
    by_cases hjk : j = k
    · rwa [hjk]
    · exact ih (by omega) hj

theorem unique (h : g.Search k rounds found) (h' : g.Search k rounds' found') :
    rounds' = rounds ∧ found' = found := by
  induction h generalizing rounds' with
  | free hfree =>
    cases h' with
    | free => exact ⟨rfl, rfl⟩
    | taken htaken => cases hfree.symm.trans htaken
  | taken htaken _ ih =>
    cases h' with
    | free hfree => cases hfree.symm.trans htaken
    | taken _ hrest =>
      obtain ⟨rfl, rfl⟩ := ih hrest
      exact ⟨rfl, rfl⟩

theorem firstFree_eq (h : g.Search k rounds found) (htries : rounds ≤ tries + 1) :
    firstFree (fun k => g.contains (g.numbered k)) tries k = found := by
  induction h generalizing tries with
  | free hfree =>
    cases tries with
    | zero => rfl
    | succ tries => rw [firstFree, if_neg (by simp [hfree])]
  | taken htaken hrest ih =>
    cases tries with
    | zero => cases hrest <;> omega
    | succ tries =>
      rw [firstFree, if_pos htaken]
      exact ih (by omega)

end Search

section
variable {g : Graph}

theorem exists_free_number (g : Graph) (k : Nat) :
    ∃ j ≤ g.nodeCount, g.contains (g.numbered (k + j)) = false := by
  by_contra hall
  -- Each card can take only one number, so one more than there are cards is enough.
  have htaken : ∀ j ∈ range (g.nodeCount + 1), g.numbered (k + j) ∈ g.keys := by
    intro j hj
    rw [mem_keys]
    by_contra hfree
    exact hall ⟨j, by simpa [Nat.lt_succ_iff] using hj, by simpa using hfree⟩
  have hcard := card_le_card_of_injOn (fun j => g.numbered (k + j)) htaken
    fun a _ b _ hab => Nat.add_left_cancel (g.numbered_injective hab)
  rw [card_range] at hcard
  have hkeys := g.card_keys_le
  omega

theorem search_of_free {j k : Nat} (hfree : g.contains (g.numbered (k + j)) = false) :
    ∃ rounds ≤ j + 1, ∃ found, g.Search k rounds found := by
  induction j generalizing k with
  | zero => exact ⟨1, le_rfl, k, .free hfree⟩
  | succ j ih =>
    cases hk : g.contains (g.numbered k) with
    | false => exact ⟨1, by omega, k, .free hk⟩
    | true =>
      rw [Nat.add_comm j 1, ← Nat.add_assoc] at hfree
      obtain ⟨rounds, hrounds, found, hsearch⟩ := ih hfree
      exact ⟨rounds + 1, by omega, found, .taken hk hsearch⟩

theorem exists_search (g : Graph) (k : Nat) :
    ∃ rounds ≤ g.nodeCount + 1, ∃ found, g.Search k rounds found := by
  obtain ⟨j, hj, hfree⟩ := g.exists_free_number k
  obtain ⟨rounds, hrounds, found, hsearch⟩ := search_of_free hfree
  exact ⟨rounds, by omega, found, hsearch⟩

theorem mint_of_search {rounds found : Nat} (hsearch : g.Search g.counter rounds found)
    (stableId : Uuid) : g.mint stableId = (g.numbered found,
      { g with
        counter := found + 1
        nodes := g.nodes ++ [{ id := g.numbered found, stableId := stableId }] }) := by
  obtain ⟨rounds', hrounds, found', hsearch'⟩ := g.exists_search g.counter
  obtain ⟨rfl, rfl⟩ := hsearch.unique hsearch'
  rw [mint, hsearch.firstFree_eq hrounds]

theorem mint_fresh (g : Graph) (stableId : Uuid) : g.contains (g.mint stableId).1 = false := by
  obtain ⟨rounds, -, found, hsearch⟩ := g.exists_search g.counter
  rw [mint_of_search hsearch stableId]
  exact hsearch.free_found

end

end ArgumentMap.Graph
