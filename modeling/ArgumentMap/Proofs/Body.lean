import ArgumentMap.Body
import Mathlib.Data.Finset.Card

/-!
# Bodies as finite maps

A body is known by what it holds under each name, since its entries are in the one
order of their names. A run of writes leaves under each name the last value written
there, and below it what was there before.
-/

namespace ArgumentMap

namespace Increasing

variable {as bs : List Entry}

theorem nodup_keys (h : Increasing as) : (as.map (·.1)).Nodup :=
  List.pairwise_map.2 (List.Pairwise.imp (fun hlt => Std.ne_of_lt hlt) h)

theorem nodup (h : Increasing as) : as.Nodup := h.nodup_keys.of_map _

theorem eq_of_mem_iff (has : Increasing as) (hbs : Increasing bs) (h : ∀ e, e ∈ as ↔ e ∈ bs) :
    as = bs :=
  List.Perm.eq_of_pairwise (fun _ _ _ _ hab hba => absurd hba (String.lt_asymm hab)) has hbs
    ((List.perm_ext_iff_of_nodup has.nodup hbs.nodup).2 h)

end Increasing

theorem Entry.lookup_eq_some_iff {entries : List Entry} (h : (entries.map (·.1)).Nodup)
    {key : String} {value : Scalar} :
    entries.lookup key = some value ↔ (key, value) ∈ entries := by
  induction entries with
  | nil => simp
  | cons e rest ih =>
    obtain ⟨hnew, hrest⟩ := List.nodup_cons.1 h
    rw [lookup_cons, List.mem_cons]
    split_ifs with he
    · have hnot : (e.1, value) ∉ rest := fun hm => hnew (List.mem_map.2 ⟨_, hm, rfl⟩)
      simp [hnot, Prod.ext_iff, he, eq_comm]
    · rw [ih hrest]
      simp [Prod.ext_iff, he]

namespace Body

variable {b c : Body}

theorem mem_entries_iff {key : String} {value : Scalar} :
    (key, value) ∈ b.entries ↔ b.get? key = some value :=
  (Entry.lookup_eq_some_iff b.increasing.nodup_keys).symm

theorem ext_get? (h : ∀ key, b.get? key = c.get? key) : b = c := by
  have hentries : b.entries = c.entries := by
    refine b.increasing.eq_of_mem_iff c.increasing fun e => ?_
    rw [← Prod.eta e, mem_entries_iff, mem_entries_iff, h]
  cases b
  cases c
  cases hentries
  rfl

theorem getText?_eq_some_iff {key text : String} :
    b.getText? key = some text ↔ b.get? key = some (.text text) := by
  rw [getText?]
  split <;> simp_all

theorem getInt?_eq_some_iff {key : String} {i : Int64} :
    b.getInt? key = some i ↔ b.get? key = some (.int i) := by
  rw [getInt?]
  split <;> simp_all

def keys (b : Body) : List String := b.entries.map (·.1)

theorem mem_keys_iff {key : String} : key ∈ b.keys ↔ (b.get? key).isSome = true := by
  rw [Option.isSome_iff_exists, keys, List.mem_map]
  constructor
  · intro h
    obtain ⟨e, he, rfl⟩ := h
    exact ⟨e.2, mem_entries_iff.1 he⟩
  · intro h
    obtain ⟨value, hv⟩ := h
    exact ⟨(key, value), mem_entries_iff.2 hv, rfl⟩

theorem size_eq_card (b : Body) : b.size = b.keys.toFinset.card := by
  rw [keys, List.toFinset_card_of_nodup b.increasing.nodup_keys, List.length_map]
  rfl

/-- The value that a run leaves under a name, if it writes there. -/
def lastWritten? (writes : List Write) (key : String) : Option Scalar :=
  (writes.reverse.find? (·.key = key)).map (·.value)

theorem lastWritten?_cons (w : Write) (writes : List Write) (key : String) :
    lastWritten? (w :: writes) key =
      (lastWritten? writes key).or (if w.key = key then some w.value else none) := by
  rw [lastWritten?, lastWritten?, List.reverse_cons, List.find?_append, Option.map_or,
    List.find?_singleton]
  split_ifs <;> simp_all

theorem lastWritten?_isSome_iff {writes : List Write} {key : String} :
    (lastWritten? writes key).isSome = true ↔ key ∈ writes.map (·.key) := by
  rw [lastWritten?, Option.isSome_map, List.find?_isSome, List.mem_map]
  simp

theorem get?_after (b : Body) (writes : List Write) (key : String) :
    (b.after writes).get? key = (lastWritten? writes key).or (b.get? key) := by
  induction writes generalizing b with
  | nil => rfl
  | cons w writes ih =>
    rw [after_cons, ih, w.perform_eq, get?_insert, lastWritten?_cons, Option.or_assoc]
    by_cases hw : w.key = key
    · rw [if_pos hw.symm, if_pos hw, Option.some_or]
    · rw [if_neg (Ne.symm hw), if_neg hw, Option.none_or]

theorem keys_after (b : Body) (writes : List Write) :
    (b.after writes).keys.toFinset = (b.keys ++ writes.map (·.key)).toFinset := by
  ext key
  rw [List.mem_toFinset, List.mem_toFinset, List.mem_append, mem_keys_iff, mem_keys_iff,
    get?_after, ← lastWritten?_isSome_iff, Option.isSome_or, Bool.or_eq_true, or_comm]

theorem ofList_eq_after (entries : List Entry) :
    ofList entries = empty.after (entries.map fun e => .insert e.1 e.2) := by
  rw [ofList, after, List.foldl_map]
  rfl

theorem lastWritten?_map_insert (entries : List Entry) (key : String) :
    lastWritten? (entries.map fun e => .insert e.1 e.2) key = entries.reverse.lookup key := by
  rw [lastWritten?, ← List.map_reverse]
  induction entries.reverse with
  | nil => rfl
  | cons e rest ih =>
    rw [Entry.lookup_cons, ← ih, List.map_cons, List.find?_cons]
    by_cases he : e.1 = key <;> simp [he, Write.key, Write.value, eq_comm (a := key)]

theorem ofList_of_perm {entries : List Entry} (h : entries.Perm b.entries) :
    ofList entries = b := by
  have hn : (entries.reverse.map (·.1)).Nodup :=
    (((List.reverse_perm entries).trans h).map _).nodup_iff.2 b.increasing.nodup_keys
  refine ext_get? fun key => Option.ext fun value => ?_
  rw [ofList_eq_after, get?_after, lastWritten?_map_insert, get?_empty, Option.or_none,
    Entry.lookup_eq_some_iff hn, List.mem_reverse, h.mem_iff, mem_entries_iff]

end Body

end ArgumentMap
