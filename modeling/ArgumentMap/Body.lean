/-! The content of a card: values under names, kept in the order of the names, so that a body has
one representation however it was filled in. Whole runs of writes. -/

namespace ArgumentMap

inductive Scalar
  | text (s : String)
  | int (i : Int64)
  | bool (b : Bool)
  | null
  deriving DecidableEq

abbrev Entry := String × Scalar

/-- Names increase by code point and none repeats. -/
def Increasing (entries : List Entry) : Prop := entries.Pairwise (·.1 < ·.1)

namespace Entry

/-- Puts a value in its place, over the one of that name if there is one. -/
def place (key : String) (value : Scalar) : List Entry → List Entry
  | [] => [(key, value)]
  | e :: rest =>
    if key < e.1 then (key, value) :: e :: rest
    else if key = e.1 then (key, value) :: rest
    else e :: place key value rest

theorem mem_place {key : String} {value : Scalar} {e : Entry} :
    ∀ {entries : List Entry}, e ∈ place key value entries → e = (key, value) ∨ e ∈ entries
  | [], h => by simpa [place] using h
  | d :: rest, h => by
    simp only [place] at h
    split at h
    · simpa using h
    · split at h
      · rcases List.mem_cons.1 h with h | h
        · exact .inl h
        · exact .inr (List.mem_cons_of_mem _ h)
      · rcases List.mem_cons.1 h with h | h
        · exact .inr (h ▸ List.mem_cons_self)
        · exact (mem_place h).imp id (List.mem_cons_of_mem _)

theorem increasing_place (key : String) (value : Scalar) :
    ∀ {entries : List Entry}, Increasing entries → Increasing (place key value entries)
  | [], _ => by simp [Increasing, place]
  | d :: rest, h => by
    obtain ⟨hd, hrest⟩ := List.pairwise_cons.1 h
    simp only [place]
    split
    · next hlt =>
      refine List.pairwise_cons.2 ⟨fun e he => ?_, h⟩
      rcases List.mem_cons.1 he with rfl | he
      · exact hlt
      · exact String.lt_trans hlt (hd e he)
    · next hnlt =>
      split
      · next heq => exact List.pairwise_cons.2 ⟨fun e he => heq ▸ hd e he, hrest⟩
      · next hne =>
        refine List.pairwise_cons.2 ⟨fun e he => ?_, increasing_place key value hrest⟩
        rcases mem_place he with rfl | he
        · exact Std.lt_of_le_of_ne (String.not_lt.1 hnlt) (Ne.symm hne)
        · exact hd e he

theorem lookup_cons (x : String) (e : Entry) (rest : List Entry) :
    (e :: rest).lookup x = if x = e.1 then some e.2 else rest.lookup x := by
  rw [← Prod.eta e, List.lookup_cons]
  by_cases h : x = e.1
  · rw [if_pos h, beq_iff_eq.2 h]
  · rw [if_neg h, beq_false_of_ne h]

theorem lookup_place (key : String) (value : Scalar) (x : String) (entries : List Entry) :
    (place key value entries).lookup x =
      if x = key then some value else entries.lookup x := by
  induction entries with
  | nil => rw [place, lookup_cons, List.lookup_nil]
  | cons e rest ih =>
    simp only [place]
    split
    · rw [lookup_cons]
    · split
      · next heq =>
        rw [lookup_cons, lookup_cons, ← heq]
        split <;> rfl
      · next hne =>
        rw [lookup_cons, lookup_cons, ih]
        by_cases hx : x = key
        · simp [hx, hne]
        · simp [hx]

end Entry

structure Body where
  entries : List Entry
  increasing : Increasing entries
  deriving DecidableEq

namespace Body

def titleKey : String := "title"

def textKey : String := "body"

def empty : Body := ⟨[], List.Pairwise.nil⟩

def insert (b : Body) (key : String) (value : Scalar) : Body :=
  ⟨Entry.place key value b.entries, Entry.increasing_place key value b.increasing⟩

def ofList (entries : List Entry) : Body :=
  entries.foldl (fun b e => b.insert e.1 e.2) empty

def get? (b : Body) (key : String) : Option Scalar := b.entries.lookup key

@[simp] theorem get?_empty (key : String) : empty.get? key = none := rfl

theorem get?_insert (b : Body) (key : String) (value : Scalar) (x : String) :
    (b.insert key value).get? x = if x = key then some value else b.get? x :=
  Entry.lookup_place key value x b.entries

def getText? (b : Body) (key : String) : Option String :=
  match b.get? key with
  | some (.text s) => some s
  | _ => none

def getInt? (b : Body) (key : String) : Option Int64 :=
  match b.get? key with
  | some (.int i) => some i
  | _ => none

def size (b : Body) : Nat := b.entries.length

def isEmpty (b : Body) : Bool := b.entries.isEmpty

def title? (b : Body) : Option String := b.getText? titleKey

def text? (b : Body) : Option String := b.getText? textKey

def setText (b : Body) (text : String) : Body := b.insert textKey (.text text)

inductive Write
  | insert (key : String) (value : Scalar)
  | setText (text : String)
  deriving DecidableEq

namespace Write

def key : Write → String
  | insert key _ => key
  | setText _ => textKey

def value : Write → Scalar
  | insert _ value => value
  | setText text => .text text

def perform : Write → Body → Body
  | insert key value, b => b.insert key value
  | setText text, b => b.setText text

theorem perform_eq (w : Write) (b : Body) : w.perform b = b.insert w.key w.value := by
  cases w <;> rfl

end Write

def after (b : Body) (writes : List Write) : Body := writes.foldl (fun b w => w.perform b) b

@[simp] theorem after_nil (b : Body) : b.after [] = b := rfl

@[simp] theorem after_cons (b : Body) (w : Write) (writes : List Write) :
    b.after (w :: writes) = (w.perform b).after writes := rfl

end Body

end ArgumentMap
