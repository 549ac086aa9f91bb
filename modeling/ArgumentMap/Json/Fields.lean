import ArgumentMap.Json.Basic

/-! Reading records and choices. A record is an object, in which unknown names are passed over, or
an array of its fields in their order. The objects that stand for a record have its fields in any
order, some of them left out, among members that are not known. -/

namespace ArgumentMap

namespace Json

/-- The value of the member with this name. It may be given once; none if it is left out. -/
def field? (members : List (String × Json)) (name : String) : Option (Option Json) :=
  match members.filter (·.1 = name) with
  | [] => some none
  | [m] => some (some m.2)
  | _ => none

/-- The fields of a record in the order of `names`, each with its value if it has one. An array may
stop early and holds no more than the fields. -/
def fields? (names : List String) : Json → Option (List (Option Json))
  | object members => (object members).members?.bind fun ms => names.mapM (field? ms)
  | array items =>
    if items.length ≤ names.length then
      some (items.map some ++ List.replicate (names.length - items.length) none)
    else none
  | _ => none

def required {α : Type} (read : Json → Option α) (field : Option Json) : Option α :=
  field.bind read

def withDefault {α : Type} (default : α) (read : Json → Option α) : Option Json → Option α
  | none => some default
  | some v => read v

def nullable {α : Type} (read : Json → Option α) : Json → Option (Option α)
  | null => some none
  | v => (read v).map some

/-- The name of a choice, alone or as the only name of an object whose value there is null. -/
def choice? : Json → Option String
  | text s => s
  | object [(name, null)] => name
  | _ => none

structure Field where
  name : String
  Holds : Json → Prop
  Omissible : Prop

inductive Filled : List Field → List (String × Json) → Prop
  | nil : Filled [] []
  | given {f : Field} {fields : List Field} {v : Json} {members : List (String × Json)} :
      f.Holds v → Filled fields members → Filled (f :: fields) ((f.name, v) :: members)
  | omitted {f : Field} {fields : List Field} {members : List (String × Json)} :
      f.Omissible → Filled fields members → Filled (f :: fields) members

/-- The members for the fields are put in any order together with others, under names that are not
known and may repeat. -/
def Arranged (fields : List Field) (v : Json) : Prop :=
  ∃ known others members, Filled fields known ∧ (∀ m ∈ others, m.1 ∉ fields.map (·.name)) ∧
    members.Perm (known ++ others) ∧ v = record members

/-- A known name repeats, or a required one is missing. -/
def Flawed (names required : List String) (v : Json) : Prop :=
  ∃ members, v = object members ∧
    ((∃ name ∈ names, 1 < (members.map (·.1)).count (some name)) ∨
      ∃ name ∈ required, some name ∉ members.map (·.1))

end Json

end ArgumentMap
