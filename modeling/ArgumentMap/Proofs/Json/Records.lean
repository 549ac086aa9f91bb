import ArgumentMap.Json.Fields
import Mathlib.Data.List.Count
import Mathlib.Data.List.Forall2
import Mathlib.Data.Option.Basic

/-!
# Reading records by name

What a field holds does not depend on the order of the members, nor on members with
other names. So a record that is arranged in any way has the fields it was filled
with, and one that is flawed has a field too often or lacks one that it must have.
-/

namespace ArgumentMap

theorem mapM_eq_some_iff {α β : Type} {f : α → Option β} {as : List α} {bs : List β} :
    as.mapM f = some bs ↔ List.Forall₂ (fun a b => f a = some b) as bs := by
  induction as generalizing bs with
  | nil => simp [eq_comm]
  | cons a as ih =>
    rw [List.mapM_cons, List.forall₂_cons_left_iff]
    constructor
    · intro h
      obtain ⟨b, hb, h⟩ := Option.bind_eq_some_iff.1 h
      obtain ⟨rest, hrest, h⟩ := Option.bind_eq_some_iff.1 h
      cases h
      exact ⟨b, rest, hb, ih.1 hrest, rfl⟩
    · rintro ⟨b, rest, hb, hrest, rfl⟩
      rw [hb, ih.2 hrest]
      rfl

theorem mapM_map_eq_some {α β γ : Type} {f : α → β} {g : β → Option γ} {h : α → γ} {as : List α}
    (hg : ∀ a ∈ as, g (f a) = some (h a)) : (as.map f).mapM g = some (as.map h) := by
  rw [mapM_eq_some_iff, List.forall₂_map_left_iff, List.forall₂_map_right_iff, List.forall₂_same]
  exact hg

theorem mapM_of_undone {α β : Type} {f : α → β} {g : β → Option α} (h : ∀ a, g (f a) = some a)
    (as : List α) : (as.map f).mapM g = some as := by
  rw [mapM_map_eq_some (h := id) fun a _ => h a, List.map_id]

theorem exists_forall₂ {α β : Type} {R : α → β → Prop} {as : List α}
    (h : ∀ a ∈ as, ∃ b, R a b) : ∃ bs, List.Forall₂ R as bs := by
  induction as with
  | nil => exact ⟨[], .nil⟩
  | cons a as ih =>
    obtain ⟨ha, has⟩ := List.forall_mem_cons.1 h
    obtain ⟨b, hb⟩ := ha
    obtain ⟨bs, hbs⟩ := ih has
    exact ⟨b :: bs, .cons hb hbs⟩

theorem exists_mem_zip {α β : Type} {R : α → β → Prop} {as : List α} {bs : List β}
    (h : List.Forall₂ R as bs) : ∀ a ∈ as, ∃ b, (a, b) ∈ as.zip bs ∧ R a b := by
  induction h with
  | nil => exact List.forall_mem_nil _
  | @cons a b as bs hab _ ih =>
    refine List.forall_mem_cons.2 ⟨⟨b, List.mem_cons_self, hab⟩, fun a' ha => ?_⟩
    obtain ⟨b', hmem, hR⟩ := ih a' ha
    exact ⟨b', List.mem_cons_of_mem _ hmem, hR⟩

namespace Json

variable {name : String} {names : List String} {v : Json} {members ms : List (String × Json)}

theorem members?_record (members : List (String × Json)) :
    (record members).members? = some members := by
  rw [record, members?]
  exact mapM_of_undone (f := fun m : String × Json => (some m.1, m.2)) (fun _ => rfl) members

theorem fields?_eq_mapM (names : List String) (members : List (String × Json)) :
    fields? names (record members) = names.mapM (field? members) := by
  have hmembers := members?_record members
  rw [record] at hmembers ⊢
  rw [fields?, hmembers, Option.bind_some]

theorem field?_of_perm (h : members.Perm ms) (name : String) :
    field? members name = field? ms name := by
  have hfound : (members.filter (·.1 = name)).Perm (ms.filter (·.1 = name)) := h.filter _
  rw [field?, field?]
  generalize members.filter (·.1 = name) = as at hfound
  generalize ms.filter (·.1 = name) = bs at hfound
  match bs with
  | [] => rw [hfound.eq_nil]
  | [m] => rw [List.perm_singleton.1 hfound]
  | _ :: _ :: _ =>
    match as with
    | [] | [_] => simp at hfound
    | _ :: _ :: _ => rfl

theorem filter_of_unknown (h : name ∉ members.map (·.1)) :
    members.filter (·.1 = name) = [] :=
  List.filter_eq_nil_iff.2 fun m hm => by simpa using fun he => h (List.mem_map.2 ⟨m, hm, he⟩)

theorem field?_append_of_unknown (h : name ∉ ms.map (·.1)) :
    field? (members ++ ms) name = field? members name := by
  rw [field?, field?, List.filter_append, filter_of_unknown h, List.append_nil]

theorem field?_cons_of_ne {m : String × Json} (h : m.1 ≠ name) :
    field? (m :: members) name = field? members name := by
  rw [field?, field?, List.filter_cons_of_neg (by simpa using h)]

theorem field?_of_unknown (h : name ∉ members.map (·.1)) :
    field? members name = some none := by
  rw [field?, filter_of_unknown h]

theorem field?_cons_self {w : Json} (h : name ∉ members.map (·.1)) :
    field? ((name, w) :: members) name = some (some w) := by
  rw [field?, List.filter_cons_of_pos (by simp), filter_of_unknown h]

theorem field?_of_mem (hn : (members.map (·.1)).Nodup) {m : String × Json} (hm : m ∈ members) :
    field? members m.1 = some (some m.2) := by
  induction members with
  | nil => cases hm
  | cons d rest ih =>
    obtain ⟨hnew, hn⟩ := List.nodup_cons.1 hn
    rcases List.mem_cons.1 hm with rfl | hm
    · exact field?_cons_self hnew
    · have hne : d.1 ≠ m.1 := fun he => hnew (List.mem_map.2 ⟨m, hm, he.symm⟩)
      rw [field?_cons_of_ne hne, ih hn hm]

theorem fields?_record (hnames : members.map (·.1) = names) (hn : names.Nodup) :
    fields? names (record members) = some (members.map fun m => some m.2) := by
  rw [fields?_eq_mapM, ← hnames]
  exact mapM_map_eq_some fun m hm => field?_of_mem (by rwa [hnames]) hm

/-- What was read for a field: a value that it may be given, or nothing if it may be left out. -/
def Field.Fits (f : Field) : Option Json → Prop
  | some v => f.Holds v
  | none => f.Omissible

theorem Filled.names_subset {fields : List Field} (h : Filled fields members) :
    members.map (·.1) ⊆ fields.map (·.name) := by
  induction h with
  | nil => exact List.Subset.refl _
  | given _ _ ih => exact List.cons_subset_cons _ ih
  | omitted _ _ ih => exact List.subset_cons_of_subset _ ih

theorem Filled.fits {fields : List Field} (h : Filled fields members)
    (hn : (fields.map (·.name)).Nodup) :
    ∀ f ∈ fields, ∃ o, field? members f.name = some o ∧ f.Fits o := by
  induction h with
  | nil => exact List.forall_mem_nil _
  | @given f fields v members hv hmembers ih =>
    obtain ⟨hnew, hn⟩ := List.nodup_cons.1 hn
    refine List.forall_mem_cons.2 ⟨⟨some v, ?_, hv⟩, fun d hd => ?_⟩
    · exact field?_cons_self fun h => hnew (hmembers.names_subset h)
    · have hne : f.name ≠ d.name := fun he => hnew (List.mem_map.2 ⟨d, hd, he.symm⟩)
      rw [field?_cons_of_ne hne]
      exact ih hn d hd
  | @omitted f fields members hf hmembers ih =>
    obtain ⟨hnew, hn⟩ := List.nodup_cons.1 hn
    refine List.forall_mem_cons.2 ⟨⟨none, ?_, hf⟩, ih hn⟩
    exact field?_of_unknown fun h => hnew (hmembers.names_subset h)

theorem Filled.arranged {fields : List Field} (h : Filled fields members) :
    Arranged fields (record members) :=
  ⟨members, [], members, h, List.forall_mem_nil _, by rw [List.append_nil], rfl⟩

theorem Arranged.fields? {fields : List Field} (h : Arranged fields v)
    (hn : (fields.map (·.name)).Nodup) :
    ∃ os, v.fields? (fields.map (·.name)) = some os ∧ List.Forall₂ Field.Fits fields os := by
  obtain ⟨known, others, members, hknown, hothers, hperm, rfl⟩ := h
  have hfits : ∀ f ∈ fields, ∃ o, field? members f.name = some o ∧ f.Fits o := by
    intro f hf
    rw [field?_of_perm hperm, field?_append_of_unknown]
    · exact hknown.fits hn f hf
    · intro hname
      obtain ⟨m, hm, he⟩ := List.mem_map.1 hname
      exact hothers m hm (he ▸ List.mem_map_of_mem hf)
  obtain ⟨os, hos⟩ := exists_forall₂ hfits
  refine ⟨os, ?_, hos.imp fun _ _ h => h.2⟩
  rw [fields?_eq_mapM, mapM_eq_some_iff, List.forall₂_map_left_iff]
  exact hos.imp fun _ _ h => h.1

section
variable {α : Type} {read : Json → Option α} {f : Field} {o : Option Json} {a d : α}

theorem required_of_fits (h : f.Fits o) (hread : ∀ v, f.Holds v → read v = some a)
    (hgiven : ¬ f.Omissible) : required read o = some a := by
  cases o with
  | none => exact absurd h hgiven
  | some v => exact hread v h

theorem withDefault_of_fits (h : f.Fits o) (hread : ∀ v, f.Holds v → read v = some a)
    (hdefault : f.Omissible → a = d) : withDefault d read o = some a := by
  cases o with
  | none => rw [withDefault, hdefault h]
  | some v => exact hread v h

end

theorem ne_none_of_required {α : Type} {read : Json → Option α} {o : Option Json} {a : α}
    (h : required read o = some a) : o ≠ none := by
  rintro rfl
  cases h

theorem exists_of_members? {members : List (Option String × Json)}
    (h : (object members).members? = some ms) : members = ms.map fun m => (some m.1, m.2) := by
  rw [members?, mapM_eq_some_iff] at h
  induction h with
  | nil => rfl
  | cons hm _ ih =>
    obtain ⟨name, hname, rfl⟩ := Option.map_eq_some_iff.1 hm
    rw [List.map_cons, ← ih, ← hname]

theorem exists_of_fields? {members : List (Option String × Json)} {os : List (Option Json)}
    (h : (object members).fields? names = some os) :
    ∃ ms, members = ms.map (fun m => (some m.1, m.2)) ∧
      List.Forall₂ (fun name o => field? ms name = some o) names os := by
  obtain ⟨ms, hms, h⟩ := Option.bind_eq_some_iff.1 h
  exact ⟨ms, exists_of_members? hms, mapM_eq_some_iff.1 h⟩

theorem eq_of_field? {o : Option Json} (h : field? ms name = some o) {w : Json}
    (hm : (name, w) ∈ ms) : o = some w := by
  have hmem : (name, w) ∈ ms.filter (·.1 = name) := List.mem_filter.2 ⟨hm, by simp⟩
  rw [field?] at h
  split at h
  · next hnone => simp [hnone] at hmem
  · next m hone =>
    rw [hone, List.mem_singleton] at hmem
    cases h
    rw [← hmem]
  · cases h

theorem mem_zip_of_fields? {members : List (Option String × Json)} {os : List (Option Json)}
    (h : (object members).fields? names = some os) (hname : name ∈ names) {w : Json}
    (hm : (some name, w) ∈ members) : (name, some w) ∈ names.zip os := by
  obtain ⟨ms, rfl, hos⟩ := exists_of_fields? h
  obtain ⟨o, hmem, ho⟩ := exists_mem_zip hos name hname
  obtain ⟨m, hms, heq⟩ := List.mem_map.1 hm
  cases heq
  rwa [eq_of_field? ho hms] at hmem

theorem count_le_of_field? {o : Option Json} (h : field? ms name = some o) :
    (ms.map (·.1)).count name ≤ 1 := by
  have hcount : (ms.map (·.1)).count name = (ms.filter (·.1 = name)).length := by
    rw [List.count, List.countP_map, List.countP_eq_length_filter]
    exact congrArg List.length (List.filter_congr fun _ _ => rfl)
  rw [field?] at h
  rw [hcount]
  split at h
  · next hnone => simp [hnone]
  · next hone => simp [hone]
  · cases h

theorem not_flawed {required : List String} {os : List (Option Json)}
    (h : v.fields? names = some os) (hsub : required ⊆ names)
    (hgiven : ∀ name ∈ required, (name, none) ∉ names.zip os) : ¬ Flawed names required v := by
  rintro ⟨members, rfl, hflaw⟩
  obtain ⟨ms, rfl, hos⟩ := exists_of_fields? h
  have hnames : (ms.map fun m => (some m.1, m.2)).map (·.1) = (ms.map (·.1)).map some := by
    simp
  rw [hnames] at hflaw
  rcases hflaw with ⟨name, hname, hcount⟩ | ⟨name, hname, hmissing⟩
  · obtain ⟨o, -, ho⟩ := exists_mem_zip hos name hname
    rw [List.count_map_of_injective _ some (Option.some_injective _)] at hcount
    exact absurd (count_le_of_field? ho) (Nat.not_le.2 hcount)
  · obtain ⟨o, hmem, ho⟩ := exists_mem_zip hos name (hsub hname)
    rw [List.mem_map_of_injective (Option.some_injective _)] at hmissing
    rw [field?_of_unknown hmissing] at ho
    cases ho
    exact hgiven name hname hmem

end Json

end ArgumentMap
