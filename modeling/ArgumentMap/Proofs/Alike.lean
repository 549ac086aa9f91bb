import ArgumentMap.Edit

/-!
# Edits that run alike

Two edits, each on states of its own, run alike if from related states they announce
the same and come to related states again, with related answers or with the same
failure. What is made of edits that run alike runs alike.
-/

namespace ArgumentMap

variable {σ τ υ φ α β γ δ : Type} {R : σ → τ → Prop} {A : α → β → Prop}

/-- Related answers, or the same failure. -/
inductive Agrees (A : α → β → Prop) : Except Failure α → Except Failure β → Prop where
  | ok {a : α} {b : β} : A a b → Agrees A (.ok a) (.ok b)
  | error (e : Failure) : Agrees A (.error e) (.error e)

theorem Agrees.eq {x y : Except Failure α} (h : Agrees Eq x y) : x = y := by
  cases h with
  | ok h => rw [h]
  | error e => rfl

theorem Agrees.mono {B : α → β → Prop} (hAB : ∀ a b, A a b → B a b) {x : Except Failure α}
    {y : Except Failure β} (h : Agrees A x y) : Agrees B x y := by
  cases h with
  | ok h => exact .ok (hAB _ _ h)
  | error e => exact .error e

theorem agrees_refl (x : Except Failure α) : Agrees Eq x x := by
  cases x with
  | ok a => exact .ok rfl
  | error e => exact .error e

structure Outcome.Alike (R : σ → τ → Prop) (A : α → β → Prop) (o : Outcome σ α)
    (o' : Outcome τ β) : Prop where
  state : R o.state o'.state
  events : o.events = o'.events
  result : Agrees A o.result o'.result

namespace Edit

def Alike (R : σ → τ → Prop) (A : α → β → Prop) (m : Edit σ α) (m' : Edit τ β) : Prop :=
  ∀ s t, R s t → (m s).Alike R A (m' t)

namespace Alike

theorem pure {a : α} {b : β} (h : A a b) :
    Alike R A (Pure.pure a : Edit σ α) (Pure.pure b : Edit τ β) :=
  fun _ _ hs => ⟨hs, rfl, .ok h⟩

theorem bind {B : γ → δ → Prop} {m : Edit σ α} {m' : Edit τ β} {f : α → Edit σ γ}
    {f' : β → Edit τ δ} (hm : Alike R A m m') (hf : ∀ a b, A a b → Alike R B (f a) (f' b)) :
    Alike R B (m >>= f) (m' >>= f') := by
  intro s t hs
  obtain ⟨hstate, hevents, hresult⟩ := hm s t hs
  generalize hr : (m s).result = x at hresult
  generalize hr' : (m' t).result = y at hresult
  cases hresult with
  | error e =>
    rw [bind_apply_of_error s hr, bind_apply_of_error t hr']
    exact ⟨hstate, hevents, .error e⟩
  | @ok a b hab =>
    rw [bind_apply_of_ok s hr, bind_apply_of_ok t hr']
    obtain ⟨hstate', hevents', hresult'⟩ := hf a b hab _ _ hstate
    exact ⟨hstate', by rw [hevents, hevents'], hresult'⟩

theorem bind_same {B : γ → δ → Prop} {m : Edit σ α} {m' : Edit τ α} {f : α → Edit σ γ}
    {f' : α → Edit τ δ} (hm : Alike R Eq m m') (hf : ∀ a, Alike R B (f a) (f' a)) :
    Alike R B (m >>= f) (m' >>= f') :=
  bind hm fun a _ hab => hab ▸ hf a

theorem map {m : Edit σ α} {m' : Edit τ α} (hm : Alike R Eq m m') (f : α → β) :
    Alike R Eq (f <$> m) (f <$> m') :=
  bind_same hm fun _ => pure rfl

theorem view {f : σ → α} {f' : τ → β} (h : ∀ s t, R s t → A (f s) (f' t)) :
    Alike R A (Edit.view f) (Edit.view f') :=
  fun s t hs => ⟨hs, rfl, .ok (h s t hs)⟩

theorem ask {f : σ → Except Failure α} {f' : τ → Except Failure β}
    (h : ∀ s t, R s t → Agrees A (f s) (f' t)) : Alike R A (Edit.ask f) (Edit.ask f') :=
  fun s t hs => ⟨hs, rfl, h s t hs⟩

theorem change {f : σ → σ} {f' : τ → τ} (h : ∀ s t, R s t → R (f s) (f' t)) :
    Alike R Eq (Edit.change f) (Edit.change f') :=
  fun s t hs => ⟨h s t hs, rfl, .ok rfl⟩

theorem announce (e : Event) :
    Alike R Eq (Edit.announce e : Edit σ Unit) (Edit.announce e : Edit τ Unit) :=
  fun _ _ hs => ⟨hs, rfl, .ok rfl⟩

theorem attempt {f : σ → Except Failure (α × σ)} {f' : τ → Except Failure (β × τ)}
    (h : ∀ s t, R s t → Agrees (fun a b => A a.1 b.1 ∧ R a.2 b.2) (f s) (f' t)) :
    Alike R A (Edit.attempt f) (Edit.attempt f') := by
  intro s t hs
  have hboth := h s t hs
  rw [Edit.attempt, Edit.attempt]
  generalize f s = x at hboth
  generalize f' t = y at hboth
  cases hboth with
  | ok hab => exact ⟨hab.2, rfl, .ok hab.1⟩
  | error e => exact ⟨hs, rfl, .error e⟩

theorem attempt_unit {f : σ → Except Failure σ} {f' : τ → Except Failure τ}
    (h : ∀ s t, R s t → Agrees R (f s) (f' t)) :
    Alike R Eq (Edit.attempt fun s => (f s).map ((), ·))
      (Edit.attempt fun t => (f' t).map ((), ·)) := by
  refine .attempt fun s t hs => ?_
  have hboth := h s t hs
  generalize f s = x at hboth
  generalize f' t = y at hboth
  cases hboth with
  | ok hr => exact .ok ⟨rfl, hr⟩
  | error e => exact .error e

theorem zoom {Q : υ → φ → Prop} {get : σ → υ} {put : υ → σ → σ} {get' : τ → φ}
    {put' : φ → τ → τ} {m : Edit υ α} {m' : Edit φ β}
    (hget : ∀ s t, R s t → Q (get s) (get' t))
    (hput : ∀ s t p q, R s t → Q p q → R (put p s) (put' q t)) (hm : Alike Q A m m') :
    Alike R A (Edit.zoom get put m) (Edit.zoom get' put' m') := by
  intro s t hs
  obtain ⟨hstate, hevents, hresult⟩ := hm _ _ (hget s t hs)
  exact ⟨hput s t _ _ hs hstate, hevents, hresult⟩

end Alike

end Edit

end ArgumentMap
