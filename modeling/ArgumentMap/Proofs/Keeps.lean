import ArgumentMap.Edit

/-!
# Edits that keep a property

A property of the state survives an edit, also one that fails, if it survives
each of the edits it is made of. In the same way an edit announces no more than
these do.
-/

namespace ArgumentMap.Edit

/-- A property of edits that holds of whatever is made of edits that have it. -/
structure Composable {σ : Type} (Q : {α : Type} → Edit σ α → Prop) : Prop where
  pure : ∀ {α : Type} (a : α), Q (Pure.pure a : Edit σ α)
  bind : ∀ {α β : Type} {m : Edit σ α} {f : α → Edit σ β}, Q m → (∀ a, Q (f a)) → Q (m >>= f)
  view : ∀ {α : Type} (f : σ → α), Q (Edit.view f)
  ask : ∀ {α : Type} (f : σ → Except Failure α), Q (Edit.ask f)

variable {σ τ α β : Type} {P : σ → Prop}

def Keeps (P : σ → Prop) (m : Edit σ α) : Prop := ∀ s, P s → P (m s).state

namespace Keeps

theorem pure (a : α) : Keeps P (Pure.pure a : Edit σ α) := fun _ hs => hs

theorem bind {m : Edit σ α} {f : α → Edit σ β} (hm : Keeps P m) (hf : ∀ a, Keeps P (f a)) :
    Keeps P (m >>= f) := by
  intro s hs
  have hfirst := hm s hs
  cases hr : (m s).result with
  | error e =>
    rw [bind_apply_of_error s hr]
    exact hfirst
  | ok a =>
    rw [bind_apply_of_ok s hr]
    exact hf a (m s).state hfirst

theorem map {m : Edit σ α} (hm : Keeps P m) (f : α → β) : Keeps P (f <$> m) :=
  bind hm fun a => pure (f a)

theorem view (f : σ → α) : Keeps P (Edit.view f) := fun _ hs => hs

theorem ask (f : σ → Except Failure α) : Keeps P (Edit.ask f) := fun _ hs => hs

theorem composable (P : σ → Prop) : Composable (Keeps P) := ⟨pure, bind, view, ask⟩

theorem announce (event : Event) : Keeps P (Edit.announce event) := fun _ hs => hs

theorem change {f : σ → σ} (hf : ∀ s, P s → P (f s)) : Keeps P (Edit.change f) := hf

theorem attempt {f : σ → Except Failure (α × σ)} (hf : ∀ s a t, P s → f s = .ok (a, t) → P t) :
    Keeps P (Edit.attempt f) := by
  intro s hs
  rw [Edit.attempt]
  cases hr : f s with
  | error e => exact hs
  | ok r => exact hf s r.1 r.2 hs hr

theorem attempt_unit {f : σ → Except Failure σ} (hf : ∀ s t, P s → f s = .ok t → P t) :
    Keeps P (Edit.attempt fun s => (f s).map ((), ·)) := by
  refine .attempt fun s a t hs ht => ?_
  cases hr : f s with
  | error e => simp [hr, Except.map] at ht
  | ok t' =>
    rw [hr] at ht
    cases ht
    exact hf s t hs hr

theorem zoom {get : σ → τ} {put : τ → σ → σ} {Q : τ → Prop} {m : Edit τ α}
    (hget : ∀ s t, get (put t s) = t) (hm : Keeps Q m) :
    Keeps (fun s => Q (get s)) (Edit.zoom get put m) := by
  intro s hs
  have hpart := hm (get s) hs
  rw [Edit.zoom, hget]
  exact hpart

end Keeps

def Announces (K : Event → Prop) (m : Edit σ α) : Prop := ∀ s, ∀ e ∈ (m s).events, K e

namespace Announces

variable {K : Event → Prop}

theorem silent {m : Edit σ α} (h : ∀ s, (m s).events = []) : Announces K m := by
  intro s e he
  rw [h] at he
  cases he

theorem bind {m : Edit σ α} {f : α → Edit σ β} (hm : Announces K m)
    (hf : ∀ a, Announces K (f a)) : Announces K (m >>= f) := by
  intro s
  cases hr : (m s).result with
  | error e =>
    rw [bind_apply_of_error s hr]
    exact hm s
  | ok a =>
    rw [bind_apply_of_ok s hr]
    exact List.forall_mem_append.2 ⟨hm s, hf a (m s).state⟩

theorem pure (a : α) : Announces K (Pure.pure a : Edit σ α) := silent fun _ => rfl

theorem view (f : σ → α) : Announces K (Edit.view f) := silent fun _ => rfl

theorem ask (f : σ → Except Failure α) : Announces K (Edit.ask f) := silent fun _ => rfl

theorem composable (K : Event → Prop) :
    Composable fun {α : Type} (m : Edit σ α) => Announces K m := ⟨pure, bind, view, ask⟩

theorem change (f : σ → σ) : Announces K (Edit.change f) := silent fun _ => rfl

theorem attempt (f : σ → Except Failure (α × σ)) : Announces K (Edit.attempt f) := by
  apply silent
  intro s
  rw [Edit.attempt]
  cases f s <;> rfl

theorem announce {event : Event} (h : K event) : Announces K (Edit.announce event : Edit σ Unit) :=
  fun _ => List.forall_mem_singleton.2 h

end Announces

end ArgumentMap.Edit
