import ArgumentMap.Event

/-! Edits of a state that announce events and may fail. A failing edit keeps what it changed and
announced before it failed. -/

namespace ArgumentMap

structure Outcome (σ α : Type) where
  state : σ
  events : List Event
  result : Except Failure α

def Edit (σ α : Type) := σ → Outcome σ α

namespace Edit

variable {σ τ α β : Type}

def pure (a : α) : Edit σ α := fun s => ⟨s, [], .ok a⟩

/-- The second edit starts from the state that the first one leaves, unless that one failed. -/
def bind (m : Edit σ α) (f : α → Edit σ β) : Edit σ β := fun s =>
  let first := m s
  match first.result with
  | .error e => ⟨first.state, first.events, .error e⟩
  | .ok a =>
    let second := f a first.state
    ⟨second.state, first.events ++ second.events, second.result⟩

instance : Monad (Edit σ) where
  pure := pure
  bind := bind

def view (f : σ → α) : Edit σ α := fun s => ⟨s, [], .ok (f s)⟩

def change (f : σ → σ) : Edit σ Unit := fun s => ⟨f s, [], .ok ()⟩

def announce (event : Event) : Edit σ Unit := fun s => ⟨s, [event], .ok ()⟩

def ask (f : σ → Except Failure α) : Edit σ α := fun s => ⟨s, [], f s⟩

/-- A step that gives an answer and a new state together, or fails and changes nothing. -/
def attempt (f : σ → Except Failure (α × σ)) : Edit σ α := fun s =>
  match f s with
  | .ok (a, s') => ⟨s', [], .ok a⟩
  | .error e => ⟨s, [], .error e⟩

def zoom (get : σ → τ) (put : τ → σ → σ) (m : Edit τ α) : Edit σ α := fun s =>
  let part := m (get s)
  ⟨put part.state s, part.events, part.result⟩

variable (s : σ)

@[simp] theorem pure_apply (a : α) : (Pure.pure a : Edit σ α) s = ⟨s, [], .ok a⟩ := rfl

@[simp] theorem pure_bind_apply (a : α) (f : α → Edit σ β) :
    ((Pure.pure a : Edit σ α) >>= f) s = f a s := rfl

@[simp] theorem view_bind_apply (g : σ → α) (f : α → Edit σ β) :
    (view g >>= f) s = f (g s) s := rfl

@[simp] theorem change_bind_apply (g : σ → σ) (f : Unit → Edit σ β) :
    (change g >>= f) s = f () (g s) := rfl

@[simp] theorem announce_bind_apply (event : Event) (f : Unit → Edit σ β) :
    (announce event >>= f) s =
      ⟨(f () s).state, event :: (f () s).events, (f () s).result⟩ := rfl

theorem bind_apply_of_ok {m : Edit σ α} {f : α → Edit σ β} {a : α} (h : (m s).result = .ok a) :
    (m >>= f) s = ⟨(f a (m s).state).state, (m s).events ++ (f a (m s).state).events,
      (f a (m s).state).result⟩ := by
  show bind m f s = _
  simp only [bind, h]

theorem bind_apply_of_error {m : Edit σ α} {f : α → Edit σ β} {e : Failure}
    (h : (m s).result = .error e) : (m >>= f) s = ⟨(m s).state, (m s).events, .error e⟩ := by
  show bind m f s = _
  simp only [bind, h]

theorem bind_pure_apply (m : Edit σ α) (f : α → β) :
    (m >>= fun a => (Pure.pure (f a) : Edit σ β)) s =
      ⟨(m s).state, (m s).events, (m s).result.map f⟩ := by
  cases h : (m s).result with
  | error e =>
    rw [bind_apply_of_error s h]
    rfl
  | ok a =>
    rw [bind_apply_of_ok s h]
    simp [Except.map]

theorem ask_bind_apply_of_ok {g : σ → Except Failure α} {f : α → Edit σ β} {a : α}
    (h : g s = .ok a) : (ask g >>= f) s = f a s := by
  rw [bind_apply_of_ok s (a := a) h]
  rfl

theorem ask_bind_apply_of_error {g : σ → Except Failure α} {f : α → Edit σ β} {e : Failure}
    (h : g s = .error e) : (ask g >>= f) s = ⟨s, [], .error e⟩ :=
  bind_apply_of_error s h

theorem attempt_bind_apply_of_ok {g : σ → Except Failure (α × σ)} {f : α → Edit σ β} {a : α}
    {t : σ} (h : g s = .ok (a, t)) : (attempt g >>= f) s = f a t := by
  have ha : attempt g s = ⟨t, [], .ok a⟩ := by simp only [attempt, h]
  rw [bind_apply_of_ok s (a := a) (by rw [ha]), ha]
  rfl

theorem attempt_bind_apply_of_error {g : σ → Except Failure (α × σ)} {f : α → Edit σ β}
    {e : Failure} (h : g s = .error e) : (attempt g >>= f) s = ⟨s, [], .error e⟩ := by
  have ha : attempt g s = ⟨s, [], .error e⟩ := by simp only [attempt, h]
  rw [bind_apply_of_error s (e := e) (by rw [ha]), ha]

end Edit

end ArgumentMap
