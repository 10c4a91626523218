import Polyadic.Attempt.Event
import Polyadic.Failure

/-! # Attempts

An attempt ends in a value or a failure and keeps the events on the way there, also those before a
failure.  One attempt after another (`>>=`) has the events of both, in order; after a failure
nothing more happens. -/

namespace Polyadic

/-- A computation that may fail, with the events on its way. -/
structure Attempt (α : Type) where
  events : List Event
  result : Except Failure α

namespace Attempt

variable {α β γ : Type}

@[ext] theorem ext {x y : Attempt α} (events : x.events = y.events) (result : x.result = y.result) :
    x = y := by
  cases x; cases y; simp_all

/-- A value without events. -/
protected def pure (a : α) : Attempt α := ⟨[], .ok a⟩

/-- Goes on from the value of an attempt, if it has one. -/
protected def bind (x : Attempt α) (f : α → Attempt β) : Attempt β :=
  match x.result with
  | .ok a => ⟨x.events ++ (f a).events, (f a).result⟩
  | .error e => ⟨x.events, .error e⟩

instance : Monad Attempt where
  pure := Attempt.pure
  bind := Attempt.bind

/-- Nothing but an event. -/
def log (e : Event) : Attempt Unit := ⟨[e], .ok ()⟩

/-- Ends in a failure at the present position. -/
def fail (cause : Cause) : Attempt α := ⟨[], .error ⟨cause, []⟩⟩

/-- A result without events. -/
def ofExcept (x : Except Failure α) : Attempt α := ⟨[], x⟩

/-- The same result without its events. -/
def silent (x : Attempt α) : Attempt α := ofExcept x.result

/-- An attempt on a part, seen from one step further out. -/
def under (segment : Segment) (x : Attempt α) : Attempt α :=
  ⟨x.events, within segment x.result⟩

/-- The same attempt with another account of why it failed. -/
def recast (f : Cause → Cause) (x : Attempt α) : Attempt α := ⟨x.events, Polyadic.recast f x.result⟩

/-! ### Laws -/

theorem pure_def (a : α) : (pure a : Attempt α) = ⟨[], .ok a⟩ := rfl

@[simp] theorem events_pure (a : α) : (pure a : Attempt α).events = [] := rfl

@[simp] theorem result_pure (a : α) : (pure a : Attempt α).result = .ok a := rfl

theorem bind_of_ok {x : Attempt α} {a : α} (h : x.result = .ok a) (f : α → Attempt β) :
    (x >>= f) = ⟨x.events ++ (f a).events, (f a).result⟩ := by
  change Attempt.bind x f = _
  simp [Attempt.bind, h]

theorem bind_of_error {x : Attempt α} {e : Failure} (h : x.result = .error e)
    (f : α → Attempt β) : (x >>= f) = ⟨x.events, .error e⟩ := by
  change Attempt.bind x f = _
  simp [Attempt.bind, h]

instance : LawfulMonad Attempt := LawfulMonad.mk' Attempt
  (by
    rintro α ⟨events, a | e⟩
    · rfl
    · exact Attempt.ext (List.append_nil _) rfl)
  (fun _ _ => rfl)
  (by
    rintro α β γ ⟨events, a | e⟩ f g
    · rfl
    · change Attempt.bind (Attempt.bind _ f) g = Attempt.bind _ fun a => Attempt.bind (f a) g
      cases h : (f e).result <;> simp [Attempt.bind, h])

/-- The result of one attempt after another. -/
theorem result_bind (x : Attempt α) (f : α → Attempt β) :
    (x >>= f).result = x.result >>= fun a => (f a).result := by
  cases h : x.result with
  | ok a => rw [bind_of_ok h]; rfl
  | error e => rw [bind_of_error h]; rfl

@[simp] theorem result_bind_eq_ok_iff {x : Attempt α} {f : α → Attempt β} {b : β} :
    (x >>= f).result = .ok b ↔ ∃ a, x.result = .ok a ∧ (f a).result = .ok b := by
  cases h : x.result with
  | ok a => rw [bind_of_ok h]; simp
  | error e => rw [bind_of_error h]; simp

@[simp] theorem result_map (f : α → β) (x : Attempt α) :
    (f <$> x).result = x.result.map f := by
  change (Attempt.bind x fun a => Attempt.pure (f a)).result = _
  cases h : x.result <;> simp [Attempt.bind, Attempt.pure, Except.map, h]

@[simp] theorem events_map (f : α → β) (x : Attempt α) : (f <$> x).events = x.events := by
  change (Attempt.bind x fun a => Attempt.pure (f a)).events = _
  cases h : x.result <;> simp [Attempt.bind, Attempt.pure, h]

@[simp] theorem result_bind_eq_error_iff {x : Attempt α} {f : α → Attempt β} {e : Failure} :
    (x >>= f).result = .error e ↔
      x.result = .error e ∨ ∃ a, x.result = .ok a ∧ (f a).result = .error e := by
  cases h : x.result with
  | ok a => rw [bind_of_ok h]; simp
  | error e => rw [bind_of_error h]; simp

@[simp] theorem result_log (e : Event) : (log e).result = .ok () := rfl

@[simp] theorem events_log (e : Event) : (log e).events = [e] := rfl

@[simp] theorem result_fail (cause : Cause) :
    (fail cause : Attempt α).result = .error ⟨cause, []⟩ := rfl

@[simp] theorem events_fail (cause : Cause) : (fail cause : Attempt α).events = [] := rfl

@[simp] theorem events_under (segment : Segment) (x : Attempt α) :
    (x.under segment).events = x.events := rfl

@[simp] theorem result_under (segment : Segment) (x : Attempt α) :
    (x.under segment).result = within segment x.result := rfl

@[simp] theorem events_recast (f : Cause → Cause) (x : Attempt α) :
    (x.recast f).events = x.events := rfl

@[simp] theorem result_recast (f : Cause → Cause) (x : Attempt α) :
    (x.recast f).result = Polyadic.recast f x.result := rfl

end Attempt

end Polyadic
