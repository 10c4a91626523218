import Polyadic.Matching.Assignment

/-! # Outcomes of an attempt

`x.Meets post exc` says how an attempt may end: with a value for which `post` holds, or with a
failure for which `exc` holds.  The rules below follow the ways in which attempts are put together,
so that what is said of a compound attempt comes down to what is said of its parts.  What happens on
the way to a value is said by `x.Yields Q a` in the same manner. -/

namespace Polyadic

section results

variable {ε α β : Type} {x : Except ε α} {f : α → Except ε β}

theorem except_bind_eq_ok_iff {b : β} :
    (x >>= f) = .ok b ↔ ∃ a, x = .ok a ∧ f a = .ok b := by
  cases x with
  | ok a =>
    change f a = .ok b ↔ _
    simp
  | error e =>
    change Except.error e = .ok b ↔ _
    simp

/-- A computation goes through if both of its parts do. -/
theorem exists_except_bind_iff :
    (∃ c, (x >>= f) = .ok c) ↔ ∃ a, x = .ok a ∧ ∃ c, f a = .ok c := by
  simp only [except_bind_eq_ok_iff]
  exact ⟨fun ⟨c, a, ha, hc⟩ => ⟨a, ha, c, hc⟩, fun ⟨a, ha, c, hc⟩ => ⟨c, a, ha, hc⟩⟩

end results

section fails

variable {α β : Type} {Q : Failure → Prop}

/-- If a computation fails, then as `Q` says. -/
def FailsWith (Q : Failure → Prop) (x : Except Failure α) : Prop := ∀ e, x = .error e → Q e

theorem failsWith_ok (a : α) : FailsWith Q (.ok a) := nofun

theorem FailsWith.bind {x : Except Failure α} {f : α → Except Failure β} (hx : FailsWith Q x)
    (hf : ∀ a, FailsWith Q (f a)) : FailsWith Q (x >>= f) := by
  intro e he
  cases x with
  | ok a => exact hf a e he
  | error e' =>
    cases he
    exact hx e rfl

theorem FailsWith.within {segment : Segment} {x : Except Failure α}
    (hx : FailsWith (fun e => Q (e.under segment)) x) : FailsWith Q (within segment x) := by
  intro e he
  obtain ⟨e', he', rfl⟩ := within_eq_error_iff.1 he
  exact hx e' he'

theorem FailsWith.mono {Q' : Failure → Prop} {x : Except Failure α} (hx : FailsWith Q x)
    (h : ∀ e, Q e → Q' e) : FailsWith Q' x := fun e he => h e (hx e he)

end fails

namespace Attempt

variable {α β : Type}

/-- An attempt ends in a value as `post` says or in a failure as `exc` says. -/
def Meets (x : Attempt α) (post : α → Prop) (exc : Failure → Prop) : Prop :=
  match x.result with
  | .ok a => post a
  | .error e => exc e

theorem result_bind_of_ok {x : Attempt α} {a : α} (h : x.result = .ok a) (f : α → Attempt β) :
    (x >>= f).result = (f a).result := by rw [bind_of_ok h]

section rules

variable {x : Attempt α} {post post' : α → Prop} {exc exc' : Failure → Prop}

theorem meets_iff : x.Meets post exc ↔
    (∀ a, x.result = .ok a → post a) ∧ ∀ e, x.result = .error e → exc e := by
  unfold Meets
  cases x.result <;> simp

theorem Meets.of_ok (h : x.Meets post exc) {a : α} (ha : x.result = .ok a) : post a :=
  (meets_iff.1 h).1 a ha

theorem Meets.of_error (h : x.Meets post exc) {e : Failure} (he : x.result = .error e) : exc e :=
  (meets_iff.1 h).2 e he

theorem Meets.mono (h : x.Meets post exc) (hpost : ∀ a, post a → post' a)
    (hexc : ∀ e, exc e → exc' e) : x.Meets post' exc' := by
  rw [meets_iff]
  constructor
  · intro a ha
    exact hpost a (h.of_ok ha)
  · intro e he
    exact hexc e (h.of_error he)

theorem Meets.imp (h : x.Meets post exc) (hpost : ∀ a, post a → post' a) : x.Meets post' exc :=
  h.mono hpost fun _ he => he

/-- What is known of a value in two ways holds together. -/
theorem Meets.and (h : x.Meets post exc) (h' : x.Meets post' exc') :
    x.Meets (fun a => post a ∧ post' a) (fun e => exc e ∧ exc' e) := by
  rw [meets_iff]
  constructor
  · intro a ha
    exact ⟨h.of_ok ha, h'.of_ok ha⟩
  · intro e he
    exact ⟨h.of_error he, h'.of_error he⟩

@[simp] theorem meets_pure {a : α} : (pure a : Attempt α).Meets post exc ↔ post a := Iff.rfl

@[simp] theorem meets_fail {cause : Cause} :
    (fail cause : Attempt α).Meets post exc ↔ exc ⟨cause, []⟩ := Iff.rfl

@[simp] theorem meets_mismatch {expected actual : TypeExpr} :
    (mismatch expected actual : Attempt α).Meets post exc ↔ exc ⟨.mismatch expected actual, []⟩ :=
  Iff.rfl

theorem meets_bind {post : β → Prop} {f : α → Attempt β} :
    (x >>= f).Meets post exc ↔ x.Meets (fun a => (f a).Meets post exc) exc := by
  unfold Meets
  cases h : x.result with
  | ok a => rw [bind_of_ok h]
  | error e => rw [bind_of_error h]

/-- What follows an attempt counts for the values only that it may end in. -/
theorem Meets.bind_congr {f g : α → Attempt β} (h : x.Meets post exc)
    (hfg : ∀ a, post a → f a = g a) : (x >>= f) = x >>= g := by
  cases hx : x.result with
  | ok a => rw [bind_of_ok hx, bind_of_ok hx, hfg a (h.of_ok hx)]
  | error e => rw [bind_of_error hx, bind_of_error hx]

@[simp] theorem meets_map {post : β → Prop} {f : α → β} :
    (f <$> x).Meets post exc ↔ x.Meets (fun a => post (f a)) exc := by
  unfold Meets
  rw [result_map]
  cases x.result <;> simp [Except.map]

@[simp] theorem meets_log {e : Event} {post : Unit → Prop} :
    (log e).Meets post exc ↔ post () := Iff.rfl

@[simp] theorem meets_under {segment : Segment} :
    (x.under segment).Meets post exc ↔ x.Meets post fun e => exc (e.under segment) := by
  unfold Meets
  rw [result_under]
  cases x.result <;> simp [within]

@[simp] theorem meets_recast {f : Cause → Cause} :
    (x.recast f).Meets post exc ↔ x.Meets post fun e => exc ⟨f e.cause, e.path⟩ := by
  unfold Meets
  rw [result_recast]
  cases x.result <;> simp [Polyadic.recast]

end rules

/-! ### Events on the way to a value -/

/-- An attempt ends in a value, and `Q` holds for every event on its way. -/
def Yields (Q : Event → Prop) (x : Attempt α) (a : α) : Prop :=
  x.result = .ok a ∧ ∀ e ∈ x.events, Q e

section yields

variable {Q : Event → Prop} {x : Attempt α}

theorem yields_true_iff {a : α} : x.Yields (fun _ => True) a ↔ x.result = .ok a := by
  simp [Yields]

@[simp] theorem yields_pure {a b : α} : (pure a : Attempt α).Yields Q b ↔ b = a := by
  simp [Yields, eq_comm]

@[simp] theorem yields_log {e : Event} {u : Unit} : (log e).Yields Q u ↔ Q e := by
  simp [Yields]

@[simp] theorem yields_fail {cause : Cause} {a : α} : ¬(fail cause : Attempt α).Yields Q a := by
  simp [Yields]

@[simp] theorem yields_ofExcept {r : Except Failure α} {a : α} :
    (ofExcept r).Yields Q a ↔ r = .ok a := by
  simp [Yields, ofExcept]

theorem yields_bind {f : α → Attempt β} {b : β} :
    (x >>= f).Yields Q b ↔ ∃ a, x.Yields Q a ∧ (f a).Yields Q b := by
  cases h : x.result with
  | ok a =>
    rw [bind_of_ok h]
    simp only [Yields, h, Except.ok.injEq, List.mem_append, or_imp, forall_and]
    constructor
    · rintro ⟨hb, hx, hf⟩
      exact ⟨a, ⟨rfl, hx⟩, hb, hf⟩
    · rintro ⟨_, ⟨rfl, hx⟩, hb, hf⟩
      exact ⟨hb, hx, hf⟩
  | error e =>
    rw [bind_of_error h]
    simp [Yields, h]

end yields

end Attempt

end Polyadic
