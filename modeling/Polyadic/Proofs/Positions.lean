import Polyadic.Matching.Call
import Polyadic.Proofs.Values

/-! # Positions

A match is told where its arguments stand, and reads nothing off it: neither what it returns nor the
cause of a failure depends on the positions (`verdict_unifyEach`, `rowValue_eq_of_types`).  They
come back in the path of a failure.  A failure of a row concerns the row as a whole or is inside one
of its arguments (`atRow_of_matchList`), and one that a keyword causes is inside that keyword
(`inKeyword_of_solveKeywords`, `inKeyword_of_collectKeywords`). -/

namespace Polyadic

open Attempt

/-! ### Causes -/

namespace Attempt

variable {α β : Type}

/-- How an attempt ends, without the position of a failure. -/
def verdict (x : Attempt α) : Except Cause α := x.result.mapError Failure.cause

theorem verdict_of_ok {x : Attempt α} {a : α} (h : x.result = .ok a) : x.verdict = .ok a := by
  rw [verdict, h]
  rfl

theorem verdict_of_error {x : Attempt α} {e : Failure} (h : x.result = .error e) :
    x.verdict = .error e.cause := by
  rw [verdict, h]
  rfl

theorem verdict_eq_ok_iff {x : Attempt α} {a : α} : x.verdict = .ok a ↔ x.result = .ok a := by
  cases h : x.result with
  | ok b => simp [verdict_of_ok h]
  | error e => simp [verdict_of_error h]

theorem exists_of_verdict_error {x : Attempt α} {cause : Cause} (h : x.verdict = .error cause) :
    ∃ e, x.result = .error e ∧ e.cause = cause := by
  cases hx : x.result with
  | ok a =>
    rw [verdict_of_ok hx] at h
    cases h
  | error e =>
    rw [verdict_of_error hx] at h
    exact ⟨e, rfl, Except.error.inj h⟩

theorem verdict_bind (x : Attempt α) (f : α → Attempt β) :
    (x >>= f).verdict = x.verdict >>= fun a => (f a).verdict := by
  cases h : x.result with
  | ok a =>
    rw [verdict_of_ok h, bind_of_ok h]
    rfl
  | error e =>
    rw [verdict_of_error h, bind_of_error h]
    rfl

@[simp] theorem verdict_under (segment : Segment) (x : Attempt α) :
    (x.under segment).verdict = x.verdict := by
  unfold verdict
  rw [result_under]
  cases x.result <;> rfl

end Attempt

/-- Pairs of types are matched alike wherever they stand. -/
theorem verdict_unifyEach {u : Unifier} (place place' : Nat → Segment) (i j : Nat)
    (formals actuals : List TypeExpr) (b : Binding) :
    (unifyEach u place i formals actuals b).verdict =
      (unifyEach u place' j formals actuals b).verdict := by
  induction formals generalizing i j actuals b with
  | nil => simp [unifyEach]
  | cons f fs ih =>
    cases actuals with
    | nil => simp [unifyEach]
    | cons a as =>
      rw [unifyEach, unifyEach, verdict_bind, verdict_bind, verdict_under, verdict_under]
      congr
      funext b
      exact ih _ _ as b

/-! ### Values -/

section values

variable {place place' : Nat → Segment} {side : Side} {slots : List Slot} {run run' : Run}
  {b : Binding}

theorem value?_stripEach_eq {ctor : TypeExpr} {ts : TupleVar} (i j : Nat) (types : List TypeExpr)
    (b : Binding) :
    (stripEach unify place ctor ts i types b).value? =
      (stripEach unify place' ctor ts j types b).value? := by
  induction types generalizing i j b with
  | nil => rfl
  | cons t types ih =>
    simp only [stripEach, value?_bind, value?_under]
    congr
    funext b
    exact ih _ _ b

theorem value?_matchSlot_eq (place place' : Nat → Segment) (slot : Slot)
    (h : run.types = run'.types) :
    (matchSlot unify place slot run b).value? = (matchSlot unify place' slot run' b).value? := by
  cases slot with
  | single f => rw [value?_matchSlot_single, value?_matchSlot_single, h]
  | spread ts => rw [value?_matchSlot_spread, value?_matchSlot_spread, h]
  | mapped ctor ts =>
    cases hts : b.tuple? ts with
    | some contents => rw [value?_matchSlot_known hts, value?_matchSlot_known hts, h]
    | none =>
      rw [value?_matchSlot_open hts, value?_matchSlot_open hts, h, value?_stripEach_eq]

/-- What a row returns depends on the types of its arguments, and not on where they stand. -/
theorem rowValue_eq_of_types (h : run.types = run'.types) :
    rowValue place ⟨side, slots, run, b⟩ = rowValue place' ⟨side, slots, run', b⟩ := by
  induction hn : slots.length generalizing side slots run run' b with
  | zero =>
    obtain rfl := List.eq_nil_of_length_eq_zero hn
    rw [rowValue_nil, rowValue_nil, h]
  | succ n ih =>
    have hlength : run.length = run'.length := by rw [Run.length, Run.length, h]
    have hfirst (k : Nat) : (run.first k).types = (run'.first k).types := by
      rw [Run.first, Run.first, h]
    have hafter (k : Nat) : (run.after k).types = (run'.after k).types := by
      rw [Run.after, Run.after, h]
    cases hm : nextMove (fun s => !s.isOpen b) side slots with
    | done =>
      rw [nextMove_eq_done hm] at hn
      cases hn
    | front slot rest =>
      rw [(nextMove_eq_front hm).1, List.length_cons, Nat.add_right_cancel_iff] at hn
      rw [rowValue_front hm, rowValue_front hm]
      simp only [hlength, value?_matchSlot_eq place place' slot (hfirst _),
        ih (hafter _) hn]
    | back rest slot =>
      rw [(nextMove_eq_back hm).1, List.length_append, List.length_singleton,
        Nat.add_right_cancel_iff] at hn
      rw [rowValue_back hm, rowValue_back hm]
      simp only [hlength, value?_matchSlot_eq place place' slot (hafter _),
        ih (hfirst _) hn]
    | stuck slot rest =>
      rw [(nextMove_eq_stuck hm).1, List.length_cons, Nat.add_right_cancel_iff] at hn
      rw [rowValue_stuck hm, rowValue_stuck hm, value?_evenShare, value?_evenShare]
      simp only [hlength, value?_matchSlot_eq place place' slot (hfirst _),
        ih (hafter _) hn]

theorem value?_matchList_eq (place place' : Nat → Segment) (slots : List Slot)
    (arguments : List TypeExpr) (b : Binding) :
    (matchList unify place slots arguments b).value? =
      (matchList unify place' slots arguments b).value? := by
  have hrow : rowValue place (.whole slots arguments b) =
      rowValue place' (.whole slots arguments b) := rowValue_eq_of_types rfl
  rw [value?_matchList, value?_matchList, hrow]

end values

/-! ### Paths -/

/-- A failure of a row as a whole, or inside one of its arguments. -/
def Failure.AtRow (place : Nat → Segment) (e : Failure) : Prop :=
  e.path = [] ∨ ∃ i rest, e.path = place i :: rest

/-- A failure inside one of the given keywords. -/
def Failure.InKeyword (names : List String) (e : Failure) : Prop :=
  ∃ name ∈ names, ∃ rest, e.path = .keyword name :: rest

section rows

variable {u : Unifier} {place : Nat → Segment} {slots : List Slot} {b : Binding}

theorem Failure.atRow_under (e : Failure) (i : Nat) : (e.under (place i)).AtRow place :=
  .inr ⟨i, e.path, rfl⟩

theorem Failure.atRow_root (cause : Cause) : Failure.AtRow place ⟨cause, []⟩ := .inl rfl

theorem atRow_of_unifyEach {i : Nat} {formals actuals : List TypeExpr} :
    (unifyEach u place i formals actuals b).Meets (fun _ => True) (·.AtRow place) := by
  refine meets_unifyEach (I := fun _ _ _ => True) ?_ (fun _ _ _ _ _ => trivial) trivial
  intro i f fs a as b _
  exact meets_iff.2 ⟨fun _ _ => trivial, fun e _ => e.atRow_under i⟩

theorem atRow_of_assignTuple {ts : TupleVar} {contents : List TypeExpr} :
    (assignTuple ts contents b).Meets (fun _ => True) (·.AtRow place) :=
  meets_assignTuple (fun _ => trivial) (fun _ => trivial) fun _ _ _ => Failure.atRow_root _

theorem atRow_of_matchSlot {slot : Slot} {run : Run} :
    (matchSlot u place slot run b).Meets (fun _ => True) (·.AtRow place) := by
  cases slot with
  | single f => exact atRow_of_unifyEach
  | spread ts =>
    rw [matchSlot, meets_under]
    exact meets_iff.2 ⟨fun _ _ => trivial, fun e _ => e.atRow_under run.start⟩
  | mapped ctor ts =>
    rw [matchSlot]
    split
    · rw [meets_bind, meets_log]
      exact atRow_of_unifyEach
    · rw [meets_bind, meets_log, meets_bind]
      refine (meets_stripEach (I := fun _ _ => True) ?_ ?_ (fun _ _ => trivial) trivial).imp
        fun b _ => atRow_of_assignTuple
      · intro i a as b head operand _ _
        exact meets_iff.2 ⟨fun _ _ => trivial, fun e _ => (e.under .ctor).atRow_under i⟩
      · intro i a as b _ _
        exact Failure.atRow_under _ i

theorem atRow_of_matchList {arguments : List TypeExpr} :
    (matchList u place slots arguments b).Meets (fun _ => True) (·.AtRow place) := by
  refine meets_matchList (I := fun _ => True) (fun _ => Failure.atRow_root _) (fun _ => trivial) ?_
    (fun _ _ _ _ => trivial) fun _ _ _ _ => Failure.atRow_root _
  intro w _
  refine meets_takeSlot (fun _ => trivial) (fun _ _ _ _ => Failure.atRow_root _)
    (fun _ _ _ _ => atRow_of_matchSlot) (fun _ _ _ _ => atRow_of_matchSlot) fun _ _ _ => ?_
  exact meets_evenShare (fun _ => Failure.atRow_root _) (fun _ _ => Failure.atRow_root _)
    (fun _ _ => Failure.atRow_root _) fun _ _ _ => atRow_of_matchSlot

end rows

section keywords

variable {function name : String} {names : List String} {b : Binding}

theorem Failure.inKeyword_under (h : name ∈ names) (e : Failure) :
    (e.under (.keyword name)).InKeyword names :=
  ⟨name, h, e.path, rfl⟩

theorem Failure.InKeyword.mono {names' : List String} {e : Failure} (h : e.InKeyword names)
    (hsub : ∀ name ∈ names, name ∈ names') : e.InKeyword names' := by
  obtain ⟨name, hname, path, hpath⟩ := h
  exact ⟨name, hsub name hname, path, hpath⟩

theorem inKeyword_of_solveKeywords {call : Call} {keywords : List (String × TypeExpr)} :
    (solveKeywords function call keywords b).Meets (fun _ => True)
      (·.InKeyword (keywords.map Prod.fst)) := by
  induction keywords generalizing b with
  | nil => exact trivial
  | cons keyword rest ih =>
    obtain ⟨name, t⟩ := keyword
    rw [solveKeywords, meets_bind, meets_under]
    refine meets_iff.2 ⟨fun b' _ => ?_, fun e _ => e.inKeyword_under (by simp)⟩
    exact ih.mono (fun _ h => h) fun e he => he.mono fun _ => List.mem_cons_of_mem _

theorem inKeyword_of_collectKeywords {kwargs : Option TypeExpr}
    {keywords : List (String × TypeExpr)} :
    (collectKeywords function kwargs keywords b).Meets (fun _ => True)
      (·.InKeyword (keywords.map Prod.fst)) := by
  induction keywords generalizing b with
  | nil => exact trivial
  | cons keyword rest ih =>
    obtain ⟨name, t⟩ := keyword
    cases kwargs with
    | none => exact ⟨name, by simp, [], rfl⟩
    | some formal =>
      rw [collectKeywords, meets_bind, meets_under]
      refine meets_iff.2 ⟨fun b' _ => ?_, fun e _ => e.inKeyword_under (by simp)⟩
      exact ih.mono (fun _ h => h) fun e he => he.mono fun _ => List.mem_cons_of_mem _

end keywords

end Polyadic
