/-! # Taking slots off both ends

A row of slots is worked off from its two ends.  A slot may be taken as soon as it is *known*.  The
strategy stays at the end where it took the last slot while the slot there is known, then tries the
other end; when neither end is known it is stuck at the front.  `nextMove` makes one such choice.

A move takes one slot off the row (`length_rest_lt`) and says which one (`nextMove_eq_front`, and so
on), so that a row of `n` slots is worked off in `n` moves. -/

namespace Polyadic

/-- One of the two ends of a row. -/
inductive Side where
  | front
  | back
deriving DecidableEq, Repr

/-- A choice of the strategy, with the slots that are left after it. -/
inductive Move (α : Type) where
  /-- Nothing is left to take. -/
  | done
  /-- The first slot is known and taken. -/
  | front (slot : α) (rest : List α)
  /-- The last slot is known and taken. -/
  | back (rest : List α) (slot : α)
  /-- Neither end is known; the first slot has to be settled in some other way. -/
  | stuck (slot : α) (rest : List α)
deriving Repr

variable {α : Type}

/-- The next slot to take, with `side` the end of the last move. -/
def nextMove (known : α → Bool) (side : Side) : List α → Move α
  | [] => .done
  | a :: as =>
    let last := (a :: as).getLast (List.cons_ne_nil a as)
    let front := Move.front a as
    let back := Move.back (a :: as).dropLast last
    match side, known a, known last with
    | .front, true, _ => front
    | .front, false, true => back
    | .back, _, true => back
    | .back, true, false => front
    | _, false, false => .stuck a as

namespace Move

/-- The slots left after a move. -/
def rest : Move α → List α
  | done => []
  | front _ rest | back rest _ | stuck _ rest => rest

end Move

theorem nextMove_eq_done {known : α → Bool} {side : Side} {slots : List α}
    (h : nextMove known side slots = .done) : slots = [] := by
  cases slots with
  | nil => rfl
  | cons a as =>
    simp only [nextMove] at h
    split at h <;> cases h

theorem nextMove_eq_front {known : α → Bool} {side : Side} {slots rest : List α} {slot : α}
    (h : nextMove known side slots = .front slot rest) :
    slots = slot :: rest ∧ known slot = true := by
  cases slots with
  | nil => cases h
  | cons a as =>
    simp only [nextMove] at h
    split at h <;> cases h <;> simp_all

theorem nextMove_eq_back {known : α → Bool} {side : Side} {slots rest : List α} {slot : α}
    (h : nextMove known side slots = .back rest slot) :
    slots = rest ++ [slot] ∧ known slot = true := by
  cases slots with
  | nil => cases h
  | cons a as =>
    simp only [nextMove] at h
    split at h <;> cases h <;>
      exact ⟨(List.dropLast_concat_getLast (List.cons_ne_nil _ _)).symm, by assumption⟩

theorem nextMove_eq_stuck {known : α → Bool} {side : Side} {slots rest : List α} {slot : α}
    (h : nextMove known side slots = .stuck slot rest) :
    slots = slot :: rest ∧ known slot = false ∧
      ∀ last ∈ slots.getLast?, known last = false := by
  cases slots with
  | nil => cases h
  | cons a as =>
    simp only [nextMove] at h
    split at h <;> cases h
    rename_i ha hl
    refine ⟨rfl, ha, fun last hlast => ?_⟩
    rw [List.getLast?_eq_some_getLast (List.cons_ne_nil _ _)] at hlast
    cases hlast
    exact hl

/-- A move leaves fewer slots than there were. -/
theorem length_rest_lt {known : α → Bool} {side : Side} {slots : List α} (h : slots ≠ []) :
    (nextMove known side slots).rest.length < slots.length := by
  cases hm : nextMove known side slots with
  | done => exact absurd (nextMove_eq_done hm) h
  | front slot rest => rw [(nextMove_eq_front hm).1]; simp [Move.rest]
  | back rest slot => rw [(nextMove_eq_back hm).1]; simp [Move.rest]
  | stuck slot rest => rw [(nextMove_eq_stuck hm).1]; simp [Move.rest]

end Polyadic
