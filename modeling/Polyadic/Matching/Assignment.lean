import Polyadic.Attempt

/-! # Assigning variables

The three ways in which a match touches a variable or gives up at a leaf.  A variable that has a
value keeps it: the same value again changes nothing, another one is a conflict. -/

namespace Polyadic

open Attempt

/-- Gives a scalar variable its type. -/
def assignScalar (v : TypeVar) (t : TypeExpr) (b : Binding) : Attempt Binding :=
  match b.scalar? v with
  | none => do
    log (.bindScalar v t)
    return b.bindScalar v t
  | some previous =>
    if previous = t then return b
    else do
      log (.scalarConflict v previous t)
      fail (.conflict (.scalar v) previous t)

/-- Gives a tuple variable its sequence. -/
def assignTuple (ts : TupleVar) (contents : List TypeExpr) (b : Binding) : Attempt Binding :=
  match b.tuple? ts with
  | none => do
    log (.bindTuple ts contents)
    return b.bindTuple ts contents
  | some previous =>
    if previous = contents then return b
    else do
      log (.tupleConflict ts previous contents)
      fail (.conflict (.tuple ts) (.tuple previous) (.tuple contents))

/-- A type that does not have the expected form. -/
def mismatch {α : Type} (expected actual : TypeExpr) : Attempt α := do
  log (.mismatch expected actual)
  fail (.mismatch expected actual)

/-! ### Results -/

theorem result_assignScalar_eq_ok_iff {v : TypeVar} {t : TypeExpr} {b b' : Binding} :
    (assignScalar v t b).result = .ok b' ↔
      b.scalar? v = some t ∧ b' = b ∨ b.scalar? v = none ∧ b' = b.bindScalar v t := by
  unfold assignScalar
  split
  · rename_i h
    simp [h, Except.map, eq_comm]
  · rename_i previous h
    split
    · rename_i heq
      subst heq
      simp [h, eq_comm]
    · rename_i hne
      simp [h, hne]

theorem result_assignTuple_eq_ok_iff {ts : TupleVar} {contents : List TypeExpr} {b b' : Binding} :
    (assignTuple ts contents b).result = .ok b' ↔
      b.tuple? ts = some contents ∧ b' = b ∨ b.tuple? ts = none ∧ b' = b.bindTuple ts contents := by
  unfold assignTuple
  split
  · rename_i h
    simp [h, Except.map, eq_comm]
  · rename_i previous h
    split
    · rename_i heq
      subst heq
      simp [h, eq_comm]
    · rename_i hne
      simp [h, hne]

@[simp] theorem result_mismatch {α : Type} (expected actual : TypeExpr) :
    (mismatch expected actual : Attempt α).result = .error ⟨.mismatch expected actual, []⟩ := rfl

end Polyadic
