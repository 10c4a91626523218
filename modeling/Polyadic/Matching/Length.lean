import Polyadic.Binding
import Polyadic.Failure
import Polyadic.ParameterList

/-! # Lengths of slots and runs of arguments

How many arguments a row of slots takes, as far as a binding tells.  A slot that takes a run is
*open* until its tuple variable is bound (`isOpen_iff`), and then as long as the bound sequence. -/

namespace Polyadic

namespace Slot

/-- The number of arguments that a slot takes, once it is known. -/
def length? (b : Binding) : Slot → Option Nat
  | .single _ => some 1
  | .spread ts | .mapped _ ts => (b.tuple? ts).map List.length

/-- Whether the number of arguments that a slot takes is not known yet. -/
def isOpen (b : Binding) (s : Slot) : Bool := (s.length? b).isNone

/-- The number of arguments that a slot is known to take; none if it is open. -/
def width (b : Binding) (s : Slot) : Nat := (s.length? b).getD 0

@[simp] theorem width_single (b : Binding) (t : TypeExpr) : (single t).width b = 1 := rfl

theorem width_of_bound {b : Binding} {s : Slot} {ts : TupleVar} {contents : List TypeExpr}
    (hs : s.tuple? = some ts) (hb : b.tuple? ts = some contents) : s.width b = contents.length := by
  cases s <;> simp_all [tuple?, width, length?]

theorem isOpen_iff {b : Binding} {s : Slot} :
    s.isOpen b = true ↔ ∃ ts, s.tuple? = some ts ∧ b.tuple? ts = none := by
  cases s <;> simp [isOpen, length?, tuple?]

end Slot

/-- The number of arguments that the known slots of a row take together. -/
def requiredLength (b : Binding) : List Slot → Nat
  | [] => 0
  | s :: rest => s.width b + requiredLength b rest

@[simp] theorem requiredLength_append (b : Binding) (slots slots' : List Slot) :
    requiredLength b (slots ++ slots') = requiredLength b slots + requiredLength b slots' := by
  induction slots with
  | nil => simp [requiredLength]
  | cons s slots ih => simp [requiredLength, ih, Nat.add_assoc]

/-- The number of open slots. -/
def openCount (b : Binding) (slots : List Slot) : Nat := slots.countP (Slot.isOpen b)

/-- The distinct tuple variables of the open slots, by first occurrence. -/
def openTuples (b : Binding) (slots : List Slot) : List TupleVar :=
  ((slots.filter (Slot.isOpen b)).filterMap Slot.tuple?).eraseDups

theorem mem_openTuples {b : Binding} {slots : List Slot} {ts : TupleVar} :
    ts ∈ openTuples b slots ↔ b.tuple? ts = none ∧ ∃ s ∈ slots, s.tuple? = some ts := by
  simp only [openTuples, List.mem_eraseDups, List.mem_filterMap, List.mem_filter, Slot.isOpen_iff]
  constructor
  · rintro ⟨s, ⟨hs, us, hus, hb⟩, hts⟩
    obtain rfl : us = ts := by simpa [hus] using hts
    exact ⟨hb, s, hs, hts⟩
  · rintro ⟨hb, s, hs, hts⟩
    exact ⟨s, ⟨hs, ts, hts, hb⟩, hts⟩

/-- The number of arguments that a row of slots takes, as far as the binding tells. -/
def listArity (b : Binding) (slots : List Slot) : Arity :=
  if openCount b slots = 0 then .exactly (requiredLength b slots)
  else .atLeast (requiredLength b slots)

/-! ### Runs of arguments -/

/-- A contiguous part of a list of arguments, with the index of its first element. -/
structure Run where
  start : Nat
  types : List TypeExpr
deriving DecidableEq, Repr

namespace Run

/-- The number of arguments in a run. -/
def length (r : Run) : Nat := r.types.length

/-- The first `n` arguments. -/
def first (r : Run) (n : Nat) : Run := ⟨r.start, r.types.take n⟩

/-- The arguments after the first `n`. -/
def after (r : Run) (n : Nat) : Run := ⟨r.start + n, r.types.drop n⟩

theorem length_first {r : Run} {n : Nat} (h : n ≤ r.length) : (r.first n).length = n :=
  List.length_take_of_le h

@[simp] theorem length_after (r : Run) (n : Nat) : (r.after n).length = r.length - n :=
  List.length_drop

theorem first_append (i : Nat) (us vs : List TypeExpr) :
    first ⟨i, us ++ vs⟩ us.length = ⟨i, us⟩ := by simp [first]

theorem after_append (i : Nat) (us vs : List TypeExpr) :
    after ⟨i, us ++ vs⟩ us.length = ⟨i + us.length, vs⟩ := by simp [after]

end Run

end Polyadic
