import Polyadic.Matching.List

/-! # Matching a row by positions

`matchList` hands on what is left of a row and of its arguments, so that it has no positions that
could be wrong.  Here the same match is made on the whole row and the whole list of arguments: four
positions say what is left of them, and a round of the loop takes the known slots off the front,
then those off the back, and solves an open slot only if neither end has been known.  Whatever could
go wrong with a position, a length or a number is checked where it is used, and stops the match as a
breach; so is the number of rounds. -/

namespace Polyadic.Rounds

open Attempt

/-! ### Parts of a list -/

section between

variable {α : Type} {xs : List α} {i j k : Nat}

/-- The elements of a list from one position on and before another. -/
def between (xs : List α) (i j : Nat) : List α := (xs.take j).drop i

theorem length_between (hj : j ≤ xs.length) : (between xs i j).length = j - i := by
  simp [between, Nat.min_eq_left hj]

theorem between_eq_nil (h : j ≤ i) : between xs i j = [] := by
  rw [between, List.drop_eq_nil_iff, List.length_take]
  omega

theorem between_eq_cons (hij : i < j) (hj : j ≤ xs.length) :
    between xs i j = xs[i] :: between xs (i + 1) j := by
  rw [between, List.drop_eq_getElem_cons (by simp; omega), List.getElem_take]
  rfl

theorem between_eq_append (hij : i < j) (hj : j ≤ xs.length) :
    between xs i j = between xs i (j - 1) ++ [xs[j - 1]] := by
  obtain ⟨j, rfl⟩ : ∃ m, j = m + 1 := ⟨j - 1, by omega⟩
  show between xs i (j + 1) = between xs i j ++ [xs[j]]
  rw [between, List.take_succ_eq_append_getElem (by omega), List.drop_append_of_le_length]
  · rfl
  · simp; omega

theorem take_between (h : i + k ≤ j) : (between xs i j).take k = between xs i (i + k) := by
  rw [between, between, List.take_drop, List.take_take, Nat.min_eq_left h]

theorem drop_between : (between xs i j).drop k = between xs (i + k) j := by
  rw [between, between, List.drop_drop]

theorem eq_of_between_eq_cons {a : α} {rest : List α} (hj : j ≤ xs.length)
    (h : between xs i j = a :: rest) : i < j ∧ rest = between xs (i + 1) j := by
  have hij : i < j := Nat.lt_of_not_le fun hle => by simp [between_eq_nil hle] at h
  have hcons := between_eq_cons hij hj
  exact ⟨hij, (List.cons.inj (h.symm.trans hcons)).2⟩

theorem eq_of_between_eq_append {a : α} {rest : List α} (hj : j ≤ xs.length)
    (h : between xs i j = rest ++ [a]) : i < j ∧ rest = between xs i (j - 1) := by
  have hij : i < j := Nat.lt_of_not_le fun hle => by simp [between_eq_nil hle] at h
  have happend := between_eq_append hij hj
  exact ⟨hij, List.append_inj_left' (h.symm.trans happend) rfl⟩

end between

/-! ### Checks -/

/-- What is wrong about a step that does not exist. -/
inductive Breach where
  /-- The positions are not in order, or not within the row and the arguments. -/
  | order
  /-- There is no element at a position. -/
  | element
  /-- There is no part between two positions. -/
  | part
  /-- A number is taken from a smaller one. -/
  | difference
  /-- Arguments are divided by no occurrences. -/
  | division
  /-- Types are paired with more or fewer arguments. -/
  | pairing
  /-- A slot is solved that takes no run, or whose tuple variable is bound. -/
  | solved
  /-- The rounds are used up. -/
  | unfinished
deriving DecidableEq, Repr

/-- An attempt that may also stop at a breach. -/
abbrev Checked (α : Type) := ExceptT Breach Attempt α

section checks

variable {α β : Type}

/-- An attempt without a breach. -/
def ofAttempt (x : Attempt α) : Checked α := liftM x

/-- Goes on if a condition holds. -/
def require (p : Prop) [Decidable p] (breach : Breach) : Checked Unit :=
  if p then pure () else throw breach

/-- The element at a position. -/
def element (xs : List α) (i : Nat) : Checked α :=
  match xs[i]? with
  | some a => pure a
  | none => throw .element

/-- The part of a list from one position on and before another. -/
def part (xs : List α) (i j : Nat) : Checked (List α) := do
  require (i ≤ j ∧ j ≤ xs.length) .part
  return between xs i j

/-- A number less another one. -/
def difference (m n : Nat) : Checked Nat := do
  require (n ≤ m) .difference
  return m - n

theorem ofAttempt_pure (a : α) : ofAttempt (pure a) = pure a := rfl

theorem ofAttempt_bind (x : Attempt α) (f : α → Attempt β) :
    ofAttempt (x >>= f) = ofAttempt x >>= fun a => ofAttempt (f a) := liftM_bind x f

theorem run_ofAttempt (x : Attempt α) : (ofAttempt x).run = Except.ok <$> x := rfl

theorem run_ofAttempt_bind (x : Attempt α) (f : α → Checked β) :
    (ofAttempt x >>= f).run = x >>= fun a => (f a).run := ExceptT.run_bind_lift x f

theorem require_pos {p : Prop} [Decidable p] (h : p) (breach : Breach) :
    require p breach = pure () := if_pos h

theorem element_of_lt {xs : List α} {i : Nat} (h : i < xs.length) :
    element xs i = pure xs[i] := by
  rw [element, List.getElem?_eq_getElem h]

theorem part_of_le {xs : List α} {i j : Nat} (hij : i ≤ j) (hj : j ≤ xs.length) :
    part xs i j = pure (between xs i j) := by
  rw [part, require_pos ⟨hij, hj⟩, pure_bind]

theorem difference_of_le {m n : Nat} (h : n ≤ m) : difference m n = pure (m - n) := by
  rw [difference, require_pos h, pure_bind]

end checks

/-! ### Positions -/

/-- What is left: the slots from `loSlot` on and before `hiSlot`, the arguments from `lo` on and
before `hi`, and the binding so far. -/
structure Cursor where
  loSlot : Nat
  hiSlot : Nat
  lo : Nat
  hi : Nat
  binding : Binding

namespace Cursor

/-- All slots of a row and all of its arguments are left. -/
def start (slots : List Slot) (arguments : List TypeExpr) (b : Binding) : Cursor :=
  ⟨0, slots.length, 0, arguments.length, b⟩

/-- The number of slots that are left. -/
def left (s : Cursor) : Nat := s.hiSlot - s.loSlot

/-- The positions are in order and within a row and its arguments. -/
def InOrder (s : Cursor) (slots : List Slot) (arguments : List TypeExpr) : Prop :=
  (s.loSlot ≤ s.hiSlot ∧ s.hiSlot ≤ slots.length) ∧ s.lo ≤ s.hi ∧ s.hi ≤ arguments.length

instance (s : Cursor) (slots : List Slot) (arguments : List TypeExpr) :
    Decidable (s.InOrder slots arguments) := inferInstanceAs (Decidable (_ ∧ _))

/-- The slot at one end of those that are left. -/
def slotAt (s : Cursor) (slots : List Slot) : Side → Checked Slot
  | .front => element slots s.loSlot
  | .back => do
    let i ← difference s.hiSlot 1
    element slots i

/-- As many of the arguments that are left as given, from one end. -/
def segmentAt (s : Cursor) (arguments : List TypeExpr) (len : Nat) : Side → Checked Run
  | .front => do
    let types ← part arguments s.lo (s.lo + len)
    return ⟨s.lo, types⟩
  | .back => do
    let i ← difference s.hi len
    let types ← part arguments i s.hi
    return ⟨i, types⟩

/-- One slot less at one end, and as many arguments as given. -/
def advance (s : Cursor) (len : Nat) (b : Binding) : Side → Cursor
  | .front => ⟨s.loSlot + 1, s.hiSlot, s.lo + len, s.hi, b⟩
  | .back => ⟨s.loSlot, s.hiSlot - 1, s.lo, s.hi - len, b⟩

theorem left_advance_lt {s : Cursor} (h : s.loSlot < s.hiSlot) (len : Nat) (b : Binding)
    (side : Side) : (s.advance len b side).left < s.left := by
  cases side <;> simp only [advance, left] <;> omega

end Cursor

/-! ### Single slots -/

section

variable (u : Unifier) (place : Nat → Segment)

/-- Matches a slot of known length against its part of the arguments. -/
def matchSegment (slot : Slot) (segment : Run) (b : Binding) : Checked Binding :=
  match slot with
  | .single formal => do
    let actual ← element segment.types 0
    ofAttempt ((u formal actual b).under (place segment.start))
  | .spread ts => ofAttempt ((assignTuple ts segment.types b).under (place segment.start))
  | .mapped ctor ts => do
    let expansion := TypeExpr.mapOver ctor ((b.tuple? ts).getD [])
    ofAttempt (log (.expandMap ctor ts segment.types expansion))
    require (expansion.length = segment.length) .pairing
    ofAttempt (unifyEach u place segment.start expansion segment.types b)

/-- Strips a constructor off every argument, from the given index on, and puts the operands behind
those that have been found. -/
def strip (ctor : TypeExpr) (ts : TupleVar) :
    Nat → List TypeExpr → List TypeExpr → Binding → Checked (List TypeExpr × Binding)
  | _, contents, [], b => return (contents, b)
  | i, contents, actual :: rest, b => do
    match actual with
    | .apply head args =>
      if args.length = 1 then
        let b ← ofAttempt (((u ctor head b).under .ctor).under (place i))
        let operand ← element args 0
        strip ctor ts (i + 1) (contents ++ [operand]) rest b
      else ofAttempt ((mismatch (.apply ctor [.spread ts]) actual).under (place i))
    | _ => ofAttempt ((mismatch (.apply ctor [.spread ts]) actual).under (place i))

/-- Solves an open slot for its tuple variable. -/
def solveOpen (slot : Slot) (segment : Run) (b : Binding) : Checked Binding := do
  require (slot.takesRun = true ∧ slot.isOpen b = true) .solved
  match slot with
  | .single _ => matchSegment u place slot segment b
  | .spread ts => ofAttempt ((assignTuple ts segment.types b).under (place segment.start))
  | .mapped ctor ts =>
    ofAttempt (log (.invertMap ctor ts segment.types))
    let (contents, b) ← strip u place ctor ts segment.start [] segment.types b
    ofAttempt (assignTuple ts contents b)

/-- The number of arguments for each occurrence of the one open tuple variable. -/
def share (slots : List Slot) (run : Run) (b : Binding) : Checked Nat := do
  if 1 < (openTuples b slots).length then
    ofAttempt (log (.severalOpen slots run.types))
    ofAttempt (fail (.ambiguousSplit (openTuples b slots)))
  else if run.length < requiredLength b slots then ofAttempt (wrongArity b slots run.length)
  else
    require (1 ≤ openCount b slots) .division
    ofAttempt <| shareEvenly slots run (run.length - requiredLength b slots) (openCount b slots)

/-! ### The loop -/

variable (slots : List Slot) (arguments : List TypeExpr)

/-- Takes known slots off one end, as long as there are some, and tells whether slots have been
taken before or now. -/
def sweep (side : Side) (s : Cursor) (progressed : Bool) : Checked (Cursor × Bool) := do
  require (s.InOrder slots arguments) .order
  if _ : s.loSlot < s.hiSlot then
    let slot ← s.slotAt slots side
    match slot.length? s.binding with
    | none => return (s, progressed)
    | some len =>
      let available ← difference s.hi s.lo
      if available < len then
        let remaining ← part slots s.loSlot s.hiSlot
        ofAttempt (wrongArity s.binding remaining available)
      else
        let segment ← s.segmentAt arguments len side
        let b ← matchSegment u place slot segment s.binding
        sweep side (s.advance len b side) true
  else return (s, progressed)
termination_by s.left
decreasing_by exact Cursor.left_advance_lt (by assumption) _ _ _

/-- Solves the first slot that is left, with its even share of the arguments that are left. -/
def solveFirst (s : Cursor) : Checked Cursor := do
  let remaining ← part slots s.loSlot s.hiSlot
  let available ← part arguments s.lo s.hi
  let len ← share remaining ⟨s.lo, available⟩ s.binding
  let slot ← s.slotAt slots .front
  let segment ← s.segmentAt arguments len .front
  let b ← solveOpen u place slot segment s.binding
  return s.advance len b .front

/-- One round of the loop, which ends the match or leads to what is left after it. -/
def round (s : Cursor) : Checked (Binding ⊕ Cursor) := do
  let (s, progressed) ← sweep u place slots arguments .front s false
  let (s, progressed) ← sweep u place slots arguments .back s progressed
  if s.loSlot = s.hiSlot then
    if s.lo = s.hi then return .inl s.binding
    else ofAttempt (fail (.arity (.exactly (requiredLength s.binding slots)) arguments.length))
  else if progressed then return .inr s
  else return .inr (← solveFirst u place slots arguments s)

/-- Goes round until the match has ended, if that is within the given number of rounds. -/
def rounds : Nat → Cursor → Checked Binding
  | 0, _ => throw .unfinished
  | n + 1, s => do
    match ← round u place slots arguments s with
    | .inl b => return b
    | .inr s => rounds n s

/-- Matches a row of slots against a list of arguments, in at most the given number of rounds. -/
def matchWithin (limit : Nat) (b : Binding) : Checked Binding :=
  if (listArity b slots).Admits arguments.length then
    rounds u place slots arguments limit (.start slots arguments b)
  else ofAttempt (wrongArity b slots arguments.length)

end

end Polyadic.Rounds
