import Polyadic.Declaration
import Polyadic.Peeling
import Polyadic.Substitution

/-! # Checking that a split is determined

A declaration is checked once, before any call of it is seen.  The check takes the slots of every
list off its ends just as a match does, but keeps only the tuple variables that are known by then:
those of the siblings, and those mentioned by a slot that was taken.  Where the match would be left
with two open tuple variables, the declaration is rejected.  A list inside a type is a context of
its own, which starts from what is known around it. -/

namespace Polyadic

/-- The tuple variables that are known. -/
abbrev Known := List TupleVar

/-- A slot together with the check of the lists inside it. -/
structure Piece where
  slot : Slot
  check : Known → Except Failure Unit

/-- Whether the length of a slot is known. -/
def Slot.isKnown (known : Known) (s : Slot) : Bool := s.tuple?.all known.contains

/-- The tuple variables that are known once a slot has been taken. -/
def Slot.gain : Slot → Known
  | .single t => t.tupleMentions
  | .spread _ | .mapped _ _ => []

/-- The distinct tuple variables of slots that are not known, by first occurrence. -/
def unknownTuples (known : Known) (slots : List Slot) : List TupleVar :=
  ((slots.filterMap Slot.tuple?).filter (!known.contains ·)).eraseDups

/-- Takes `n` slots off a row that starts at the given index, and checks each of them with what is
known by then. -/
def checkPieces (place : Nat → Segment) :
    Nat → Side → Nat → List Piece → Known → Except Failure Unit
  | 0, _, _, _, _ => .ok ()
  | n + 1, side, start, pieces, known =>
    match nextMove (fun p => p.slot.isKnown known) side pieces with
    | .done => .ok ()
    | .front p rest => do
      within (place start) (p.check known)
      checkPieces place n .front (start + 1) rest (known ++ p.slot.gain)
    | .back rest p => do
      within (place (start + rest.length)) (p.check known)
      checkPieces place n .back start rest (known ++ p.slot.gain)
    | .stuck p rest =>
      let tuples := unknownTuples known (pieces.map Piece.slot)
      if 1 < tuples.length then .error ⟨.ambiguousSplit tuples, []⟩
      else do
        let known := known ++ tuples
        within (place start) (p.check known)
        checkPieces place n .front (start + 1) rest (known ++ p.slot.gain)

namespace TypeExpr

mutual

/-- Checks every list inside a type. -/
def checkSplits : TypeExpr → Known → Except Failure Unit
  | .spreadMap ctor _, known => ctor.checkSplits known
  | .apply head args, known => do
    within .ctor (head.checkSplits known)
    checkPieces .arg args.length .front 0 (piecesOf args) known
  | .union members, known => checkPieces .member members.length .front 0 (piecesOf members) known
  | .arrow params result, known => do
    checkPieces .callableParam params.length .front 0 (piecesOf params) known
    within .result (result.checkSplits known)
  | _, _ => .ok ()

/-- The elements of a list as slots, each with the check of the lists inside it. -/
def piecesOf : List TypeExpr → List Piece
  | [] => []
  | .spread ts :: rest => ⟨.spread ts, fun _ => .ok ()⟩ :: piecesOf rest
  | .spreadMap ctor ts :: rest =>
    ⟨.mapped ctor ts, fun known => within .ctor (ctor.checkSplits known)⟩ :: piecesOf rest
  | t :: rest => ⟨.single t, t.checkSplits⟩ :: piecesOf rest

end

end TypeExpr

/-- Checks the lists inside a slot. -/
def Slot.checkSplits : Slot → Known → Except Failure Unit
  | .single t, known => t.checkSplits known
  | .spread _, _ => .ok ()
  | .mapped ctor _, known => within .ctor (ctor.checkSplits known)

/-- Checks a row of slots with what is known around it. -/
def checkSlots (place : Nat → Segment) (slots : List Slot) (known : Known) :
    Except Failure Unit :=
  checkPieces place slots.length .front 0 (slots.map fun s => ⟨s, s.checkSplits⟩) known

theorem TypeExpr.piecesOf_eq_map (ts : List TypeExpr) :
    piecesOf ts = (ts.map Slot.ofType).map fun s => ⟨s, s.checkSplits⟩ := by
  induction ts with
  | nil => rfl
  | cons t ts ih => cases t <;> simp only [piecesOf, ih] <;> rfl

theorem TypeExpr.checkSplits_apply (head : TypeExpr) (args : List TypeExpr) (known : Known) :
    (apply head args).checkSplits known = (do
      within .ctor (head.checkSplits known)
      checkSlots .arg (args.map Slot.ofType) known) := by
  simp [checkSplits, checkSlots, piecesOf_eq_map]

theorem TypeExpr.checkSplits_union (members : List TypeExpr) (known : Known) :
    (union members).checkSplits known = checkSlots .member (members.map Slot.ofType) known := by
  simp [checkSplits, checkSlots, piecesOf_eq_map]

theorem TypeExpr.checkSplits_arrow (params : List TypeExpr) (result : TypeExpr) (known : Known) :
    (arrow params result).checkSplits known = (do
      checkSlots .callableParam (params.map Slot.ofType) known
      within .result (result.checkSplits known)) := by
  simp [checkSplits, checkSlots, piecesOf_eq_map]

/-- Checks the siblings of a list one after another; each adds the tuple variables it mentions. -/
def checkSiblings : List TypeExpr → Known → Except Failure Known
  | [], known => .ok known
  | t :: rest, known => do
    t.checkSplits known
    checkSiblings rest (known ++ t.tupleMentions)

/-- Checks a parameter list whose siblings are matched before it. -/
def ParameterList.check (list : ParameterList) (siblings : List TypeExpr) :
    Except Failure Unit := do
  let known ← checkSiblings siblings []
  checkSlots .param list.slots known

/-- Checks a function.  The parameter for further keywords takes one type for each of them, so that
a tuple variable cannot be its type. -/
def Signature.check (s : Signature) : Except Failure Unit :=
  match s.kwargs.filter fun t => t.ownTuple?.isSome with
  | some type => .error ⟨.kwargsTuple s.name type, []⟩
  | none => s.positional.check s.siblings

/-- Checks that the parameters of an alias mention one tuple variable at most. -/
def Alias.checkSingleTuple (a : Alias) : Except Failure Unit :=
  if 1 < a.formal.tupleVars.length then .error ⟨.severalTuples a.name a.formal.tupleVars, []⟩
  else .ok ()

/-- Checks an alias. -/
def Alias.check (a : Alias) : Except Failure Unit := do
  a.checkSingleTuple
  a.formal.check []

end Polyadic
