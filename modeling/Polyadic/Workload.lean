import Polyadic.Declarations

/-! # A scalable workload

Declarations and calls of every size that use the three ways of splitting a list (a run between
fixed ends, two runs with an anchor, a mapped run) and a tower of nested aliases:

    framed(int, *Ts, str) -> tuple[*Ts]
    concat(*Ts1, *Ts2, tail: Ts2) -> tuple[*Ts1, *Ts2]
    zip_lists(*Map[list, Ts]) -> tuple[*Ts]
    Nest0[*Ts] = tuple[*Ts]
    Nest1[*Ts] = list[Nest0[*Ts]]     (and so on) -/

namespace Polyadic.Workload

/-- The argument at an index: five names in turn. -/
def argument (i : Nat) : TypeExpr :=
  .named (match i % 5 with
    | 0 => "int"
    | 1 => "str"
    | 2 => "bool"
    | 3 => "float"
    | _ => "bytes")

/-- The first `n` arguments. -/
def argumentList (n : Nat) : List TypeExpr := (List.range n).map argument

/-- A function with a run between two fixed parameters. -/
def framed (ts : TupleVar) : Signature where
  name := "framed"
  positional := .ofTypes [.named "int", .spread ts, .named "str"]
  result := .tuple [.spread ts]

/-- A function with two runs, the second of which is anchored by a keyword. -/
def concat (first second : TupleVar) : Signature where
  name := "concat"
  positional := .ofTypes [.spread first, .spread second]
  keywords := [("tail", .packed second)]
  result := .tuple [.spread first, .spread second]

/-- A function with a mapped run. -/
def zipLists (ts : TupleVar) : Signature where
  name := "zip_lists"
  positional := .ofTypes [.spreadMap (.named "list") ts]
  result := .tuple [.spread ts]

/-- The name of the alias at a level of the tower. -/
def nestName (level : Nat) : String := "Nest" ++ toString level

/-- The alias at a level of the tower: a tuple at the bottom, and a list of the level below
elsewhere. -/
def nest (ts : TupleVar) : Nat → Alias
  | 0 => ⟨nestName 0, .ofTypes [.spread ts], .tuple [.spread ts]⟩
  | level + 1 =>
    ⟨nestName (level + 1), .ofTypes [.spread ts],
      .apply (.named "list") [.apply (.named (nestName level)) [.spread ts]]⟩

/-- Declares the levels of the tower up to `depth`, from the bottom. -/
def declareTower (ts : TupleVar) : Nat → Declarations → Except Failure Declarations
  | 0, d => d.declareAlias (nest ts 0)
  | depth + 1, d => do
    let d ← declareTower ts depth d
    d.declareAlias (nest ts (depth + 1))

/-- The declarations of the workload, with a tower of the given depth. -/
def declarations (depth : Nat) : Except Failure Declarations := do
  let d := ((Declarations.empty.declareTuple "Ts").declareTuple "Ts1").declareTuple "Ts2"
  let d ← d.declareFunction (framed ⟨0⟩)
  let d ← d.declareFunction (concat ⟨1⟩ ⟨2⟩)
  let d ← d.declareFunction (zipLists ⟨0⟩)
  declareTower ⟨0⟩ depth d

/-- A call of `framed` with `n` arguments between the fixed ones. -/
def framedCall (n : Nat) : Call where
  positional := [.named "int"] ++ argumentList n ++ [.named "str"]

/-- A call of `concat` with `n` arguments, the later half of which is the tail. -/
def concatCall (n : Nat) : Call where
  positional := argumentList n
  keywords := [("tail", .tuple ((argumentList n).drop (n / 2)))]

/-- A call of `zip_lists` with `n` arguments. -/
def zipCall (n : Nat) : Call where
  positional := TypeExpr.mapOver (.named "list") (argumentList n)

end Polyadic.Workload
