import Polyadic.TypeExpr.Basic

/-! # Text of types

Types are written as in `list[int]`, `(int, *Ts0) -> str`, `*Map[list, Ts0]` and `int | str`.  A
variable is written by its declared name where there is one, and otherwise by its number after `T`
or `Ts`. -/

namespace Polyadic

/-- The names under which variables were declared. -/
structure VariableNames where
  scalar? : TypeVar → Option String
  tuple? : TupleVar → Option String

/-- No variable has a declared name. -/
def VariableNames.none : VariableNames := ⟨fun _ => .none, fun _ => .none⟩

/-- The number of a scalar variable after `T`. -/
def TypeVar.text (v : TypeVar) : String := "T" ++ toString v.id.toNat

/-- The number of a tuple variable after `Ts`. -/
def TupleVar.text (ts : TupleVar) : String := "Ts" ++ toString ts.id.toNat

/-- The text of a variable of either kind. -/
def Variable.text : Variable → String
  | .scalar v => v.text
  | .tuple ts => ts.text

/-! ### Texts of variables -/

theorem toDigits_inj {m n : Nat} : Nat.toDigits 10 m = Nat.toDigits 10 n ↔ m = n := by
  constructor
  · intro h
    rw [← Nat.ofDigitChars_ten_toDigits (n := m), h, Nat.ofDigitChars_ten_toDigits]
  · rintro rfl
    rfl

@[simp] theorem TypeVar.toList_text (v : TypeVar) :
    v.text.toList = 'T' :: Nat.toDigits 10 v.id.toNat := by simp [TypeVar.text]

@[simp] theorem TupleVar.toList_text (ts : TupleVar) :
    ts.text.toList = 'T' :: 's' :: Nat.toDigits 10 ts.id.toNat := by simp [TupleVar.text]

theorem TypeVar.text_inj {v w : TypeVar} : v.text = w.text ↔ v = w := by
  rw [← String.toList_inj, toList_text, toList_text]
  cases v; cases w
  simp [toDigits_inj, UInt32.toNat_inj]

theorem TupleVar.text_inj {ts us : TupleVar} : ts.text = us.text ↔ ts = us := by
  rw [← String.toList_inj, toList_text, toList_text]
  cases ts; cases us
  simp [toDigits_inj, UInt32.toNat_inj]

/-- A scalar variable is not written like a tuple variable. -/
theorem TypeVar.text_ne (v : TypeVar) (ts : TupleVar) : v.text ≠ ts.text := by
  intro h
  rw [← String.toList_inj, toList_text, TupleVar.toList_text] at h
  have hs : 's' ∈ Nat.toDigits 10 v.id.toNat := by simp [(List.cons.inj h).2]
  have := Nat.isDigit_of_mem_toDigits (by decide) (by decide) hs
  contradiction

namespace TypeExpr

/-- Whether a type is callable. -/
def isArrow : TypeExpr → Bool
  | .arrow _ _ => true
  | _ => false

mutual

/-- The text of a type.  An application without arguments is marked by `()`, a union without members
by `Union[]`, and a callable member of a union stands in parentheses. -/
def render (names : VariableNames) : TypeExpr → String
  | .named name => name
  | .var v => (names.scalar? v).getD v.text
  | .packed ts => (names.tuple? ts).getD ts.text
  | .spread ts => "*" ++ (names.tuple? ts).getD ts.text
  | .spreadMap ctor ts =>
    "*Map[" ++ ctor.render names ++ ", " ++ (names.tuple? ts).getD ts.text ++ "]"
  | .apply head [] => head.render names ++ "[()]"
  | .apply head (a :: as) =>
    head.render names ++ "[" ++ ", ".intercalate (renderAll names (a :: as)) ++ "]"
  | .union [] => "Union[]"
  | .union (m :: ms) => " | ".intercalate (renderMembers names (m :: ms))
  | .arrow params result =>
    "(" ++ ", ".intercalate (renderAll names params) ++ ") -> " ++ result.render names

/-- The texts of the types of a list. -/
def renderAll (names : VariableNames) : List TypeExpr → List String
  | [] => []
  | t :: ts => t.render names :: renderAll names ts

/-- The texts of the members of a union. -/
def renderMembers (names : VariableNames) : List TypeExpr → List String
  | [] => []
  | m :: ms =>
    (if m.isArrow then "(" ++ m.render names ++ ")" else m.render names) :: renderMembers names ms

end

theorem renderAll_eq_map (names : VariableNames) (ts : List TypeExpr) :
    renderAll names ts = ts.map (render names) := by
  induction ts with
  | nil => rfl
  | cons t ts ih => simp [renderAll, ih]

/-- A member of a union, in parentheses if it is callable. -/
def renderMember (names : VariableNames) (m : TypeExpr) : String :=
  if m.isArrow then "(" ++ m.render names ++ ")" else m.render names

theorem renderMembers_eq_map (names : VariableNames) (ms : List TypeExpr) :
    renderMembers names ms = ms.map (renderMember names) := by
  induction ms with
  | nil => rfl
  | cons m ms ih => simp [renderMembers, renderMember, ih]

/-- The text of a type with numbered variables. -/
def text (t : TypeExpr) : String := t.render .none

/-- The text of a sequence of types, written as a wrapped tuple. -/
def sequenceText (ts : List TypeExpr) : String := (tuple ts).text

end TypeExpr

end Polyadic
