import Polyadic.Matching.Agreement

/-! # Matching two types

A formal type is matched against an actual type: the variables of the formal side are bound, the
actual side is data.  `unifyStep` is one level of it, with the matching of the parts as a parameter;
`unify` closes the recursion.  It descends on the weight of the actual type and not on the formal
one, which a mapped slot may build anew out of a binding, so the equation `unify_eq` needs the
wrapped form of a tuple variable to be heavier than its element. -/

namespace Polyadic

open Attempt

/-- One level of matching two types. -/
def unifyStep (unify : Unifier) (formal actual : TypeExpr) (b : Binding) : Attempt Binding :=
  match formal, actual with
  | .var v, _ => assignScalar v actual b
  | .packed ts, _ =>
    match actual.tupleElements? with
    | some elements => do
      log (.decompose formal actual)
      matchList unify .element [.spread ts] elements b
    | none => mismatch formal actual
  | .apply head args, .packed us =>
    if head = .named TypeExpr.tupleName then
      matchList unify .element (args.map Slot.ofType) [.spread us] b
    else mismatch formal actual
  | .apply head args, .apply head' args' => do
    log (.decompose formal actual)
    let b ← (unify head head' b).under .ctor
    matchList unify .arg (args.map Slot.ofType) args' b
  | .arrow params result, .arrow params' result' => do
    log (.decompose formal actual)
    let b ← matchList unify .callableParam (params.map Slot.ofType) params' b
    (unify result result' b).under .result
  | .union members, .union members' => do
    log (.decompose formal actual)
    matchList unify .member (members.map Slot.ofType) members' b
  | _, _ =>
    if formal = actual then do
      log (.identity formal)
      return b
    else mismatch formal actual

/-- Matching of actual types up to a weight. -/
def unifyWithin : Nat → Unifier
  | 0 => fun formal actual _ => mismatch formal actual
  | n + 1 => unifyStep (unifyWithin n)

/-- Matches a formal type against an actual type. -/
def unify : Unifier := fun formal actual b => unifyWithin actual.weight formal actual b

/-! ### Descent on the actual type -/

/-- One level of matching calls the matching of parts on lighter actual types only. -/
theorem unifyStep_congr {u u' : Unifier} {formal actual : TypeExpr} {b : Binding}
    (h : ∀ f a b, a.weight < actual.weight → u f a b = u' f a b) :
    unifyStep u formal actual b = unifyStep u' formal actual b := by
  have agree {arguments : List TypeExpr} (hl : ∀ x ∈ arguments, x.weight < actual.weight) :
      AgreeOn u u' arguments :=
    fun x hx f a b ha => h f a b (Nat.lt_of_le_of_lt ha (hl x hx))
  unfold unifyStep
  split
  · rfl
  · split
    · rename_i elements helements
      rw [matchList_congr (agree fun x hx => TypeExpr.weight_lt_of_mem_tupleElements helements hx)]
    · rfl
  · rw [matchList_congr (agree (by simp [TypeExpr.weight]))]
  · rename_i head args head' args'
    rw [h head head' b (by simp only [TypeExpr.weight]; omega)]
    congr
    funext _
    congr
    funext b
    refine matchList_congr (agree fun x hx => ?_)
    have := TypeExpr.weight_le_totalWeight hx
    simp only [TypeExpr.weight]; omega
  · rename_i params result params' result'
    rw [matchList_congr (agree fun x hx => ?_)]
    · congr
      funext _
      congr
      funext b
      rw [h result result' b (by simp only [TypeExpr.weight]; omega)]
    · have := TypeExpr.weight_le_totalWeight hx
      simp only [TypeExpr.weight]; omega
  · rename_i members members'
    rw [matchList_congr (agree fun x hx => ?_)]
    have := TypeExpr.weight_le_totalWeight hx
    simp only [TypeExpr.weight]; omega
  · rfl

theorem unifyWithin_of_le {n m : Nat} {formal actual : TypeExpr} {b : Binding}
    (hn : actual.weight ≤ n) (hm : actual.weight ≤ m) :
    unifyWithin n formal actual b = unifyWithin m formal actual b := by
  induction n generalizing m formal actual b with
  | zero => have := actual.weight_pos; omega
  | succ n ih =>
    cases m with
    | zero => have := actual.weight_pos; omega
    | succ m =>
      exact unifyStep_congr fun f a b ha => ih (by omega) (by omega)

/-- Matching two types is one level of matching over itself. -/
theorem unify_eq (formal actual : TypeExpr) (b : Binding) :
    unify formal actual b = unifyStep unify formal actual b := by
  have hpos := actual.weight_pos
  obtain ⟨n, hn⟩ : ∃ n, actual.weight = n + 1 := ⟨actual.weight - 1, by omega⟩
  have hw : unify formal actual b = unifyWithin (n + 1) formal actual b :=
    unifyWithin_of_le (Nat.le_refl _) (by omega)
  rw [hw]
  exact unifyStep_congr fun f a b ha => unifyWithin_of_le (by omega) (Nat.le_refl _)

end Polyadic
