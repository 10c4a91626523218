import Polyadic.Proofs.Positions

/-! # What is reported of an anchor

A failure inside an anchor is reported as an ambiguous split if it concerns a tuple variable that
earlier anchors have bound, but also if it concerns a length, as soon as the anchor mentions any
such variable.  A part without tuple variables fails for something else than tuple variables
(`blamesTuples_of_unify`).  So in an anchor `c[A, B]` with such a part `B`, of which all but `B`
goes through, the split is said to be ambiguous exactly if `B` fails on a length while `A` mentions
a variable of an earlier anchor (`anchor_ambiguous_iff`).  The anchors agree on that variable
(`ambiguous_agreeing`). -/

namespace Polyadic

open Attempt

/-! ### Parts without tuple variables -/

namespace Cause

/-- Whether a cause names tuple variables. -/
def blamesTuples : Cause → Bool
  | conflict (.tuple _) _ _ | ambiguousSplit _ => true
  | _ => false

/-- Whether a cause is a wrong number of arguments. -/
def isArity : Cause → Bool
  | arity _ _ => true
  | _ => false

end Cause

section parts

variable {b : Binding}

theorem TypeExpr.isSpliced_of_tupleMentions {t : TypeExpr} (h : t.tupleMentions = []) :
    t.isSpliced = false := by
  cases t with
  | spread | spreadMap => simp at h
  | _ => rfl

theorem blamesTuples_of_matchList {place : Nat → Segment} {types arguments : List TypeExpr}
    (h : ∀ t ∈ types, t.tupleMentions = [])
    (hu : ∀ t ∈ types, ∀ a b,
      (unify t a b).Meets (fun _ => True) fun e => e.cause.blamesTuples = false) :
    (matchList unify place (types.map Slot.ofType) arguments b).Meets (fun _ => True)
      fun e => e.cause.blamesTuples = false := by
  have hslots : types.map Slot.ofType = types.map .single := List.map_congr_left fun t ht =>
    Slot.ofType_eq_single (TypeExpr.isSpliced_of_tupleMentions (h t ht))
  rw [hslots, matchList_singles]
  split
  · refine meets_unifyEach (I := fun fs _ _ => ∀ f ∈ fs, f ∈ types) ?_
      (fun _ _ _ _ _ => trivial) fun _ hf => hf
    intro i f fs a as b hfs
    exact (hu f (hfs f (by simp)) a b).mono (fun _ _ g hg => hfs g (by simp [hg])) fun _ he => he
  · exact rfl

/-- A type without tuple variables fails to match for something else than tuple variables. -/
theorem blamesTuples_of_unify {f a : TypeExpr} (h : f.tupleMentions = []) :
    (unify f a b).Meets (fun _ => True) fun e => e.cause.blamesTuples = false := by
  induction f using TypeExpr.induct generalizing a b with
  | named name =>
    exact meets_unify (by simp) (by simp) (by simp [TypeExpr.tuple]) (by simp) (by simp) (by simp)
      (fun _ _ _ => trivial) (fun _ _ => trivial) rfl
  | var v =>
    exact meets_unify_var.2
      (meets_assignScalar (fun _ => trivial) (fun _ => trivial) fun _ _ _ => rfl)
  | packed | spread | spreadMap => simp at h
  | apply head args hhead hargs =>
    rw [TypeExpr.tupleMentions_apply, List.append_eq_nil_iff, List.flatMap_eq_nil_iff] at h
    refine meets_unify_of_apply ?_ ?_ rfl
    · intro us _ _
      exact blamesTuples_of_matchList h.2 fun t ht a b => hargs t ht (h.2 t ht)
    · intro head' args' _
      exact (hhead h.1).imp fun b _ =>
        blamesTuples_of_matchList h.2 fun t ht a b => hargs t ht (h.2 t ht)
  | union members hmembers =>
    rw [TypeExpr.tupleMentions_union, List.flatMap_eq_nil_iff] at h
    refine meets_unify_of_union ?_ rfl
    intro members' _
    exact blamesTuples_of_matchList h fun t ht a b => hmembers t ht (h t ht)
  | arrow params result hparams hresult =>
    rw [TypeExpr.tupleMentions_arrow, List.append_eq_nil_iff, List.flatMap_eq_nil_iff] at h
    refine meets_unify_of_arrow ?_ rfl
    intro params' result' _
    exact (blamesTuples_of_matchList h.1 fun t ht a b => hparams t ht (h.1 t ht)).imp
      fun b _ => hresult h.2

theorem isSpliced_of_unify_ground {f a : TypeExpr} {b' : Binding} (ha : a.IsGround)
    (h : (unify f a b).result = .ok b') : f.isSpliced = false := by
  cases hf : f.isSpliced with
  | false => rfl
  | true =>
    have hne : f ≠ a := by
      rintro rfl
      rw [ha.isSpliced] at hf
      cases hf
    cases f with
    | spread | spreadMap => simp [unify_eq, unifyStep, hne] at h
    | _ => cases hf

end parts

/-! ### The failing anchor -/

section anchors

variable {b b' : Binding} {i : Nat} {anchors : List Anchor}

theorem solveAnchors_append (i : Nat) (xs ys : List Anchor) (b : Binding) :
    solveAnchors i (xs ++ ys) b =
      solveAnchors i xs b >>= fun b => solveAnchors (i + xs.length) ys b := by
  induction xs generalizing i b with
  | nil => rfl
  | cons x xs ih =>
    simp [solveAnchors, ih, Nat.add_assoc, Nat.add_comm 1]

theorem anchor_path_of_solveAnchors : (solveAnchors i anchors b).Meets (fun _ => True)
    fun e => ∃ j path, i ≤ j ∧ e.path = .anchor j :: path := by
  induction anchors generalizing i b with
  | nil => exact trivial
  | cons anchor rest ih =>
    rw [solveAnchors, meets_bind, meets_under]
    refine meets_iff.2 ⟨fun b' _ => ?_, fun e _ => ⟨i, e.path, Nat.le_refl i, rfl⟩⟩
    refine ih.mono (fun _ h => h) ?_
    rintro e ⟨j, path, hj, he⟩
    exact ⟨j, path, by omega, he⟩

/-- What fails at the position of an anchor is that anchor. -/
theorem fails_at_anchor_iff {list : ParameterList} {arguments : List TypeExpr}
    {before after : List Anchor} {anchor : Anchor} {cause : Cause} {path : Path}
    (hbefore : (solveAnchors 0 before .empty).result = .ok b) :
    (matchAnchored list arguments (before ++ anchor :: after)).result =
        .error ⟨cause, .anchor before.length :: path⟩ ↔
      (solveAnchor anchor.formal anchor.actual b).result = .error ⟨cause, path⟩ := by
  rw [matchAnchored, solveAnchors_append, bind_assoc, result_bind, hbefore]
  change ((solveAnchors (0 + before.length) (anchor :: after) b) >>= _).result = _ ↔ _
  rw [Nat.zero_add, solveAnchors, bind_assoc, result_bind, result_under]
  cases h : (solveAnchor anchor.formal anchor.actual b).result with
  | error e =>
    change Except.error (e.under _) = _ ↔ _
    cases e
    simp [Failure.under]
  | ok b' =>
    -- The later anchors and the list fail at other positions.
    refine iff_of_false (fun he => ?_) (by simp)
    have hlater : ((solveAnchors (before.length + 1) after b') >>=
        fun b => matchList unify .param list.slots arguments b).Meets (fun _ => True)
        fun e => ∀ path, e.path ≠ .anchor before.length :: path := by
      rw [meets_bind]
      refine anchor_path_of_solveAnchors.mono
        (fun b _ => atRow_of_matchList.mono (fun _ h => h) ?_) ?_
      · rintro e (hroot | ⟨j, rest, hpath⟩) <;> simp [*]
      · rintro e ⟨j, rest, hj, hpath⟩ path heq
        rw [hpath] at heq
        cases heq
        omega
    exact hlater.of_error he path rfl

/-- The tuple variables of a type that are bound already. -/
def Binding.settled (b : Binding) (t : TypeExpr) : List TupleVar :=
  t.tupleVars.filter fun ts => (b.tuple? ts).isSome

theorem result_solveAnchor (formal actual : TypeExpr) (b : Binding) :
    (solveAnchor formal actual b).result =
      recast (anchorCause (b.settled formal)) (unify formal actual b).result := rfl

theorem anchorCause_of_blamesTuples {bound : List TupleVar} {cause : Cause}
    (h : cause.blamesTuples = false) : anchorCause bound cause =
      if cause.isArity = true ∧ bound ≠ [] then .ambiguousSplit bound else cause := by
  cases cause with
  | arity expected found => cases bound <;> simp [anchorCause, Cause.isArity]
  | conflict subject previous found =>
    cases subject with
    | scalar v => rfl
    | tuple ts => cases h
  | _ => rfl

/-- Of an anchor with two arguments whose constructor is ground and whose first argument matches,
the second argument decides. -/
theorem result_unify_second {c f g x y : TypeExpr} (hground : (TypeExpr.apply c [x, y]).IsGround)
    (hg : g.isSpliced = false) (hx : (unify f x b).result = .ok b') :
    (unify (.apply c [f, g]) (.apply c [x, y]) b).result =
      within (.arg 1) (unify g y b').result := by
  obtain ⟨hc, hargs⟩ := TypeExpr.isGround_apply.1 hground
  have hhead : (unify c c b).result = .ok b := by
    rw [← value?_eq_some_iff, value?_unify_ground hc hc, if_pos rfl]
  have hf : f.isSpliced = false := isSpliced_of_unify_ground (hargs x (by simp)) hx
  have hslots : [f, g].map Slot.ofType = [f, g].map .single := by
    simp [Slot.ofType_eq_single, hf, hg]
  have hctor : ((unify c c b).under .ctor).result = .ok b := by
    rw [result_under, hhead]
    rfl
  have hfirst : ((unify f x b).under (.arg 0)).result = .ok b' := by
    rw [result_under, hx]
    rfl
  have hlist : matchList unify .arg ([f, g].map .single) [x, y] b =
      unifyEach unify .arg 0 [f, g] [x, y] b := by
    rw [matchList_singles]
    exact if_pos rfl
  rw [unify_eq, unifyStep, hslots, result_bind_of_ok (result_log _), result_bind_of_ok hctor, hlist,
    unifyEach, result_bind_of_ok hfirst]
  simp [unifyEach]

end anchors

/-! ### Reported ambiguity -/

/-- Let the second argument `g` of an anchor have no tuple variables, and let all else go through.
The anchor then fails where `g` does and for the same cause, unless `g` fails on a length and
earlier anchors have bound tuple variables of the first argument: this is reported as an ambiguous
split of these variables, and nothing else is. -/
theorem anchor_ambiguous_iff {list : ParameterList} {arguments : List TypeExpr}
    {before after : List Anchor} {c f g x y : TypeExpr} {b b' : Binding}
    (hground : (TypeExpr.apply c [x, y]).IsGround) (hg : g.tupleVars = [])
    (hbefore : (solveAnchors 0 before .empty).result = .ok b)
    (hfirst : (solveAnchors 0 (before ++ [⟨f, x⟩]) .empty).result = .ok b') :
    (∀ cause path, (matchAnchored list arguments
          (before ++ ⟨.apply c [f, g], .apply c [x, y]⟩ :: after)).result =
        .error ⟨cause, .anchor before.length :: path⟩ ↔
      ∃ e, (unify g y b').result = .error e ∧ path = .arg 1 :: e.path ∧
        cause = if e.cause.isArity = true ∧ b.settled f ≠ [] then .ambiguousSplit (b.settled f)
          else e.cause) ∧
    ((∃ tuples path, (matchAnchored list arguments
          (before ++ ⟨.apply c [f, g], .apply c [x, y]⟩ :: after)).result =
        .error ⟨.ambiguousSplit tuples, .anchor before.length :: path⟩) ↔
      b.settled f ≠ [] ∧ ∃ e, (unify g y b').result = .error e ∧ e.cause.isArity = true) := by
  have hmentions : g.tupleMentions = [] := by
    refine List.eq_nil_iff_forall_not_mem.2 fun ts hts => ?_
    simpa [hg] using TypeExpr.mem_tupleVars.2 hts
  have hsettled : b.settled (.apply c [f, g]) = b.settled f := by
    have hc : c.tupleMentions = [] := (TypeExpr.isGround_apply.1 hground).1.tupleMentions
    simp [Binding.settled, TypeExpr.tupleVars, hc, hmentions]
  have hx : (unify f x b).result = .ok b' := by
    rw [solveAnchors_append, result_bind_of_ok hbefore] at hfirst
    simpa [solveAnchors, result_solveAnchor, within_eq_ok_iff, recast_eq_ok_iff] using hfirst
  have hblames (e : Failure) (he : (unify g y b').result = .error e) :
      e.cause.blamesTuples = false := (blamesTuples_of_unify hmentions).of_error he
  have hreport (cause : Cause) (path : Path) : (matchAnchored list arguments
        (before ++ ⟨.apply c [f, g], .apply c [x, y]⟩ :: after)).result =
        .error ⟨cause, .anchor before.length :: path⟩ ↔
      ∃ e, (unify g y b').result = .error e ∧ path = .arg 1 :: e.path ∧
        cause = if e.cause.isArity = true ∧ b.settled f ≠ [] then .ambiguousSplit (b.settled f)
          else e.cause := by
    rw [fails_at_anchor_iff hbefore, result_solveAnchor, hsettled, recast_eq_error_iff,
      result_unify_second hground (TypeExpr.isSpliced_of_tupleMentions hmentions) hx]
    simp only [within_eq_error_iff, Failure.mk.injEq]
    constructor
    · rintro ⟨_, ⟨e, he, rfl⟩, rfl, rfl⟩
      exact ⟨e, he, rfl, anchorCause_of_blamesTuples (hblames e he)⟩
    · rintro ⟨e, he, rfl, rfl⟩
      exact ⟨_, ⟨e, he, rfl⟩, (anchorCause_of_blamesTuples (hblames e he)).symm, rfl⟩
  refine ⟨hreport, ?_⟩
  simp only [hreport]
  constructor
  · rintro ⟨tuples, path, e, he, rfl, hcause⟩
    split at hcause
    · rename_i harity
      exact ⟨harity.2, e, he, harity.1⟩
    · have hnot := hblames e he
      rw [← hcause] at hnot
      cases hnot
  · rintro ⟨hbound, e, he, harity⟩
    exact ⟨_, _, e, he, rfl, (if_pos ⟨harity, hbound⟩).symm⟩

/-- The anchor `c[Ts0, F[int]]` with the type `c[tuple[int], F[int, str]]`.  Behind an anchor for
`Ts0` it is reported as an ambiguous split, but on its own as a wrong number of arguments. -/
theorem anchor_ambiguous_behind :
    (∃ tuples path, (matchAnchored ⟨[]⟩ []
        [⟨.packed ⟨0⟩, .tuple [.named "int"]⟩,
          ⟨.apply (.named "c") [.packed ⟨0⟩, .apply (.named "F") [.named "int"]],
            .apply (.named "c") [.tuple [.named "int"],
              .apply (.named "F") [.named "int", .named "str"]]⟩]).result =
        .error ⟨.ambiguousSplit tuples, .anchor 1 :: path⟩) ∧
      (matchAnchored ⟨[]⟩ []
        [⟨.apply (.named "c") [.packed ⟨0⟩, .apply (.named "F") [.named "int"]],
          .apply (.named "c") [.tuple [.named "int"],
            .apply (.named "F") [.named "int", .named "str"]]⟩]).result =
        .error ⟨.arity (.exactly 1) 2, [.anchor 0, .arg 1]⟩ := by
  have hbehind := @anchor_ambiguous_iff ⟨[]⟩ [] [⟨.packed ⟨0⟩, .tuple [.named "int"]⟩] []
    (.named "c") (.packed ⟨0⟩) (.apply (.named "F") [.named "int"]) (.tuple [.named "int"])
    (.apply (.named "F") [.named "int", .named "str"]) _ _ (by decide) (by decide) rfl rfl
  have halone := @anchor_ambiguous_iff ⟨[]⟩ [] [] []
    (.named "c") (.packed ⟨0⟩) (.apply (.named "F") [.named "int"]) (.tuple [.named "int"])
    (.apply (.named "F") [.named "int", .named "str"]) _ _ (by decide) (by decide) rfl rfl
  exact ⟨hbehind.2.2 ⟨by decide, _, rfl, rfl⟩, (halone.1 _ _).2 ⟨_, rfl, rfl, by decide⟩⟩

/-- Two anchors that agree on `Ts0` are reported as an ambiguous split of it, because `F[int]` has
another length than `F[int, str]`. -/
theorem ambiguous_agreeing :
    (∃ b, (solveAnchors 0 [⟨.packed ⟨0⟩, .tuple [.named "int"]⟩,
        ⟨.packed ⟨0⟩, .tuple [.named "int"]⟩] .empty).result = .ok b) ∧
      (TypeExpr.apply (.named "F") [.named "int"]).tupleVars = [] ∧
      (matchAnchored ⟨[]⟩ []
        [⟨.packed ⟨0⟩, .tuple [.named "int"]⟩,
          ⟨.apply (.named "c") [.packed ⟨0⟩, .apply (.named "F") [.named "int"]],
            .apply (.named "c") [.tuple [.named "int"],
              .apply (.named "F") [.named "int", .named "str"]]⟩]).result =
        .error ⟨.ambiguousSplit [⟨0⟩], [.anchor 1, .arg 1]⟩ :=
  ⟨⟨_, rfl⟩, by decide, rfl⟩

end Polyadic
