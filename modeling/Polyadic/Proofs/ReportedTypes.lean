import Polyadic.Matching.Call
import Polyadic.Proofs.Rules

/-! # The type that a failure is about

A clash of two types, and a conflict on a scalar variable, is about one type of the actual side
(`Cause.offender?`).  The path of the failure leads to just that type: from the arguments or the
anchor down, with the elements of a wrapped tuple as its parts (`offender_at_path`).

One induction carries it, on the weight of the actual type.  In a row of slots the positions of a
run stay those of the whole list, from whichever end the runs are taken (`Leads.first`,
`Leads.after`), so that what is said of a slot holds of the row unchanged. -/

namespace Polyadic

open Attempt

/-! ### Following a path on the actual side -/

namespace TypeExpr

/-- The part of an actual type that one step leads to. -/
def actualPart? : TypeExpr → Segment → Option TypeExpr
  | t, .element i => t.tupleElements?.bind fun elements => elements[i]?
  | .apply head _, .ctor => some head
  | .apply _ args, .arg i => args[i]?
  | .union members, .member i => members[i]?
  | .arrow params _, .callableParam i => params[i]?
  | .arrow _ result, .result => some result
  | _, _ => none

/-- The type at a position inside an actual type. -/
def actualAt? (t : TypeExpr) : Path → Option TypeExpr
  | [] => some t
  | segment :: path => (t.actualPart? segment).bind (·.actualAt? path)

end TypeExpr

/-- The type at a position, seen from the arguments and the anchors of a match. -/
def suppliedAt? (arguments : List TypeExpr) (anchors : List Anchor) : Path → Option TypeExpr
  | .param i :: path => arguments[i]?.bind (·.actualAt? path)
  | .anchor i :: path => anchors[i]?.bind (·.actual.actualAt? path)
  | _ => none

/-- The type of the actual side that a clash, or a conflict on a scalar variable, is about. -/
def Cause.offender? : Cause → Option TypeExpr
  | .mismatch _ actual => some actual
  | .conflict (.scalar _) _ found => some found
  | _ => none

/-- The type that a failure is about is where its path leads. -/
def Failure.PointsBy (locate : Path → Option TypeExpr) (e : Failure) : Prop :=
  ∀ t, e.cause.offender? = some t → locate e.path = some t

/-- The failures of an attempt are about the types that their paths lead to. -/
def Attempt.PointsBy {α : Type} (locate : Path → Option TypeExpr) (x : Attempt α) : Prop :=
  x.Meets (fun _ => True) (·.PointsBy locate)

section paths

variable {locate locate' : Path → Option TypeExpr} {e : Failure} {segment : Segment}

theorem Failure.PointsBy.under (h : e.PointsBy locate')
    (hstep : ∀ path, locate (segment :: path) = locate' path) :
    (e.under segment).PointsBy locate := by
  intro t ht
  rw [path_under, hstep]
  exact h t ht

theorem Failure.pointsBy_of_offender_none (h : e.cause.offender? = none) : e.PointsBy locate := by
  intro t ht
  rw [h] at ht
  cases ht

theorem offender_anchorCause (bound : List TupleVar) (cause : Cause) :
    (anchorCause bound cause).offender? = cause.offender? := by
  unfold anchorCause
  split
  · split <;> rfl
  · split <;> rfl
  · rfl

theorem Attempt.PointsBy.under {α : Type} {x : Attempt α} (h : x.PointsBy locate')
    (hstep : ∀ path, locate (segment :: path) = locate' path) :
    (x.under segment).PointsBy locate := by
  refine meets_under.2 (h.mono (fun _ _ => trivial) ?_)
  intro e he
  exact he.under hstep

end paths

/-! ### The positions of a list -/

/-- The positions from `i` on lead to the types of a list. -/
def Leads (locate : Path → Option TypeExpr) (place : Nat → Segment) (i : Nat)
    (types : List TypeExpr) : Prop :=
  ∀ k t, types[k]? = some t → ∀ path, locate (place (i + k) :: path) = t.actualAt? path

section leads

variable {locate : Path → Option TypeExpr} {place : Nat → Segment} {i : Nat}
  {types : List TypeExpr} {run : Run}

theorem Leads.head {t : TypeExpr} (h : Leads locate place i (t :: types)) (path : Path) :
    locate (place i :: path) = t.actualAt? path := h 0 t rfl path

theorem Leads.tail {t : TypeExpr} (h : Leads locate place i (t :: types)) :
    Leads locate place (i + 1) types := by
  intro k u hu path
  have := h (k + 1) u (by simpa using hu) path
  rwa [show i + (k + 1) = i + 1 + k by omega] at this

theorem Leads.first (h : Leads locate place run.start run.types) (n : Nat) :
    Leads locate place (run.first n).start (run.first n).types := by
  intro k t ht
  rw [Run.first, List.getElem?_take] at ht
  split at ht
  · exact h k t ht
  · cases ht

theorem Leads.after (h : Leads locate place run.start run.types) (n : Nat) :
    Leads locate place (run.after n).start (run.after n).types := by
  intro k t ht
  rw [Run.after, List.getElem?_drop] at ht
  simpa only [Run.after, Nat.add_assoc] using h (n + k) t ht

end leads

/-! ### Rows of slots -/

section rows

variable {u : Unifier} {locate : Path → Option TypeExpr} {place : Nat → Segment} {b : Binding}

/-- Matching with `u` points at what it is about, on a list of types and on everything at most as
heavy. -/
def PointsOn (u : Unifier) (types : List TypeExpr) : Prop :=
  ∀ x ∈ types, ∀ f a b, a.weight ≤ x.weight → (u f a b).PointsBy a.actualAt?

theorem PointsOn.mono {ts us : List TypeExpr} (h : PointsOn u us) (hs : ∀ t ∈ ts, t ∈ us) :
    PointsOn u ts := fun x hx => h x (hs x hx)

theorem pointsBy_of_unifyEach {i : Nat} {formals actuals : List TypeExpr}
    (hu : PointsOn u actuals) (hleads : Leads locate place i actuals) :
    (unifyEach u place i formals actuals b).PointsBy locate := by
  induction formals generalizing i actuals b with
  | nil => simp [unifyEach, Attempt.PointsBy]
  | cons f fs ih =>
    cases actuals with
    | nil => simp [unifyEach, Attempt.PointsBy]
    | cons a as =>
      rw [unifyEach, Attempt.PointsBy, meets_bind]
      have hhead : (u f a b).PointsBy a.actualAt? := hu a (by simp) f a b (Nat.le_refl _)
      refine (hhead.under hleads.head).imp ?_
      intro b' _
      exact ih (hu.mono (by simp +contextual)) hleads.tail

/-- A type that is no application to one argument is what its own failure is about; the constructor
of one that is lies one step further in. -/
theorem pointsBy_of_stripEach {ctor : TypeExpr} {ts : TupleVar} {i : Nat} {actuals : List TypeExpr}
    (hu : PointsOn u actuals) (hleads : Leads locate place i actuals) :
    (stripEach u place ctor ts i actuals b).PointsBy locate := by
  induction actuals generalizing i b with
  | nil => exact trivial
  | cons a as ih =>
    rw [stripEach, Attempt.PointsBy, meets_bind]
    refine Meets.imp (PointsBy.under ?_ hleads.head) fun b' _ =>
      ih (hu.mono (by simp +contextual)) hleads.tail
    split
    · rename_i head operand ha
      have hweight := Nat.le_of_lt (TypeExpr.weight_lt_of_unary ha)
      obtain rfl := TypeExpr.unary?_eq_some_iff.1 ha
      exact PointsBy.under (hu _ (by simp) ctor head b hweight) fun path => rfl
    · exact meets_mismatch.2 fun t ht => ht

theorem pointsBy_of_assignTuple {ts : TupleVar} {contents : List TypeExpr} :
    (assignTuple ts contents b).PointsBy locate :=
  meets_assignTuple (fun _ => trivial) (fun _ => trivial) fun _ _ _ =>
    Failure.pointsBy_of_offender_none rfl

theorem pointsBy_of_matchSlot {slot : Slot} {run : Run} (hu : PointsOn u run.types)
    (hleads : Leads locate place run.start run.types) :
    (matchSlot u place slot run b).PointsBy locate := by
  cases slot with
  | single f => exact pointsBy_of_unifyEach hu hleads
  | spread ts =>
    have hassign : (assignTuple ts run.types b).PointsBy fun path =>
        locate (place run.start :: path) := pointsBy_of_assignTuple
    exact hassign.under fun _ => rfl
  | mapped ctor ts =>
    rw [matchSlot]
    split
    · rw [Attempt.PointsBy, meets_bind, meets_log]
      exact pointsBy_of_unifyEach hu hleads
    · rw [Attempt.PointsBy, meets_bind, meets_log, meets_bind]
      exact (pointsBy_of_stripEach hu hleads).imp fun _ _ => pointsBy_of_assignTuple

/-- A window keeps the positions of the list that it is a part of, whichever slot is taken. -/
theorem pointsBy_of_takeSlot {arguments : List TypeExpr} (hu : PointsOn u arguments) {w : Window}
    (hsub : ∀ t ∈ w.run.types, t ∈ arguments)
    (hleads : Leads locate place w.run.start w.run.types) :
    (takeSlot u place w).Meets (fun w' => (∀ t ∈ w'.run.types, t ∈ arguments) ∧
      Leads locate place w'.run.start w'.run.types) (·.PointsBy locate) := by
  have take {slot : Slot} {run rest : Run} (hrun : ∀ t ∈ run.types, t ∈ w.run.types)
      (hrest : ∀ t ∈ rest.types, t ∈ w.run.types)
      (hleadsRun : Leads locate place run.start run.types)
      (hleadsRest : Leads locate place rest.start rest.types) :
      (matchSlot u place slot run w.binding).Meets (fun _ => (∀ t ∈ rest.types, t ∈ arguments) ∧
        Leads locate place rest.start rest.types) (·.PointsBy locate) := by
    refine (pointsBy_of_matchSlot (hu.mono fun t ht => hsub t (hrun t ht)) hleadsRun).imp ?_
    intro _ _
    exact ⟨fun t ht => hsub t (hrest t ht), hleadsRest⟩
  refine meets_takeSlot (fun _ => ⟨hsub, hleads⟩)
    (fun _ _ _ _ => Failure.pointsBy_of_offender_none rfl) ?front ?back ?stuck
  case front =>
    intro slot rest _ _
    exact take (fun t => List.mem_of_mem_take) (fun t => List.mem_of_mem_drop) (hleads.first _)
      (hleads.after _)
  case back =>
    intro rest slot _ _
    exact take (fun t => List.mem_of_mem_drop) (fun t => List.mem_of_mem_take) (hleads.after _)
      (hleads.first _)
  case stuck =>
    intro slot rest _
    refine meets_evenShare (fun _ => Failure.pointsBy_of_offender_none rfl)
      (fun _ _ => Failure.pointsBy_of_offender_none rfl)
      (fun _ _ => Failure.pointsBy_of_offender_none rfl) fun _ _ _ => ?_
    exact take (fun t => List.mem_of_mem_take) (fun t => List.mem_of_mem_drop) (hleads.first _)
      (hleads.after _)

theorem pointsBy_of_matchList {slots : List Slot} {arguments : List TypeExpr}
    (hu : PointsOn u arguments) (hleads : Leads locate place 0 arguments) :
    (matchList u place slots arguments b).PointsBy locate :=
  meets_matchList
    (I := fun w => (∀ t ∈ w.run.types, t ∈ arguments) ∧
      Leads locate place w.run.start w.run.types)
    (fun _ => Failure.pointsBy_of_offender_none rfl) (fun _ => ⟨fun _ ht => ht, hleads⟩)
    (fun _ hw => pointsBy_of_takeSlot hu hw.1 hw.2) (fun _ _ _ _ => trivial)
    fun _ _ _ _ => Failure.pointsBy_of_offender_none rfl

end rows

/-! ### Two types -/

/-- A match of two types fails on the type that the path of the failure leads to. -/
theorem pointsBy_of_unify {f a : TypeExpr} {b : Binding} : (unify f a b).PointsBy a.actualAt? := by
  induction hn : a.weight using Nat.strongRecOn generalizing f a b with
  | ind n ih =>
    subst hn
    have row {place : Nat → Segment} {slots : List Slot} {arguments : List TypeExpr} {b : Binding}
        (hlighter : ∀ x ∈ arguments, x.weight < a.weight)
        (hpart : ∀ i, a.actualPart? (place i) = arguments[i]?) :
        (matchList unify place slots arguments b).PointsBy a.actualAt? := by
      have hu : PointsOn unify arguments := fun x hx f c b hle =>
        ih c.weight (Nat.lt_of_le_of_lt hle (hlighter x hx)) rfl
      refine pointsBy_of_matchList hu ?_
      intro k t ht path
      rw [Nat.zero_add, TypeExpr.actualAt?, hpart, ht]
      rfl
    refine meets_unify ?var ?packed ?unpack ?apply ?arrow ?union (fun _ _ _ => trivial)
      (fun _ _ => trivial) fun t ht => ht
    case var =>
      intro v _
      exact meets_assignScalar (fun _ => trivial) (fun _ => trivial) fun _ _ _ t ht => ht
    case packed =>
      intro ts elements _ helements
      exact row (fun x => TypeExpr.weight_lt_of_mem_tupleElements helements) fun i => by
        simp [TypeExpr.actualPart?, helements]
    case unpack =>
      intro args us _ ha
      subst ha
      exact row (by simp [TypeExpr.weight]) fun i => rfl
    case apply =>
      intro head args head' args' _ ha
      subst ha
      have hhead : (unify head head' b).PointsBy head'.actualAt? :=
        ih _ TypeExpr.weight_head_lt rfl
      refine hhead.mono (fun b' _ => ?_) fun e he => he.under fun path => rfl
      exact row (fun x => TypeExpr.weight_lt_apply) fun i => rfl
    case arrow =>
      intro params result params' result' _ ha
      subst ha
      refine (row (fun x => TypeExpr.weight_lt_arrow) fun i => rfl).imp fun b' _ => ?_
      have hresult : (unify result result' b').PointsBy result'.actualAt? :=
        ih _ TypeExpr.weight_result_lt rfl
      exact hresult.mono (fun _ _ => trivial) fun e he => he.under fun path => rfl
    case union =>
      intro members members' _ ha
      subst ha
      exact row (fun x => TypeExpr.weight_lt_union) fun i => rfl

/-! ### Anchors and parameter lists -/

theorem pointsBy_of_solveAnchors {locate : Path → Option TypeExpr} {i : Nat}
    {anchors : List Anchor} {b : Binding}
    (hleads : Leads locate .anchor i (anchors.map Anchor.actual)) :
    (solveAnchors i anchors b).PointsBy locate := by
  induction anchors generalizing i b with
  | nil => exact trivial
  | cons anchor rest ih =>
    rw [solveAnchors, Attempt.PointsBy, meets_bind]
    refine Meets.imp (PointsBy.under ?_ hleads.head) fun b' _ => ih hleads.tail
    rw [solveAnchor, Attempt.PointsBy, meets_bind, meets_log, meets_recast]
    refine pointsBy_of_unify.mono (fun _ _ => trivial) ?_
    intro e he t ht
    rw [offender_anchorCause] at ht
    exact he t ht

theorem pointsBy_of_matchAnchored {list : ParameterList} {arguments : List TypeExpr}
    {anchors : List Anchor} :
    (matchAnchored list arguments anchors).PointsBy (suppliedAt? arguments anchors) := by
  have hanchors : Leads (suppliedAt? arguments anchors) .anchor 0 (anchors.map Anchor.actual) := by
    intro k t ht path
    rw [List.getElem?_map] at ht
    obtain ⟨anchor, hanchor, rfl⟩ := Option.map_eq_some_iff.1 ht
    simp [suppliedAt?, hanchor]
  have harguments : Leads (suppliedAt? arguments anchors) .param 0 arguments := by
    intro k t ht path
    simp [suppliedAt?, ht]
  rw [matchAnchored, Attempt.PointsBy, meets_bind]
  refine (pointsBy_of_solveAnchors hanchors).imp fun b _ => ?_
  exact pointsBy_of_matchList (fun _ _ _ _ _ _ => pointsBy_of_unify) harguments

/-- A clash, or a conflict on a scalar variable, has a path that leads to the very type it is
about: from the actual type, from the list of arguments, or from the anchors. -/
theorem offender_at_path (formal actual : TypeExpr) (list : ParameterList)
    (arguments : List TypeExpr) (anchors : List Anchor) (e : Failure) {t : TypeExpr}
    (ht : e.cause.offender? = some t) :
    ((matchType formal actual).result = .error e → actual.actualAt? e.path = some t) ∧
      ((matchParameters list arguments).result = .error e →
        suppliedAt? arguments [] e.path = some t) ∧
      ((matchAnchored list arguments anchors).result = .error e →
        suppliedAt? arguments anchors e.path = some t) := by
  refine ⟨fun he => ?_, fun he => ?_, fun he => ?_⟩
  · exact pointsBy_of_unify.of_error he t ht
  · exact pointsBy_of_matchAnchored.of_error he t ht
  · exact pointsBy_of_matchAnchored.of_error he t ht

/-- `list[*Map[F[T0], Ts0]]` fails inside the constructor of the second argument; the last argument
of `(*Ts0, tuple[int])` is the wrapped `Ts5`, and its element `*Ts5` fails; and an anchor fails on
the result of a callable type, which is to be the type of its parameter. -/
theorem offender_at_path_nested :
    ((matchType (.apply (.named "list") [.spreadMap (.apply (.named "F") [.var ⟨0⟩]) ⟨0⟩])
          (.apply (.named "list") [.apply (.apply (.named "F") [.named "int"]) [.named "str"],
            .apply (.apply (.named "F") [.named "bool"]) [.named "str"]])).result =
        .error ⟨.conflict (.scalar ⟨0⟩) (.named "int") (.named "bool"),
          [.arg 1, .ctor, .arg 0]⟩ ∧
      (TypeExpr.apply (.named "list")
        [.apply (.apply (.named "F") [.named "int"]) [.named "str"],
          .apply (.apply (.named "F") [.named "bool"]) [.named "str"]]).actualAt?
        [.arg 1, .ctor, .arg 0] = some (.named "bool")) ∧
    ((matchParameters ⟨[.spread ⟨0⟩, .single (.tuple [.named "int"])]⟩
          [.named "str", .named "str", .packed ⟨5⟩]).result =
        .error ⟨.mismatch (.named "int") (.spread ⟨5⟩), [.param 2, .element 0]⟩ ∧
      suppliedAt? [.named "str", .named "str", .packed ⟨5⟩] [] [.param 2, .element 0] =
        some (.spread ⟨5⟩)) ∧
    ((matchAnchored ⟨[]⟩ [] [⟨.var ⟨1⟩, .named "int"⟩,
          ⟨.arrow [.var ⟨0⟩] (.var ⟨0⟩), .arrow [.named "int"] (.named "str")⟩]).result =
        .error ⟨.conflict (.scalar ⟨0⟩) (.named "int") (.named "str"),
          [.anchor 1, .result]⟩ ∧
      suppliedAt? [] [⟨.var ⟨1⟩, .named "int"⟩,
          ⟨.arrow [.var ⟨0⟩] (.var ⟨0⟩), .arrow [.named "int"] (.named "str")⟩]
        [.anchor 1, .result] = some (.named "str")) :=
  ⟨⟨rfl, (offender_at_path
      (.apply (.named "list") [.spreadMap (.apply (.named "F") [.var ⟨0⟩]) ⟨0⟩]) _ ⟨[]⟩ [] []
      ⟨.conflict (.scalar ⟨0⟩) (.named "int") _, _⟩ rfl).1 rfl⟩,
    ⟨rfl, (offender_at_path .unknown .unknown ⟨[.spread ⟨0⟩, .single (.tuple [.named "int"])]⟩ _ []
      ⟨.mismatch (.named "int") _, _⟩ rfl).2.1 rfl⟩,
    ⟨rfl, (offender_at_path .unknown .unknown ⟨[]⟩ _ _
      ⟨.conflict (.scalar ⟨0⟩) (.named "int") _, _⟩ rfl).2.2 rfl⟩⟩

end Polyadic
