import Polyadic.Matching.Unify
import Polyadic.Proofs.Nodes
import Polyadic.Proofs.Outcome

/-! # Rules for matching

How a match may end, one rule for each function that it is made of.  `meets_unify` and the rules
before it take two types apart; `meets_matchList` is the rule for a row of slots, with an invariant
of the window that each move has to keep (`meets_takeSlot`). -/

namespace Polyadic

open Attempt

variable {post : Binding → Prop} {exc : Failure → Prop} {b : Binding}

/-! ### Assigning -/

theorem meets_assignScalar {v : TypeVar} {t : TypeExpr}
    (fresh : b.scalar? v = none → post (b.bindScalar v t)) (same : b.scalar? v = some t → post b)
    (conflict : ∀ previous, b.scalar? v = some previous → previous ≠ t →
      exc ⟨.conflict (.scalar v) previous t, []⟩) : (assignScalar v t b).Meets post exc := by
  unfold assignScalar
  split
  · rename_i h
    exact fresh h
  · rename_i previous h
    split
    · rename_i heq
      exact same (heq ▸ h)
    · rename_i hne
      exact conflict previous h hne

theorem meets_assignTuple {ts : TupleVar} {contents : List TypeExpr}
    (fresh : b.tuple? ts = none → post (b.bindTuple ts contents))
    (same : b.tuple? ts = some contents → post b)
    (conflict : ∀ previous, b.tuple? ts = some previous → previous ≠ contents →
      exc ⟨.conflict (.tuple ts) (.tuple previous) (.tuple contents), []⟩) :
    (assignTuple ts contents b).Meets post exc := by
  unfold assignTuple
  split
  · rename_i h
    exact fresh h
  · rename_i previous h
    split
    · rename_i heq
      exact same (heq ▸ h)
    · rename_i hne
      exact conflict previous h hne

/-! ### Types one by one -/

section each

variable {u : Unifier} {place : Nat → Segment}

/-- Pairs of types are matched one after another: `I` is kept by each of them. -/
theorem meets_unifyEach {I : List TypeExpr → List TypeExpr → Binding → Prop}
    {formals actuals : List TypeExpr} {i : Nat}
    (step : ∀ i f fs a as b, I (f :: fs) (a :: as) b →
      (u f a b).Meets (I fs as) fun e => exc (e.under (place i)))
    (finish : ∀ fs as b, I fs as b → fs = [] ∨ as = [] → post b) (start : I formals actuals b) :
    (unifyEach u place i formals actuals b).Meets post exc := by
  induction formals generalizing actuals i b with
  | nil =>
    rw [unifyEach]
    · exact finish _ _ _ start (.inl rfl)
    · simp
  | cons f fs ih =>
    cases actuals with
    | nil =>
      rw [unifyEach]
      · exact finish _ _ _ start (.inr rfl)
      · simp
    | cons a as =>
      rw [unifyEach, meets_bind, meets_under]
      exact (step i f fs a as b start).imp fun b hb => ih hb

/-- Constructors are stripped off types one after another: `I` is kept by each of them. -/
theorem meets_stripEach {ctor : TypeExpr} {ts : TupleVar} {I : List TypeExpr → Binding → Prop}
    {actuals : List TypeExpr} {i : Nat}
    (step : ∀ i a as b head operand, I (a :: as) b → a = .apply head [operand] →
      (u ctor head b).Meets (I as) fun e => exc ((e.under .ctor).under (place i)))
    (clash : ∀ i a as b, I (a :: as) b → a.unary? = none →
      exc (.under (place i) ⟨.mismatch (.apply ctor [.spread ts]) a, []⟩))
    (finish : ∀ b, I [] b → post b) (start : I actuals b) :
    (stripEach u place ctor ts i actuals b).Meets post exc := by
  induction actuals generalizing i b with
  | nil => exact finish b start
  | cons a as ih =>
    rw [stripEach, meets_bind, meets_under]
    split
    · rename_i head operand ha
      rw [meets_under]
      have ha := TypeExpr.unary?_eq_some_iff.1 ha
      exact (step i a as b head operand start ha).imp fun b hb => ih hb
    · rename_i ha
      exact clash i a as b start ha

end each

/-! ### Rows of slots -/

section rows

variable {u : Unifier} {place : Nat → Segment} {slots : List Slot} {I : Window → Prop}

/-- The arguments that are left are shared, unless the row is ambiguous or the arguments do not go
up. -/
theorem meets_evenShare {run : Run} {post : Nat → Prop}
    (ambiguous : 1 < (openTuples b slots).length → exc ⟨.ambiguousSplit (openTuples b slots), []⟩)
    (short : (openTuples b slots).length ≤ 1 → run.length < requiredLength b slots →
      exc ⟨.arity (listArity b slots) run.length, []⟩)
    (uneven : (openTuples b slots).length ≤ 1 →
      (run.length - requiredLength b slots) % openCount b slots ≠ 0 →
      exc ⟨.arity (.multipleOf (openCount b slots)) (run.length - requiredLength b slots), []⟩)
    (share : (openTuples b slots).length ≤ 1 → requiredLength b slots ≤ run.length →
      (run.length - requiredLength b slots) % openCount b slots = 0 →
      post ((run.length - requiredLength b slots) / openCount b slots)) :
    (evenShare slots run b).Meets post exc := by
  unfold evenShare
  split
  · rename_i h
    exact ambiguous h
  · rename_i h
    have hone : (openTuples b slots).length ≤ 1 := by omega
    split
    · rename_i hshort
      exact short hone hshort
    · rename_i hlong
      unfold shareEvenly
      split
      · rename_i hmod
        exact uneven hone hmod
      · rename_i hmod
        have hpost := share hone (by omega) (by omega)
        split
        · simpa using hpost
        · exact hpost

/-- One move: `I` is kept by whichever slot is taken. -/
theorem meets_takeSlot {w : Window}
    (done : w.slots = [] → I w)
    (short : ∀ slot ∈ w.slots, slot.isOpen w.binding = false →
      w.run.length < slot.width w.binding →
      exc ⟨.arity (listArity w.binding w.slots) w.run.length, []⟩)
    (front : ∀ slot rest,
      nextMove (fun s => !s.isOpen w.binding) w.side w.slots = .front slot rest →
      slot.width w.binding ≤ w.run.length →
      (matchSlot u place slot (w.run.first (slot.width w.binding)) w.binding).Meets
        (fun b => I ⟨.front, rest, w.run.after (slot.width w.binding), b⟩) exc)
    (back : ∀ rest slot,
      nextMove (fun s => !s.isOpen w.binding) w.side w.slots = .back rest slot →
      slot.width w.binding ≤ w.run.length →
      (matchSlot u place slot (w.run.after (w.run.length - slot.width w.binding)) w.binding).Meets
        (fun b => I ⟨.back, rest, w.run.first (w.run.length - slot.width w.binding), b⟩) exc)
    (stuck : ∀ slot rest,
      nextMove (fun s => !s.isOpen w.binding) w.side w.slots = .stuck slot rest →
      (evenShare w.slots w.run w.binding).Meets (fun width =>
        (matchSlot u place slot (w.run.first width) w.binding).Meets
          (fun b => I ⟨.front, rest, w.run.after width, b⟩) exc) exc) :
    (takeSlot u place w).Meets I exc := by
  unfold takeSlot
  split
  · rename_i hm
    exact done (nextMove_eq_done hm)
  · rename_i slot rest hm
    have hslots := nextMove_eq_front hm
    split
    · rename_i hshort
      exact short slot (by simp [hslots.1]) (by simpa using hslots.2) hshort
    · rename_i hlong
      simpa using front slot rest hm (by omega)
  · rename_i rest slot hm
    have hslots := nextMove_eq_back hm
    split
    · rename_i hshort
      exact short slot (by simp [hslots.1]) (by simpa using hslots.2) hshort
    · rename_i hlong
      simpa using back rest slot hm (by omega)
  · rename_i slot rest hm
    simpa [meets_bind] using stuck slot rest hm

theorem meets_takeSlots {n : Nat} {w : Window}
    (step : ∀ w, I w → (takeSlot u place w).Meets I exc) (start : I w) :
    (takeSlots u place n w).Meets
      (fun w' => I w' ∧ w'.slots.length = w.slots.length - n) exc := by
  induction n generalizing w with
  | zero => exact ⟨start, rfl⟩
  | succ n ih =>
    rw [takeSlots, meets_bind]
    have hstep := step w start
    refine meets_iff.2 ⟨?_, fun e he => hstep.of_error he⟩
    intro w' hw'
    refine (ih (hstep.of_ok hw')).imp fun w'' h => ⟨h.1, ?_⟩
    have hlength := (takeSlot_result hw').2
    omega

/-- A row of slots: `I` holds of the whole row, each move keeps it, and it says enough when no slot
is left. -/
theorem meets_matchList {arguments : List TypeExpr}
    (unfit : ¬(listArity b slots).Admits arguments.length →
      exc ⟨.arity (listArity b slots) arguments.length, []⟩)
    (start : (listArity b slots).Admits arguments.length → I (.whole slots arguments b))
    (step : ∀ w, I w → (takeSlot u place w).Meets I exc)
    (full : ∀ w, I w → w.slots = [] → w.run.types = [] → post w.binding)
    (leftover : ∀ w, I w → w.slots = [] → w.run.types ≠ [] →
      exc ⟨.arity (.exactly (requiredLength w.binding slots)) arguments.length, []⟩) :
    (matchList u place slots arguments b).Meets post exc := by
  unfold matchList
  split
  · rename_i hfit
    rw [meets_bind]
    refine (meets_takeSlots step (start hfit)).imp ?_
    intro w hw
    have hnil : w.slots = [] := by
      have := hw.2
      simp only [Window.whole, Nat.sub_self] at this
      exact List.eq_nil_of_length_eq_zero this
    split
    · rename_i hempty
      exact full w hw.1 hnil (by simpa using hempty)
    · rename_i hne
      exact leftover w hw.1 hnil (by simpa using hne)
  · rename_i hunfit
    exact unfit hunfit

end rows

/-! ### Two types -/

section types

@[simp] theorem meets_unify_var {v : TypeVar} {a : TypeExpr} :
    (unify (.var v) a b).Meets post exc ↔ (assignScalar v a b).Meets post exc := by
  rw [unify_eq, unifyStep]

theorem meets_unify_packed {ts : TupleVar} {a : TypeExpr} {elements : List TypeExpr}
    (h : a.tupleElements? = some elements) :
    (unify (.packed ts) a b).Meets post exc ↔
      (matchList unify .element [.spread ts] elements b).Meets post exc := by
  rw [unify_eq]
  simp [unifyStep, meets_bind, h]

@[simp] theorem meets_unify_apply {head head' : TypeExpr} {args args' : List TypeExpr} :
    (unify (.apply head args) (.apply head' args') b).Meets post exc ↔
      (unify head head' b).Meets
        (fun b => (matchList unify .arg (args.map Slot.ofType) args' b).Meets post exc)
        fun e => exc (e.under .ctor) := by
  rw [unify_eq]
  simp [unifyStep, meets_bind]

@[simp] theorem meets_unify_arrow {params params' : List TypeExpr} {result result' : TypeExpr} :
    (unify (.arrow params result) (.arrow params' result') b).Meets post exc ↔
      (matchList unify .callableParam (params.map Slot.ofType) params' b).Meets
        (fun b => (unify result result' b).Meets post fun e => exc (e.under .result)) exc := by
  rw [unify_eq]
  simp [unifyStep, meets_bind]

@[simp] theorem meets_unify_union {members members' : List TypeExpr} :
    (unify (.union members) (.union members') b).Meets post exc ↔
      (matchList unify .member (members.map Slot.ofType) members' b).Meets post exc := by
  rw [unify_eq]
  simp [unifyStep, meets_bind]

@[simp] theorem meets_unify_named {name : String} :
    (unify (.named name) (.named name) b).Meets post exc ↔ post b := by
  rw [unify_eq]
  simp [unifyStep]

/-- Two types: the variables of the formal type are assigned, types of the same form are taken
apart, and all else is a clash, except that a type meets itself. -/
theorem meets_unify {f a : TypeExpr}
    (var : ∀ v, f = .var v → (assignScalar v a b).Meets post exc)
    (packed : ∀ ts elements, f = .packed ts → a.tupleElements? = some elements →
      (matchList unify .element [.spread ts] elements b).Meets post exc)
    (unpack : ∀ args us, f = .tuple args → a = .packed us →
      (matchList unify .element (args.map Slot.ofType) [.spread us] b).Meets post exc)
    (apply : ∀ head args head' args', f = .apply head args → a = .apply head' args' →
      (unify head head' b).Meets
        (fun b => (matchList unify .arg (args.map Slot.ofType) args' b).Meets post exc)
        fun e => exc (e.under .ctor))
    (arrow : ∀ params result params' result', f = .arrow params result →
      a = .arrow params' result' →
      (matchList unify .callableParam (params.map Slot.ofType) params' b).Meets
        (fun b => (unify result result' b).Meets post fun e => exc (e.under .result)) exc)
    (union : ∀ members members', f = .union members → a = .union members' →
      (matchList unify .member (members.map Slot.ofType) members' b).Meets post exc)
    (named : ∀ name, f = .named name → a = .named name → post b)
    (spliced : f.isSpliced = true → a = f → post b)
    (clash : exc ⟨.mismatch f a, []⟩) : (unify f a b).Meets post exc := by
  rw [unify_eq]
  unfold unifyStep
  split
  · exact var _ rfl
  · split
    · rename_i elements h
      simpa [meets_bind] using packed _ elements rfl h
    · simpa using clash
  · rename_i head args us
    split
    · rename_i h
      exact unpack args us (by rw [h]; rfl) rfl
    · simpa using clash
  · simpa [meets_bind] using apply _ _ _ _ rfl rfl
  · simpa [meets_bind] using arrow _ _ _ _ rfl rfl
  · simpa [meets_bind] using union _ _ rfl rfl
  · rename_i hvar hpacked hunpack happly harrow hunion
    split
    · rename_i heq
      subst heq
      rw [meets_bind, meets_log, meets_pure]
      cases f with
      | named name => exact named name rfl rfl
      | spread | spreadMap => exact spliced rfl rfl
      | var v => exact absurd rfl (hvar v)
      | packed ts => exact absurd rfl (hpacked ts)
      | apply head args => exact absurd rfl (happly head args head args rfl)
      | union members => exact absurd rfl (hunion members members rfl)
      | arrow params result => exact absurd rfl (harrow params result params result rfl)
    · simpa using clash

/-! A formal type of a known form leaves one or two of the cases. -/

theorem meets_unify_of_packed {ts : TupleVar} {a : TypeExpr}
    (packed : ∀ elements, a.tupleElements? = some elements →
      (matchList unify .element [.spread ts] elements b).Meets post exc)
    (clash : exc ⟨.mismatch (.packed ts) a, []⟩) : (unify (.packed ts) a b).Meets post exc := by
  refine meets_unify (by simp) ?_ (by simp [TypeExpr.tuple]) (by simp) (by simp) (by simp) (by simp)
    (by simp [TypeExpr.isSpliced]) clash
  rintro _ elements ⟨⟩ helements
  exact packed elements helements

theorem meets_unify_of_apply {head a : TypeExpr} {args : List TypeExpr}
    (unpack : ∀ us, head = .named TypeExpr.tupleName → a = .packed us →
      (matchList unify .element (args.map Slot.ofType) [.spread us] b).Meets post exc)
    (apply : ∀ head' args', a = .apply head' args' → (unify head head' b).Meets
      (fun b => (matchList unify .arg (args.map Slot.ofType) args' b).Meets post exc)
      fun e => exc (e.under .ctor))
    (clash : exc ⟨.mismatch (.apply head args) a, []⟩) :
    (unify (.apply head args) a b).Meets post exc := by
  refine meets_unify (by simp) (by simp) ?unpack ?apply (by simp) (by simp) (by simp)
    (by simp [TypeExpr.isSpliced]) clash
  case unpack =>
    rintro _ us ⟨⟩ hus
    exact unpack us rfl hus
  case apply =>
    rintro _ _ head' args' ⟨⟩ ha
    exact apply head' args' ha

theorem meets_unify_of_union {members : List TypeExpr} {a : TypeExpr}
    (union : ∀ members', a = .union members' →
      (matchList unify .member (members.map Slot.ofType) members' b).Meets post exc)
    (clash : exc ⟨.mismatch (.union members) a, []⟩) :
    (unify (.union members) a b).Meets post exc := by
  refine meets_unify (by simp) (by simp) (by simp [TypeExpr.tuple]) (by simp) (by simp) ?_ (by simp)
    (by simp [TypeExpr.isSpliced]) clash
  rintro _ members' ⟨⟩ ha
  exact union members' ha

theorem meets_unify_of_arrow {params : List TypeExpr} {result a : TypeExpr}
    (arrow : ∀ params' result', a = .arrow params' result' →
      (matchList unify .callableParam (params.map Slot.ofType) params' b).Meets
        (fun b => (unify result result' b).Meets post fun e => exc (e.under .result)) exc)
    (clash : exc ⟨.mismatch (.arrow params result) a, []⟩) :
    (unify (.arrow params result) a b).Meets post exc := by
  refine meets_unify (by simp) (by simp) (by simp [TypeExpr.tuple]) (by simp) ?_ (by simp) (by simp)
    (by simp [TypeExpr.isSpliced]) clash
  rintro _ _ params' result' ⟨⟩ ha
  exact arrow params' result' ha

end types

end Polyadic
