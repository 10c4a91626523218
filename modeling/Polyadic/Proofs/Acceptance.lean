import Polyadic.Proofs.Inversion
import Polyadic.Proofs.Positions

/-! # Accepted types

A formal type accepts a type under a binding if some match of the two goes through and binds nothing
else than the binding does.  Matches that start from different bindings are compared in this way:
all lists that a row accepts under one binding are cut into runs of the same lengths
(`AcceptsRow.aligned`).  Accepted ground types are equal (`eq_of_accepts`).  Other accepted types
need not be, as a wrapped tuple variable is accepted where a wrapped tuple is, but without spliced
maps the formal type tells no difference between them (`agree_of_accepts`). -/

namespace Polyadic

open Attempt

/-- A match with a formal type goes through, and binds nothing else than `d` does. -/
def TypeExpr.Accepts (d : Binding) (f a : TypeExpr) : Prop :=
  ∃ b b', (unify f a b).value? = some b' ∧ b' ≤ d

/-- A match with a slot goes through, and binds nothing else than `d` does. -/
def Slot.Accepts (d : Binding) (slot : Slot) (types : List TypeExpr) : Prop :=
  ∃ place i b b', (matchSlot unify place slot ⟨i, types⟩ b).value? = some b' ∧ b' ≤ d

/-- A match with a row of slots goes through, and binds nothing else than `d` does. -/
def AcceptsRow (d : Binding) (slots : List Slot) (types : List TypeExpr) : Prop :=
  ∃ place b b', (matchList unify place slots types b).value? = some b' ∧ b' ≤ d

/-! ### Runs -/

section runs

variable {d : Binding} {slots : List Slot} {types types' : List TypeExpr}

/-- Two lists are cut into runs for the slots of a row, so that `P` holds of each slot and its two
runs. -/
inductive Aligned (P : Slot → List TypeExpr → List TypeExpr → Prop) :
    List Slot → List TypeExpr → List TypeExpr → Prop
  | nil : Aligned P [] [] []
  | cons {slot run run' slots types types'} : P slot run run' → Aligned P slots types types' →
    Aligned P (slot :: slots) (run ++ types) (run' ++ types')

theorem Aligned.of_forall₂ {P : Slot → List TypeExpr → List TypeExpr → Prop}
    {Q : Slot → List TypeExpr → Prop} {runs runs' : List (List TypeExpr)}
    (h : List.Forall₂ Q slots runs) (h' : List.Forall₂ Q slots runs')
    (hP : ∀ slot ∈ slots, ∀ run ∈ runs, ∀ run' ∈ runs', Q slot run → Q slot run' →
      P slot run run') : Aligned P slots runs.flatten runs'.flatten := by
  induction h generalizing runs' with
  | nil =>
    cases h'
    exact .nil
  | cons hslot _ ih =>
    obtain _ | ⟨hslot', hrest'⟩ := h'
    refine .cons (hP _ (by simp) _ (by simp) _ (by simp) hslot hslot') (ih hrest' ?_)
    intro slot hs run hrun run' hrun'
    exact hP slot (by simp [hs]) run (by simp [hrun]) run' (by simp [hrun'])

theorem Aligned.eq (h : Aligned (fun _ run run' => run = run') slots types types') :
    types = types' := by
  induction h with
  | nil => rfl
  | cons hrun _ ih => rw [hrun, ih]

/-- The lengths of the runs are those of the sequences that `d` has. -/
theorem AcceptsRow.exists_runs (h : AcceptsRow d slots types) : ∃ runs, types = List.flatten runs ∧
    List.Forall₂ (fun slot run => run.length = slot.lengthIn d.lengthOf ∧ slot.Accepts d run)
      slots runs := by
  obtain ⟨place, b, b', hmatch, hle⟩ := h
  rw [value?_matchList] at hmatch
  split at hmatch
  · obtain ⟨runs, hruns, htaken⟩ :=
      exists_runs_of_rowValue ((measures_lengthOf d).of_le hle) hmatch
    refine ⟨runs, hruns, htaken.imp ?_⟩
    rintro slot run ⟨hlength, i, b₀, b₁, hslot, hle₁⟩
    exact ⟨hlength, place, i, b₀, b₁, hslot, Binding.le_trans hle₁ hle⟩
  · cases hmatch

/-- Two lists that a row accepts are cut into runs of the same lengths. -/
theorem AcceptsRow.aligned {P : Slot → List TypeExpr → List TypeExpr → Prop}
    (h : AcceptsRow d slots types) (h' : AcceptsRow d slots types')
    (hP : ∀ slot ∈ slots, ∀ run run', (∀ t ∈ run, t ∈ types) → (∀ t ∈ run', t ∈ types') →
      run.length = slot.lengthIn d.lengthOf → run'.length = slot.lengthIn d.lengthOf →
      slot.Accepts d run → slot.Accepts d run' → P slot run run') :
    Aligned P slots types types' := by
  obtain ⟨runs, rfl, hruns⟩ := h.exists_runs
  obtain ⟨runs', rfl, hruns'⟩ := h'.exists_runs
  refine .of_forall₂ hruns hruns' fun slot hslot run hrun run' hrun' hQ hQ' => ?_
  exact hP slot hslot run run' (fun t ht => List.mem_flatten.2 ⟨run, hrun, ht⟩)
    (fun t ht => List.mem_flatten.2 ⟨run', hrun', ht⟩) hQ.1 hQ'.1 hQ.2 hQ'.2

end runs

/-! ### What a formal type accepts -/

section inversion

open TypeExpr

variable {d : Binding} {f a head result ctor : TypeExpr} {args types : List TypeExpr} {v : TypeVar}
  {ts : TupleVar} {name : String}

theorem accepts_named (h : (named name).Accepts d a) : a = .named name := by
  obtain ⟨b, b', hmatch, -⟩ := h
  rw [value?_unify_named] at hmatch
  split at hmatch
  · rename_i heq
    exact heq.symm
  · cases hmatch

theorem accepts_var (h : (var v).Accepts d a) : d.scalar? v = some a := by
  obtain ⟨b, b', hmatch, hle⟩ := h
  exact Binding.scalar?_of_le hle (scalar?_of_unify_var hmatch)

theorem accepts_spliced (hf : f.isSpliced = true) (h : f.Accepts d a) : a = f := by
  obtain ⟨b, b', hmatch, -⟩ := h
  exact (eq_of_unify_of_spliced hf hmatch).1.symm

theorem accepts_packed (h : (packed ts).Accepts d a) :
    ∃ elements, a.tupleElements? = some elements ∧ AcceptsRow d [.spread ts] elements := by
  obtain ⟨b, b', hmatch, hle⟩ := h
  rw [value?_unify_packed] at hmatch
  obtain ⟨elements, helements, hmatch⟩ := Option.bind_eq_some_iff.1 hmatch
  exact ⟨elements, helements, _, b, b', hmatch, hle⟩

theorem accepts_tuple (h : (tuple args).Accepts d a) :
    ∃ elements, a.tupleElements? = some elements ∧
      AcceptsRow d (args.map Slot.ofType) elements := by
  obtain ⟨b, b', hmatch, hle⟩ := h
  obtain ⟨place, elements, helements, hmatch⟩ := exists_of_unify_tuple hmatch
  exact ⟨elements, helements, place, b, b', hmatch, hle⟩

theorem accepts_apply (hhead : head ≠ .named tupleName) (h : (apply head args).Accepts d a) :
    ∃ head' args', a = .apply head' args' ∧ head.Accepts d head' ∧
      AcceptsRow d (args.map Slot.ofType) args' := by
  obtain ⟨b, b', hmatch, hle⟩ := h
  obtain ⟨head', args', b₁, rfl, hb₁, hb'⟩ := exists_of_unify_apply hhead hmatch
  exact ⟨head', args', rfl, ⟨b, b₁, hb₁, Binding.le_trans (le_of_matchList hb') hle⟩,
    _, b₁, b', hb', hle⟩

theorem accepts_union (h : (union types).Accepts d a) :
    ∃ types', a = .union types' ∧ AcceptsRow d (types.map Slot.ofType) types' := by
  obtain ⟨b, b', hmatch, hle⟩ := h
  obtain ⟨types', rfl, hrow⟩ := exists_of_unify_union hmatch
  exact ⟨types', rfl, _, b, b', hrow, hle⟩

theorem accepts_arrow (h : (arrow types result).Accepts d a) :
    ∃ types' result', a = .arrow types' result' ∧ AcceptsRow d (types.map Slot.ofType) types' ∧
      result.Accepts d result' := by
  obtain ⟨b, b', hmatch, hle⟩ := h
  obtain ⟨types', result', b₁, rfl, hb₁, hb'⟩ := exists_of_unify_arrow hmatch
  exact ⟨types', result', rfl, ⟨_, b, b₁, hb₁, Binding.le_trans (le_of_unify hb') hle⟩,
    b₁, b', hb', hle⟩

theorem accepts_single (h : (Slot.single f).Accepts d types) (hone : types.length = 1) :
    ∃ a, types = [a] ∧ f.Accepts d a := by
  obtain ⟨a, rfl⟩ := List.length_eq_one_iff.1 hone
  obtain ⟨place, i, b, b', hmatch, hle⟩ := h
  exact ⟨a, rfl, b, b', unify_of_matchSlot_single rfl hmatch, hle⟩

theorem accepts_spread (h : (Slot.spread ts).Accepts d types) : d.tuple? ts = some types := by
  obtain ⟨place, i, b, b', hmatch, hle⟩ := h
  rw [value?_matchSlot_spread] at hmatch
  exact Binding.tuple?_of_le hle (tuple?_of_assignTuple hmatch)

/-- Types that are matched pairwise are accepted pairwise. -/
theorem forall₂_accepts_of_matchPairs {formals : List TypeExpr} {b b' : Binding}
    (hlength : formals.length = types.length)
    (h : matchPairs (formals.zip types) b = some b') (hle : b' ≤ d) :
    List.Forall₂ (Accepts d) formals types := by
  induction formals generalizing types b with
  | nil =>
    obtain rfl := List.eq_nil_of_length_eq_zero hlength.symm
    exact .nil
  | cons f fs ih =>
    obtain _ | ⟨a, as⟩ := types
    · cases hlength
    · obtain ⟨b₁, hb₁, hrest⟩ := Option.bind_eq_some_iff.1 h
      exact .cons ⟨b, b₁, hb₁, Binding.le_trans (le_of_matchPairs hrest) hle⟩
        (ih (by simpa using hlength) hrest)

/-- To strip a constructor off ground types is to match it, applied to their operands. -/
theorem value?_stripEach_eq_matchPairs {place : Nat → Segment} {i : Nat} {b : Binding}
    (hground : ∀ t ∈ types, t.IsGround)
    (hunary : ∀ t ∈ types, ∃ head operand, t = .apply head [operand]) :
    (stripEach unify place ctor ts i types b).value? =
      matchPairs ((mapOver ctor (operands types)).zip types) b := by
  induction types generalizing i b with
  | nil => rfl
  | cons t types ih =>
    obtain ⟨head, operand, rfl⟩ := hunary t (by simp)
    have hoperand : operand.IsGround :=
      ((hground (.apply head [operand]) (by simp)).unary rfl).2
    have hrest (b : Binding) := @ih (i + 1) b (fun t ht => hground t (by simp [ht]))
      fun t ht => hunary t (by simp [ht])
    have hpairs : (mapOver ctor (operands (.apply head [operand] :: types))).zip
        (.apply head [operand] :: types) = (.apply ctor [operand], .apply head [operand]) ::
          (mapOver ctor (operands types)).zip types := rfl
    rw [hpairs, matchPairs, value?_unify_unary hoperand, ← funext hrest]
    simp [stripEach, unary?]

/-- A mapped slot accepts ground types as applications to what its tuple variable is bound to. -/
theorem accepts_mapped (hground : ∀ t ∈ types, t.IsGround)
    (hlength : types.length = (Slot.mapped ctor ts).lengthIn d.lengthOf)
    (h : (Slot.mapped ctor ts).Accepts d types) : ∃ contents, d.tuple? ts = some contents ∧
      List.Forall₂ (Accepts d) (mapOver ctor contents) types := by
  obtain ⟨place, i, b, b', hmatch, hle⟩ := h
  obtain ⟨contents, hcontents, hpairs⟩ : ∃ contents, b'.tuple? ts = some contents ∧
      ∃ b₁, matchPairs ((mapOver ctor contents).zip types) b = some b₁ ∧ b₁ ≤ b' := by
    cases hts : b.tuple? ts with
    | some contents =>
      rw [value?_matchSlot_known hts] at hmatch
      exact ⟨contents, Binding.tuple?_of_le (le_of_matchPairs hmatch) hts, b', hmatch, b'.le_refl⟩
    | none =>
      obtain ⟨hunary, hcontents⟩ := exists_of_matchSlot_open hts hmatch
      rw [value?_matchSlot_open hts] at hmatch
      obtain ⟨b₁, hb₁, hassign⟩ := Option.bind_eq_some_iff.1 hmatch
      rw [value?_stripEach_eq_matchPairs hground hunary] at hb₁
      exact ⟨operands types, hcontents, b₁, hb₁, le_of_assignTuple hassign⟩
  have hd : d.tuple? ts = some contents := Binding.tuple?_of_le hle hcontents
  obtain ⟨b₁, hb₁, hle₁⟩ := hpairs
  refine ⟨contents, hd, forall₂_accepts_of_matchPairs ?_ hb₁ (Binding.le_trans hle₁ hle)⟩
  rw [hlength, Slot.lengthIn_of_tuple rfl, measures_lengthOf d ts contents hd, mapOver,
    List.length_map]

end inversion

/-! ### Ground types -/

section ground

open TypeExpr

variable {d : Binding} {slots : List Slot} {types types' : List TypeExpr}

theorem eq_of_forall₂_accepts {formals : List TypeExpr} (h : List.Forall₂ (Accepts d) formals types)
    (h' : List.Forall₂ (Accepts d) formals types')
    (heq : ∀ f : TypeExpr, ∀ t ∈ types, ∀ t' ∈ types', f.Accepts d t → f.Accepts d t' → t = t') :
    types = types' := by
  induction h generalizing types' with
  | nil =>
    cases h'
    rfl
  | cons hacc _ ih =>
    obtain _ | ⟨hacc', hrest'⟩ := h'
    rw [heq _ _ (by simp) _ (by simp) hacc hacc', ih hrest' fun f t ht t' ht' =>
      heq f t (by simp [ht]) t' (by simp [ht'])]

theorem AcceptsRow.eq (h : AcceptsRow d slots types) (h' : AcceptsRow d slots types')
    (hground : ∀ t ∈ types, t.IsGround) (hground' : ∀ t ∈ types', t.IsGround)
    (heq : ∀ f : TypeExpr, ∀ t ∈ types, ∀ t' ∈ types', f.Accepts d t → f.Accepts d t' → t = t') :
    types = types' := by
  refine (h.aligned h' ?_).eq
  intro slot _ run run' hrun hrun' hlength hlength' hacc hacc'
  cases slot with
  | single f =>
    obtain ⟨a, rfl, ha⟩ := accepts_single hacc hlength
    obtain ⟨a', rfl, ha'⟩ := accepts_single hacc' hlength'
    rw [heq f a (hrun a (by simp)) a' (hrun' a' (by simp)) ha ha']
  | spread ts => exact Option.some.inj ((accepts_spread hacc).symm.trans (accepts_spread hacc'))
  | mapped ctor ts =>
    obtain ⟨contents, hcontents, heach⟩ :=
      accepts_mapped (fun t ht => hground t (hrun t ht)) hlength hacc
    obtain ⟨contents', hcontents', heach'⟩ :=
      accepts_mapped (fun t ht => hground' t (hrun' t ht)) hlength' hacc'
    obtain rfl : contents = contents' := Option.some.inj (hcontents.symm.trans hcontents')
    exact eq_of_forall₂_accepts heach heach' fun f t ht t' ht' =>
      heq f t (hrun t ht) t' (hrun' t' ht')

/-- Two ground types that the same formal type accepts are equal. -/
theorem eq_of_accepts {f x y : TypeExpr} (hx : x.IsGround) (hy : y.IsGround) (h : f.Accepts d x)
    (h' : f.Accepts d y) : x = y := by
  induction hn : x.weight using Nat.strong_induction_on generalizing f x y with
  | _ n ih =>
  subst hn
  have row {slots : List Slot} {types types' : List TypeExpr} (hrow : AcceptsRow d slots types)
      (hrow' : AcceptsRow d slots types') (hlight : ∀ t ∈ types, t.weight < x.weight)
      (hground : ∀ t ∈ types, t.IsGround) (hground' : ∀ t ∈ types', t.IsGround) :
      types = types' :=
    hrow.eq hrow' hground hground' fun f t ht t' ht' hacc hacc' =>
      ih _ (hlight t ht) (hground t ht) (hground' t' ht') hacc hacc' rfl
  have elements {types types' : List TypeExpr} {slots : List Slot}
      (he : x.tupleElements? = some types) (he' : y.tupleElements? = some types')
      (hrow : AcceptsRow d slots types) (hrow' : AcceptsRow d slots types') : x = y := by
    obtain ⟨hxe, hground⟩ := hx.tupleElements he
    obtain ⟨hye, hground'⟩ := hy.tupleElements he'
    rw [hxe, hye, row hrow hrow' (fun t => weight_lt_of_mem_tupleElements he) hground hground']
  cases f with
  | named name => rw [accepts_named h, accepts_named h']
  | var v => exact Option.some.inj ((accepts_var h).symm.trans (accepts_var h'))
  | packed ts =>
    obtain ⟨types, he, hrow⟩ := accepts_packed h
    obtain ⟨types', he', hrow'⟩ := accepts_packed h'
    exact elements he he' hrow hrow'
  | spread ts | spreadMap ctor ts => rw [accepts_spliced rfl h, accepts_spliced rfl h']
  | apply head args =>
    by_cases hhead : head = .named tupleName
    · subst hhead
      obtain ⟨types, he, hrow⟩ := accepts_tuple h
      obtain ⟨types', he', hrow'⟩ := accepts_tuple h'
      exact elements he he' hrow hrow'
    · obtain ⟨head₁, args₁, rfl, hacc, hrow⟩ := accepts_apply hhead h
      obtain ⟨head₂, args₂, rfl, hacc', hrow'⟩ := accepts_apply hhead h'
      rw [isGround_apply] at hx hy
      rw [ih _ weight_head_lt hx.1 hy.1 hacc hacc' rfl,
        row hrow hrow' (fun t => weight_lt_apply) hx.2 hy.2]
  | union members =>
    obtain ⟨types, rfl, hrow⟩ := accepts_union h
    obtain ⟨types', rfl, hrow'⟩ := accepts_union h'
    rw [isGround_union] at hx hy
    rw [row hrow hrow' (fun t => weight_lt_union) hx hy]
  | arrow params result =>
    obtain ⟨types, result₁, rfl, hrow, hacc⟩ := accepts_arrow h
    obtain ⟨types', result₂, rfl, hrow', hacc'⟩ := accepts_arrow h'
    rw [isGround_arrow] at hx hy
    rw [row hrow hrow' (fun t => weight_lt_arrow) hx.1 hy.1,
      ih _ weight_result_lt hx.2 hy.2 hacc hacc' rfl]

end ground

/-! ### Formal types without maps -/

/-- Two matches end alike, and bind nothing else than `d` does. -/
def AgreeBelow (d : Binding) (x y : Option Binding) : Prop := x = y ∧ ∀ b, x = some b → b ≤ d

section agreement

variable {d b : Binding} {x y : Option Binding}

theorem AgreeBelow.some (h : b ≤ d) : AgreeBelow d (some b) (some b) := by
  refine ⟨rfl, ?_⟩
  rintro _ ⟨⟩
  exact h

theorem AgreeBelow.none : AgreeBelow d none none := ⟨rfl, nofun⟩

theorem AgreeBelow.bind {f g : Binding → Option Binding} (h : AgreeBelow d x y)
    (hfg : ∀ b, b ≤ d → AgreeBelow d (f b) (g b)) : AgreeBelow d (x.bind f) (y.bind g) := by
  obtain ⟨rfl, hle⟩ := h
  cases x with
  | none => exact .none
  | some b => exact hfg b (hle b rfl)

theorem AgreeBelow.bind_left {α : Type} {o : Option α} {f g : α → Option Binding}
    (h : ∀ a, AgreeBelow d (f a) (g a)) : AgreeBelow d (o.bind f) (o.bind g) := by
  cases o with
  | none => exact .none
  | some a => exact h a

theorem AgreeBelow.ite {p : Prop} [Decidable p] {x' y' : Option Binding} (h : AgreeBelow d x y)
    (h' : AgreeBelow d x' y') : AgreeBelow d (if p then x else x') (if p then y else y') := by
  split
  · exact h
  · exact h'

theorem agreeBelow_assignScalar {v : TypeVar} {t : TypeExpr} (hv : d.scalar? v = some t)
    (hb : b ≤ d) : AgreeBelow d (assignScalar v t b).value? (assignScalar v t b).value? := by
  cases hbv : b.scalar? v with
  | none =>
    rw [value?_assignScalar_fresh hbv]
    exact .some (Binding.bindScalar_le hb hv)
  | some previous =>
    rw [value?_assignScalar_known hbv]
    exact .ite (.some hb) .none

theorem agreeBelow_assignTuple {ts : TupleVar} {contents : List TypeExpr}
    (hts : d.tuple? ts = some contents) (hb : b ≤ d) :
    AgreeBelow d (assignTuple ts contents b).value? (assignTuple ts contents b).value? := by
  cases hbts : b.tuple? ts with
  | none =>
    rw [value?_assignTuple_fresh hbts]
    exact .some (Binding.bindTuple_le hb hts)
  | some previous =>
    rw [value?_assignTuple_known hbts]
    exact .ite (.some hb) .none

end agreement

section rows

variable {d e : Binding} {slots : List Slot} {types types' : List TypeExpr}
  {place : Nat → Segment}

/-- Two runs that a slot tells no difference between, as long as only what `d` has is bound. -/
structure TakesAlike (d : Binding) (slot : Slot) (run run' : List TypeExpr) : Prop where
  length : run.length = slot.lengthIn d.lengthOf
  length' : run'.length = slot.lengthIn d.lengthOf
  agree : ∀ place i e, e ≤ d → AgreeBelow d (matchSlot unify place slot ⟨i, run⟩ e).value?
    (matchSlot unify place slot ⟨i, run'⟩ e).value?

theorem Aligned.rowLength_eq (h : Aligned (TakesAlike d) slots types types') :
    types.length = rowLength d.lengthOf slots ∧ types'.length = rowLength d.lengthOf slots := by
  induction h with
  | nil => exact ⟨rfl, rfl⟩
  | cons hslot _ ih =>
    rw [List.length_append, List.length_append, hslot.length, hslot.length', ih.1, ih.2]
    exact ⟨rfl, rfl⟩

theorem Aligned.exists_last {P : Slot → List TypeExpr → List TypeExpr → Prop} {slot : Slot}
    (h : Aligned P (slots ++ [slot]) types types') : ∃ run run' us us', types = us ++ run ∧
      types' = us' ++ run' ∧ P slot run run' ∧ Aligned P slots us us' := by
  induction slots generalizing types types' with
  | nil =>
    obtain _ | ⟨hslot, ⟨⟩⟩ := h
    exact ⟨_, _, [], [], by simp, by simp, hslot, .nil⟩
  | cons s slots ih =>
    obtain _ | ⟨hs, hrest⟩ := h
    obtain ⟨run, run', us, us', rfl, rfl, hslot, hus⟩ := ih hrest
    exact ⟨run, run', _, _, (List.append_assoc ..).symm, (List.append_assoc ..).symm, hslot,
      .cons hs hus⟩

/-- Rows are matched alike if each of their slots is: the moves depend on lengths alone. -/
theorem agree_of_rowValue (h : Aligned (TakesAlike d) slots types types') (he : e ≤ d)
    (side : Side) (i : Nat) : AgreeBelow d (rowValue place ⟨side, slots, ⟨i, types⟩, e⟩)
      (rowValue place ⟨side, slots, ⟨i, types'⟩, e⟩) := by
  have hL : Measures d.lengthOf e := (measures_lengthOf d).of_le he
  induction hn : slots.length generalizing side slots types types' i e with
  | zero =>
    obtain rfl := List.eq_nil_of_length_eq_zero hn
    cases h
    exact .some he
  | succ n ih =>
    have hlater {e' : Binding} (he' : e' ≤ d) : Measures d.lengthOf e' :=
      (measures_lengthOf d).of_le he'
    cases hmove : nextMove (fun s => !s.isOpen e) side slots with
    | done =>
      rw [nextMove_eq_done hmove] at hn
      cases hn
    | front slot rest =>
      obtain ⟨rfl, hknown⟩ := nextMove_eq_front hmove
      obtain _ | ⟨hslot, hrest⟩ := h
      have hwidth := Slot.lengthIn_of_known hL (by simpa using hknown)
      rw [rowValue_front_append hmove (hslot.length.trans hwidth),
        rowValue_front_append hmove (hslot.length'.trans hwidth), hslot.length, hslot.length']
      exact (hslot.agree _ _ _ he).bind fun b hb =>
        ih hrest hb _ _ (hlater hb) (by simpa using hn)
    | back rest slot =>
      obtain ⟨rfl, hknown⟩ := nextMove_eq_back hmove
      obtain ⟨run, run', us, us', rfl, rfl, hslot, hrest⟩ := h.exists_last
      have hwidth := Slot.lengthIn_of_known hL (by simpa using hknown)
      rw [rowValue_back_append hmove (hslot.length.trans hwidth),
        rowValue_back_append hmove (hslot.length'.trans hwidth), hrest.rowLength_eq.1,
        hrest.rowLength_eq.2]
      exact (hslot.agree _ _ _ he).bind fun b hb =>
        ih hrest hb _ _ (hlater hb) (by simpa using hn)
    | stuck slot rest =>
      obtain ⟨rfl, hopen, -⟩ := nextMove_eq_stuck hmove
      have hlength := h.rowLength_eq
      obtain _ | ⟨hslot, hrest⟩ := h
      have hshare (run : Run) (width : Nat)
          (hrow : run.length = rowLength d.lengthOf (slot :: rest))
          (hwidth : (evenShare (slot :: rest) run e).value? = some width) :
          width = slot.lengthIn d.lengthOf :=
        evenShare_eq_lengthIn hL (by simp) (by simpa using hopen) hrow hwidth
      rw [rowValue_stuck_append hmove fun width hwidth =>
          (hshare ⟨i, _⟩ width hlength.1 hwidth).trans hslot.length.symm,
        rowValue_stuck_append hmove fun width hwidth =>
          (hshare ⟨i, _⟩ width hlength.2 hwidth).trans hslot.length'.symm, hslot.length,
        hslot.length', value?_evenShare, value?_evenShare, Run.length, Run.length, hlength.1,
        hlength.2]
      refine .bind_left fun _ => (hslot.agree _ _ _ he).bind fun b hb =>
        ih hrest hb _ _ (hlater hb) (by simpa using hn)

theorem agree_of_matchList (h : Aligned (TakesAlike d) slots types types') (he : e ≤ d) :
    AgreeBelow d (matchList unify place slots types e).value?
      (matchList unify place slots types' e).value? := by
  rw [value?_matchList, value?_matchList, h.rowLength_eq.1, h.rowLength_eq.2]
  exact .ite (agree_of_rowValue h he .front 0) .none

/-- A row without maps tells no difference between lists that it accepts, if its single types tell
none between types that they accept. -/
theorem AcceptsRow.agree {ts : List TypeExpr} (hfree : ∀ t ∈ ts, t.MapFree)
    (ih : ∀ s ∈ ts.map Slot.ofType, ∀ t ∈ s.inner?, t.MapFree → ∀ x y, t.Accepts d x →
      t.Accepts d y → ∀ e, e ≤ d → AgreeBelow d (unify t x e).value? (unify t y e).value?)
    (h : AcceptsRow d (ts.map Slot.ofType) types) (h' : AcceptsRow d (ts.map Slot.ofType) types')
    (he : e ≤ d) : AgreeBelow d (matchList unify place (ts.map Slot.ofType) types e).value?
      (matchList unify place (ts.map Slot.ofType) types' e).value? := by
  refine agree_of_matchList (h.aligned h' ?_) he
  intro slot hslot run run' _ _ hlength hlength' hacc hacc'
  refine ⟨hlength, hlength', fun place i e he => ?_⟩
  cases slot with
  | single f =>
    obtain ⟨a, rfl, ha⟩ := accepts_single hacc hlength
    obtain ⟨a', rfl, ha'⟩ := accepts_single hacc' hlength'
    have hagree := ih _ hslot f rfl (TypeExpr.everywhere_inner hfree _ hslot f rfl) a a' ha ha' e he
    simpa [value?_matchSlot_single, matchPairs] using hagree
  | spread ts =>
    obtain rfl : run = run' :=
      Option.some.inj ((accepts_spread hacc).symm.trans (accepts_spread hacc'))
    rw [value?_matchSlot_spread]
    exact agreeBelow_assignTuple (accepts_spread hacc) he
  | mapped ctor ts =>
    obtain ⟨t, ht, hslot⟩ := List.mem_map.1 hslot
    obtain rfl : t = .spreadMap ctor ts := by cases t <;> simp_all [Slot.ofType]
    cases (hfree _ ht).self

end rows

section types

open TypeExpr

variable {d e : Binding}

theorem value?_unify_tuple {a : TypeExpr} {args elements : List TypeExpr} {b : Binding}
    (h : a.tupleElements? = some elements) : (unify (.tuple args) a b).value? =
      (matchList unify .arg (args.map Slot.ofType) elements b).value? := by
  obtain rfl | ⟨us, rfl, rfl⟩ := tupleElements?_eq_some_iff.1 h
  · rw [tuple, tuple, value?_unify_apply, value?_unify_named, if_pos rfl, Option.bind_some]
  · rw [value?_matchList_eq .arg .element, unify_eq]
    rfl

/-- A formal type without maps tells no difference between types that it accepts. -/
theorem agree_of_accepts {f x y : TypeExpr} (hf : f.MapFree) (h : f.Accepts d x)
    (h' : f.Accepts d y) (he : e ≤ d) : AgreeBelow d (unify f x e).value? (unify f y e).value? := by
  induction f using inductSlots generalizing x y e with
  | named name =>
    rw [accepts_named h, accepts_named h', value?_unify_named]
    exact .ite (.some he) .none
  | var v =>
    obtain rfl : x = y := Option.some.inj ((accepts_var h).symm.trans (accepts_var h'))
    rw [value?_unify_var]
    exact agreeBelow_assignScalar (accepts_var h) he
  | packed ts =>
    obtain ⟨types, hx, hrow⟩ := accepts_packed h
    obtain ⟨types', hy, hrow'⟩ := accepts_packed h'
    rw [value?_unify_packed, value?_unify_packed, hx, hy]
    refine @AcceptsRow.agree _ _ _ _ _ [.spread ts] ?_ ?_ hrow hrow' he
    · simp [MapFree, isMap]
    · simp [Slot.ofType, Slot.inner?]
  | spread ts =>
    rw [accepts_spliced rfl h, accepts_spliced rfl h', unify_eq]
    simpa [unifyStep] using AgreeBelow.some he
  | spreadMap ctor ts => cases hf.self
  | apply head args hhead hargs =>
    obtain ⟨-, hfree, hfrees⟩ := everywhere_apply.1 hf
    have hrows (types types' : List TypeExpr) (e : Binding) :=
      @AcceptsRow.agree d e types types' .arg args hfrees
        fun s hs t ht hfree x y hx hy e he => hargs s hs t ht hfree hx hy he
    by_cases htuple : head = .named tupleName
    · subst htuple
      obtain ⟨types, hx, hrow⟩ := accepts_tuple h
      obtain ⟨types', hy, hrow'⟩ := accepts_tuple h'
      rw [← tuple, value?_unify_tuple hx, value?_unify_tuple hy]
      exact hrows _ _ _ hrow hrow' he
    · obtain ⟨head₁, args₁, rfl, hacc, hrow⟩ := accepts_apply htuple h
      obtain ⟨head₂, args₂, rfl, hacc', hrow'⟩ := accepts_apply htuple h'
      rw [value?_unify_apply, value?_unify_apply]
      exact (hhead hfree hacc hacc' he).bind fun b hb => hrows _ _ _ hrow hrow' hb
  | union members hmembers =>
    obtain ⟨types, rfl, hrow⟩ := accepts_union h
    obtain ⟨types', rfl, hrow'⟩ := accepts_union h'
    rw [value?_unify_union, value?_unify_union]
    exact hrow.agree (everywhere_union.1 hf).2
      (fun s hs t ht hfree x y hx hy e he => hmembers s hs t ht hfree hx hy he) hrow' he
  | arrow params result hparams hresult =>
    obtain ⟨-, hfrees, hfree⟩ := everywhere_arrow.1 hf
    obtain ⟨types, result₁, rfl, hrow, hacc⟩ := accepts_arrow h
    obtain ⟨types', result₂, rfl, hrow', hacc'⟩ := accepts_arrow h'
    rw [value?_unify_arrow, value?_unify_arrow]
    exact (hrow.agree hfrees
      (fun s hs t ht hfree x y hx hy e he => hparams s hs t ht hfree hx hy he) hrow' he).bind
      fun b hb => hresult hfree hacc hacc' hb

end types

end Polyadic
