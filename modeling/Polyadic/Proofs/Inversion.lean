import Polyadic.Proofs.Hygiene

/-! # What a match needs

A match that goes through tells what its actual side looks like: a type of the same form, single
types for single slots, applications for a mapped slot that is solved, and runs of the right lengths
for the slots of a row. -/

namespace Polyadic

open Attempt

/-! ### Types -/

section shapes

open TypeExpr

variable {f a head result : TypeExpr} {args params types : List TypeExpr} {b b' : Binding}
  {place : Nat → Segment}

/-- A spliced form is matched by itself or by a variable. -/
theorem eq_of_unify_spliced (ha : a.isSpliced = true) (h : (unify f a b).value? = some b') :
    f = a ∨ ∃ v, f = .var v := by
  rw [unify_eq] at h
  cases f <;> cases a <;> simp_all [unifyStep, isSpliced, tupleElements?]

/-- A spliced form matches itself, and binds nothing. -/
theorem eq_of_unify_of_spliced (hf : f.isSpliced = true) (h : (unify f a b).value? = some b') :
    f = a ∧ b' = b := by
  have hvalue : (unify f a b).value? = if f = a then some b else none := by
    rw [unify_eq]
    cases f <;> cases a <;> simp_all [unifyStep, isSpliced]
  rw [hvalue] at h
  split at h
  · rename_i heq
    exact ⟨heq, (Option.some.inj h).symm⟩
  · cases h

theorem isSpliced_of_unify_apply (h : (unify (.apply head args) a b).value? = some b') :
    a.isSpliced = false := by
  cases ha : a.isSpliced with
  | false => rfl
  | true =>
    rcases eq_of_unify_spliced ha h with rfl | ⟨v, hv⟩
    · cases ha
    · cases hv

/-- A wrapped tuple matches the elements of a wrapped tuple. -/
theorem exists_of_unify_tuple (h : (unify (.tuple args) a b).value? = some b') :
    ∃ place elements, a.tupleElements? = some elements ∧
      (matchList unify place (args.map Slot.ofType) elements b).value? = some b' := by
  have hmeets : (unify (.tuple args) a b).Meets (fun b' => ∃ place elements,
      a.tupleElements? = some elements ∧
        (matchList unify place (args.map Slot.ofType) elements b).value? = some b')
      fun _ => True := by
    refine meets_unify_of_apply ?_ ?_ trivial
    · rintro us - rfl
      exact meets_iff.2 ⟨fun b' hb' => ⟨_, _, rfl, value?_eq_some hb'⟩, fun _ _ => trivial⟩
    · rintro head' args' rfl
      refine meets_iff.2 ⟨fun b₁ hb₁ => ?_, fun _ _ => trivial⟩
      refine meets_iff.2 ⟨fun b' hb' => ?_, fun _ _ => trivial⟩
      have hhead := value?_eq_some hb₁
      rw [value?_unify_named] at hhead
      split at hhead
      · rename_i hname
        cases hhead
        subst hname
        exact ⟨_, _, tupleElements?_tuple args', value?_eq_some hb'⟩
      · cases hhead
  exact hmeets.of_ok (value?_eq_some_iff.1 h)

/-- Another application matches an application. -/
theorem exists_of_unify_apply (hhead : head ≠ .named tupleName)
    (h : (unify (.apply head args) a b).value? = some b') :
    ∃ head' args' b₁, a = .apply head' args' ∧ (unify head head' b).value? = some b₁ ∧
      (matchList unify .arg (args.map Slot.ofType) args' b₁).value? = some b' := by
  cases a with
  | apply head' args' =>
    rw [value?_unify_apply] at h
    obtain ⟨b₁, hb₁, hb'⟩ := Option.bind_eq_some_iff.1 h
    exact ⟨head', args', b₁, rfl, hb₁, hb'⟩
  | _ => simp [unify_eq, unifyStep, hhead] at h

theorem exists_of_unify_union (h : (unify (.union types) a b).value? = some b') :
    ∃ types', a = .union types' ∧
      (matchList unify .member (types.map Slot.ofType) types' b).value? = some b' := by
  cases a with
  | union types' => exact ⟨types', rfl, by rwa [value?_unify_union] at h⟩
  | _ => simp [unify_eq, unifyStep] at h

theorem exists_of_unify_arrow (h : (unify (.arrow params result) a b).value? = some b') :
    ∃ params' result' b₁, a = .arrow params' result' ∧
      (matchList unify .callableParam (params.map Slot.ofType) params' b).value? = some b₁ ∧
      (unify result result' b₁).value? = some b' := by
  cases a with
  | arrow params' result' =>
    rw [value?_unify_arrow] at h
    obtain ⟨b₁, hb₁, hb'⟩ := Option.bind_eq_some_iff.1 h
    exact ⟨params', result', b₁, rfl, hb₁, hb'⟩
  | _ => simp [unify_eq, unifyStep] at h

/-! ### Slots -/

theorem tuple?_of_assignTuple {ts : TupleVar} {contents : List TypeExpr}
    (h : (assignTuple ts contents b).value? = some b') : b'.tuple? ts = some contents := by
  cases hts : b.tuple? ts with
  | none =>
    rw [value?_assignTuple_fresh hts, Option.some.injEq] at h
    simp [← h, Binding.tuple?_bindTuple]
  | some known =>
    rw [value?_assignTuple_known hts] at h
    split at h
    · rename_i heq
      cases h
      rw [hts, heq]
    · cases h

theorem scalar?_of_unify_var {v : TypeVar} (h : (unify (.var v) a b).value? = some b') :
    b'.scalar? v = some a := by
  rw [value?_unify_var] at h
  cases hv : b.scalar? v with
  | none =>
    rw [value?_assignScalar_fresh hv, Option.some.injEq] at h
    simp [← h, Binding.scalar?_bindScalar]
  | some previous =>
    rw [value?_assignScalar_known hv] at h
    split at h
    · rename_i heq
      cases h
      rw [hv, heq]
    · cases h

theorem unify_of_matchSlot_single {run : Run} (hrun : run.types = [a])
    (h : (matchSlot unify place (.single f) run b).value? = some b') :
    (unify f a b).value? = some b' := by
  rw [value?_matchSlot_single, hrun, List.zip_cons_cons, matchPairs] at h
  simpa [matchPairs] using h

/-- A spliced form that a single slot holds is one of the arguments. -/
theorem mem_of_matchList_spliced {slots : List Slot} {arguments : List TypeExpr}
    (h : (matchList unify place slots arguments b).value? = some b') {f : TypeExpr}
    (hslot : .single f ∈ slots) (hf : f.isSpliced = true) : f ∈ arguments := by
  have hmeets : (matchList unify place slots arguments b).Meets (fun _ => ∀ slot ∈ slots,
      ∀ f, slot = .single f → f.isSpliced = true → f ∈ arguments) fun _ => True := by
    refine meets_matchList_forall (fun _ _ _ _ h => h) ?_
    intro slot _ run b hrun hone
    refine meets_iff.2 ⟨fun b' hb' => ?_, fun _ _ => trivial⟩
    rintro f rfl hf
    obtain ⟨a, ha⟩ := List.length_eq_one_iff.1 (hone rfl)
    obtain ⟨rfl, -⟩ := eq_of_unify_of_spliced hf (unify_of_matchSlot_single ha (value?_eq_some hb'))
    exact hrun f (by simp [ha])
  exact hmeets.of_ok (value?_eq_some_iff.1 h) _ hslot f rfl hf

/-- The types that formal applications match are not spliced. -/
theorem isSpliced_of_matchPairs {ctor : TypeExpr} {contents : List TypeExpr}
    (hlength : types.length = contents.length)
    (h : matchPairs ((mapOver ctor contents).zip types) b = some b') :
    ∀ t ∈ types, t.isSpliced = false := by
  induction contents generalizing types b with
  | nil => simp [List.eq_nil_of_length_eq_zero hlength]
  | cons x contents ih =>
    cases types with
    | nil => simp
    | cons t types =>
      rw [mapOver, List.map_cons, ← mapOver, List.zip_cons_cons, matchPairs] at h
      obtain ⟨b₁, hb₁, h⟩ := Option.bind_eq_some_iff.1 h
      rw [List.forall_mem_cons]
      exact ⟨isSpliced_of_unify_apply hb₁, ih (by simpa using hlength) h⟩

/-- Constructors are stripped off applications to one argument only. -/
theorem exists_of_stripEach {ctor : TypeExpr} {ts : TupleVar} {i : Nat}
    (h : (stripEach unify place ctor ts i types b).value? = some b') :
    ∀ t ∈ types, ∃ head operand, t = .apply head [operand] := by
  induction types generalizing i b with
  | nil => simp
  | cons t types ih =>
    rw [stripEach, value?_bind, value?_under] at h
    obtain ⟨b₁, hb₁, h⟩ := Option.bind_eq_some_iff.1 h
    rw [List.forall_mem_cons]
    refine ⟨?_, ih h⟩
    cases ht : t.unary? with
    | none => simp [ht] at hb₁
    | some parts => exact ⟨parts.1, parts.2, unary?_eq_some_iff.1 ht⟩

/-- The arguments of the applications to one argument. -/
def TypeExpr.operands (types : List TypeExpr) : List TypeExpr :=
  types.filterMap fun t => t.unary?.map Prod.snd

theorem operands_cons (head operand : TypeExpr) (types : List TypeExpr) :
    operands (.apply head [operand] :: types) = operand :: operands types := rfl

theorem length_operands (h : ∀ t ∈ types, ∃ head operand, t = .apply head [operand]) :
    (operands types).length = types.length := by
  induction types with
  | nil => rfl
  | cons t types ih =>
    obtain ⟨head, operand, rfl⟩ := h t (by simp)
    rw [operands_cons, List.length_cons, List.length_cons, ih fun u hu => h u (by simp [hu])]

/-- A mapped slot that is solved for its tuple variable binds it to the operands of applications. -/
theorem exists_of_matchSlot_open {ctor : TypeExpr} {ts : TupleVar} {run : Run}
    (hts : b.tuple? ts = none)
    (h : (matchSlot unify place (.mapped ctor ts) run b).value? = some b') :
    (∀ t ∈ run.types, ∃ head operand, t = .apply head [operand]) ∧
      b'.tuple? ts = some (operands run.types) := by
  rw [value?_matchSlot_open hts] at h
  obtain ⟨b₁, hb₁, h⟩ := Option.bind_eq_some_iff.1 h
  exact ⟨exists_of_stripEach hb₁, tuple?_of_assignTuple h⟩

/-! ### Rows -/

theorem exists_of_rowValue_front {w : Window} {slot : Slot} {rest : List Slot}
    (h : nextMove (fun s => !s.isOpen w.binding) w.side w.slots = .front slot rest)
    (hm : rowValue place w = some b') :
    (w.run.first (slot.width w.binding)).length = slot.width w.binding ∧ ∃ b₁,
      (matchSlot unify place slot (w.run.first (slot.width w.binding)) w.binding).value? =
        some b₁ ∧
      rowValue place ⟨.front, rest, w.run.after (slot.width w.binding), b₁⟩ = some b' := by
  rw [rowValue_front h] at hm
  split at hm
  · cases hm
  · rename_i hlong
    exact ⟨Run.length_first (by omega), Option.bind_eq_some_iff.1 hm⟩

theorem exists_of_rowValue_back {w : Window} {slot : Slot} {rest : List Slot}
    (h : nextMove (fun s => !s.isOpen w.binding) w.side w.slots = .back rest slot)
    (hm : rowValue place w = some b') :
    (w.run.after (w.run.length - slot.width w.binding)).length = slot.width w.binding ∧ ∃ b₁,
      (matchSlot unify place slot (w.run.after (w.run.length - slot.width w.binding))
        w.binding).value? = some b₁ ∧
      rowValue place ⟨.back, rest, w.run.first (w.run.length - slot.width w.binding), b₁⟩ =
        some b' := by
  rw [rowValue_back h] at hm
  split at hm
  · cases hm
  · rename_i hlong
    refine ⟨?_, Option.bind_eq_some_iff.1 hm⟩
    rw [Run.length_after]
    omega

theorem exists_of_rowValue_stuck {w : Window} {slot : Slot} {rest : List Slot}
    (h : nextMove (fun s => !s.isOpen w.binding) w.side w.slots = .stuck slot rest)
    (hm : rowValue place w = some b') : ∃ width b₁,
      (evenShare w.slots w.run w.binding).value? = some width ∧
      (matchSlot unify place slot (w.run.first width) w.binding).value? = some b₁ ∧
      rowValue place ⟨.front, rest, w.run.after width, b₁⟩ = some b' := by
  rw [rowValue_stuck h] at hm
  obtain ⟨width, hwidth, hm⟩ := Option.bind_eq_some_iff.1 hm
  obtain ⟨b₁, hb₁, hm⟩ := Option.bind_eq_some_iff.1 hm
  exact ⟨width, b₁, hwidth, hb₁, hm⟩

/-- What an even share comes to, when the lengths of all slots go up. -/
theorem evenShare_eq_lengthIn {L : TupleVar → Nat} {slots : List Slot} {slot : Slot} {run : Run}
    {width : Nat} (hL : Measures L b) (hslot : slot ∈ slots) (hopen : slot.isOpen b = true)
    (hlength : run.length = rowLength L slots)
    (h : (evenShare slots run b).value? = some width) : width = slot.lengthIn L := by
  rw [value?_evenShare] at h
  split at h
  · cases h
  · rename_i hone
    split at h
    · cases h
    · split at h
      · cases h
      · have hcount : 0 < openCount b slots := List.countP_pos_iff.2 ⟨slot, hslot, hopen⟩
        rw [hlength, share_eq_lengthIn hL (by omega) hslot hopen, Option.some.injEq,
          Nat.mul_div_cancel_left _ hcount] at h
        exact h.symm

/-- An open slot takes as many arguments as its tuple variable is bound to in the end. -/
theorem length_of_matchSlot_open {L : TupleVar → Nat} {slot : Slot} {run : Run}
    (hL : Measures L b') (hopen : slot.isOpen b = true)
    (h : (matchSlot unify place slot run b).value? = some b') : run.length = slot.lengthIn L := by
  cases slot with
  | single f => cases hopen
  | spread ts =>
    rw [value?_matchSlot_spread] at h
    rw [Slot.lengthIn_of_tuple rfl, hL ts _ (tuple?_of_assignTuple h), Run.length]
  | mapped ctor ts =>
    obtain ⟨us, hus, hnone⟩ := Slot.isOpen_iff.1 hopen
    cases hus
    obtain ⟨hunary, hts⟩ := exists_of_matchSlot_open hnone h
    rw [Slot.lengthIn_of_tuple rfl, hL ts _ hts, length_operands hunary, Run.length]

/-- A row cuts its arguments into runs, one for each slot, whose lengths are known in the end. -/
theorem exists_runs_of_rowValue {L : TupleVar → Nat} {side : Side} {slots : List Slot} {run : Run}
    (hL : Measures L b') (hm : rowValue place ⟨side, slots, run, b⟩ = some b') :
    ∃ runs, run.types = List.flatten runs ∧ List.Forall₂ (fun slot types =>
      types.length = slot.lengthIn L ∧ ∃ i b₀ b₁,
        (matchSlot unify place slot ⟨i, types⟩ b₀).value? = some b₁ ∧ b₁ ≤ b') slots runs := by
  induction hn : slots.length generalizing side slots run b with
  | zero =>
    obtain rfl := List.eq_nil_of_length_eq_zero hn
    rw [rowValue_nil] at hm
    split at hm
    · rename_i hempty
      exact ⟨[], List.isEmpty_iff.1 hempty, .nil⟩
    · cases hm
  | succ n ih =>
    have hb : Measures L b := hL.of_le (le_of_rowValue hm)
    have hcut (k : Nat) : run.types = (run.first k).types ++ (run.after k).types :=
      (List.take_append_drop k run.types).symm
    cases hmove : nextMove (fun s => !s.isOpen b) side slots with
    | done =>
      rw [nextMove_eq_done hmove] at hn
      cases hn
    | front slot rest =>
      obtain ⟨hwidth, b₁, hb₁, hrest⟩ := exists_of_rowValue_front hmove hm
      obtain ⟨rfl, hknown⟩ := nextMove_eq_front hmove
      have hslot := Slot.lengthIn_of_known hb (by simpa using hknown)
      obtain ⟨runs, hruns, htaken⟩ := ih hrest (by simpa using hn)
      refine ⟨(run.first (slot.width b)).types :: runs, ?_,
        .cons ⟨hwidth.trans hslot.symm, ?_⟩ htaken⟩
      · rw [List.flatten_cons, ← hruns]
        exact hcut _
      · exact ⟨_, _, _, hb₁, le_of_rowValue hrest⟩
    | back rest slot =>
      obtain ⟨hwidth, b₁, hb₁, hrest⟩ := exists_of_rowValue_back hmove hm
      obtain ⟨rfl, hknown⟩ := nextMove_eq_back hmove
      have hslot := Slot.lengthIn_of_known hb (by simpa using hknown)
      obtain ⟨runs, hruns, htaken⟩ := ih hrest (by simpa using hn)
      refine ⟨runs ++ [(run.after (run.length - slot.width b)).types], ?_,
        List.rel_append htaken (.cons ⟨hwidth.trans hslot.symm, ?_⟩ .nil)⟩
      · rw [List.flatten_append, ← hruns, List.flatten_singleton]
        exact hcut _
      · exact ⟨_, _, _, hb₁, le_of_rowValue hrest⟩
    | stuck slot rest =>
      obtain ⟨width, b₁, -, hb₁, hrest⟩ := exists_of_rowValue_stuck hmove hm
      obtain ⟨rfl, hopen, -⟩ := nextMove_eq_stuck hmove
      have hslot := length_of_matchSlot_open (hL.of_le (le_of_rowValue hrest))
        (by simpa using hopen) hb₁
      obtain ⟨runs, hruns, htaken⟩ := ih hrest (by simpa using hn)
      refine ⟨(run.first width).types :: runs, ?_, .cons ⟨hslot, ?_⟩ htaken⟩
      · rw [List.flatten_cons, ← hruns]
        exact hcut _
      · exact ⟨_, _, _, hb₁, le_of_rowValue hrest⟩

/-- A row takes as many arguments as its slots go up to, with the lengths that are known in the
end. -/
theorem length_eq_rowLength {L : TupleVar → Nat} {side : Side} {slots : List Slot} {run : Run}
    (hL : Measures L b') (hm : rowValue place ⟨side, slots, run, b⟩ = some b') :
    run.length = rowLength L slots := by
  obtain ⟨runs, hruns, htaken⟩ := exists_runs_of_rowValue hL hm
  rw [Run.length, hruns]
  clear hruns hm
  induction htaken with
  | nil => rfl
  | cons hslot _ ih => rw [List.flatten_cons, List.length_append, hslot.1, ih, rowLength_cons]

end shapes

end Polyadic
