import Polyadic.Proofs.Inversion
import Polyadic.Proofs.Positions

/-! # Three ways to constrain a list

A list may be constrained by the keyword parameters of a call, by anchors, or by single slots in
front of it.  Keywords and anchors are the same match but for the positions of failures
(`solveAnchors_eq_relocate`).  Slots in front of a list are counted with it: the numbers of
arguments are compared before anything is matched, when fewer lengths are known than after the
anchors.  No match is lost or won by that, because a match that goes through has as many arguments
as its slots go up to (`value?_matchParameters_leading`). -/

namespace Polyadic

open Attempt

/-! ### Relocating failures -/

namespace Attempt

variable {α β : Type}

/-- The same attempt with its failures reported elsewhere. -/
def relocate (f : Failure → Failure) (x : Attempt α) : Attempt α :=
  ⟨x.events, x.result.mapError f⟩

@[simp] theorem relocate_pure (f : Failure → Failure) (a : α) :
    (pure a : Attempt α).relocate f = pure a := rfl

theorem mapError_eq_ok_iff {f : Failure → Failure} {x : Except Failure α} {a : α} :
    x.mapError f = .ok a ↔ x = .ok a := by
  cases x with
  | ok b => exact Iff.rfl
  | error e => exact iff_of_false (by rintro ⟨⟩) (by rintro ⟨⟩)

theorem relocate_of_ok (f : Failure → Failure) {x : Attempt α} {a : α} (h : x.result = .ok a) :
    x.relocate f = x := by
  refine Attempt.ext rfl ?_
  rw [relocate, h]
  rfl

theorem relocate_of_error (f : Failure → Failure) {x : Attempt α} {e : Failure}
    (h : x.result = .error e) : x.relocate f = ⟨x.events, .error (f e)⟩ := by
  refine Attempt.ext rfl ?_
  rw [relocate, h]
  rfl

theorem relocate_bind (f : Failure → Failure) (x : Attempt α) (g : α → Attempt β) :
    (x >>= g).relocate f = x.relocate f >>= fun a => (g a).relocate f := by
  cases h : x.result with
  | ok a =>
    rw [relocate_of_ok f h, bind_of_ok h, bind_of_ok h]
    rfl
  | error e =>
    rw [relocate_of_error f h, bind_of_error h]
    rfl

theorem relocate_under {f : Failure → Failure} {segment segment' : Segment}
    (h : ∀ e : Failure, f (e.under segment) = e.under segment') (x : Attempt α) :
    (x.under segment).relocate f = x.under segment' := by
  refine Attempt.ext rfl ?_
  change (within segment x.result).mapError f = within segment' x.result
  cases x.result with
  | ok a => rfl
  | error e => exact congrArg Except.error (h e)

theorem relocate_eq_self {f : Failure → Failure} {x : Attempt α}
    (h : x.Meets (fun _ => True) fun e => f e = e) : x.relocate f = x := by
  cases hx : x.result with
  | ok a => exact relocate_of_ok f hx
  | error e => rw [relocate_of_error f hx, h.of_error hx, ← hx]

end Attempt

/-- A failure inside a keyword parameter, reported inside the anchor of the same number. -/
def Failure.anchored (names : List String) (e : Failure) : Failure :=
  match e.path with
  | .keyword name :: rest => ⟨e.cause, .anchor (names.idxOf name) :: rest⟩
  | _ => e

theorem Failure.anchored_under {names : List String} (hdistinct : names.Nodup) {k : Nat}
    {name : String} (h : names[k]? = some name) (e : Failure) :
    (e.under (.keyword name)).anchored names = e.under (.anchor k) := by
  obtain ⟨hk, rfl⟩ := List.getElem?_eq_some_iff.1 h
  simp [anchored, under, hdistinct.idxOf_getElem k hk]

theorem Failure.AtRow.anchored {e : Failure} (h : e.AtRow .param) (names : List String) :
    e.anchored names = e := by
  obtain h | ⟨i, rest, h⟩ := h <;> simp [Failure.anchored, h]

/-! ### Keywords as anchors -/

namespace Call

variable {call : Call} {name : String} {keywords : List (String × TypeExpr)}

/-- The types of keyword parameters, each with the argument that is passed under its name. -/
def anchors (call : Call) (keywords : List (String × TypeExpr)) : List Anchor :=
  keywords.filterMap fun (name, formal) => (call.keyword? name).map (Anchor.mk formal)

theorem exists_keyword (h : name ∈ call.keywords.map Prod.fst) :
    ∃ actual, call.keyword? name = some actual := by
  obtain ⟨⟨_, actual⟩, hmem, rfl⟩ := List.mem_map.1 h
  refine Option.ne_none_iff_exists'.1 fun hnone => ?_
  simpa using List.lookup_eq_none_iff.1 hnone _ hmem

theorem anchors_cons {formal actual : TypeExpr} (h : call.keyword? name = some actual)
    (keywords : List (String × TypeExpr)) :
    call.anchors ((name, formal) :: keywords) = ⟨formal, actual⟩ :: call.anchors keywords := by
  simp [anchors, h]

theorem formals_anchors
    (h : ∀ name ∈ keywords.map Prod.fst, name ∈ call.keywords.map Prod.fst) :
    (call.anchors keywords).map Anchor.formal = keywords.map Prod.snd := by
  induction keywords with
  | nil => rfl
  | cons keyword rest ih =>
    obtain ⟨actual, hactual⟩ := exists_keyword (h keyword.1 (by simp))
    rw [anchors_cons hactual, List.map_cons, List.map_cons,
      ih fun name hname => h name (List.mem_cons_of_mem _ hname)]

theorem extraKeywords_eq_nil {s : Signature}
    (h : ∀ name ∈ call.keywords.map Prod.fst, name ∈ s.keywords.map Prod.fst) :
    call.extraKeywords s = [] := by
  refine List.filter_eq_nil_iff.2 ?_
  rintro ⟨name, actual⟩ hmem
  obtain ⟨keyword, hkeyword, hname⟩ := List.mem_map.1 (h name (List.mem_map_of_mem hmem))
  simpa [Signature.declares] using ⟨keyword.2, hname ▸ hkeyword⟩

end Call

/-- Keywords are matched as anchors are; only their failures are inside keywords. -/
theorem solveAnchors_eq_relocate {f : Failure → Failure} {function : String} {call : Call}
    {keywords : List (String × TypeExpr)} {i : Nat}
    (hf : ∀ k name, (keywords.map Prod.fst)[k]? = some name →
      ∀ e : Failure, f (e.under (.keyword name)) = e.under (.anchor (i + k)))
    (h : ∀ name ∈ keywords.map Prod.fst, name ∈ call.keywords.map Prod.fst) (b : Binding) :
    solveAnchors i (call.anchors keywords) b =
      (solveKeywords function call keywords b).relocate f := by
  induction keywords generalizing i b with
  | nil => rfl
  | cons keyword rest ih =>
    obtain ⟨name, formal⟩ := keyword
    obtain ⟨actual, hactual⟩ := Call.exists_keyword (h name (by simp))
    have hrest (b : Binding) : solveAnchors (i + 1) (call.anchors rest) b =
        (solveKeywords function call rest b).relocate f := by
      refine ih ?_ (fun name hname => h name (List.mem_cons_of_mem _ hname)) b
      intro k name hk e
      rw [hf (k + 1) name hk e, Nat.add_assoc, Nat.add_comm 1]
    rw [Call.anchors_cons hactual, solveAnchors, solveKeywords, relocate_bind, hactual,
      relocate_under (hf 0 name rfl), funext hrest]
    rfl

/-! ### Anchors as leading slots -/

section leading

variable {place : Nat → Segment} {b b' c : Binding}

theorem value?_solveAnchors (i : Nat) (anchors : List Anchor) (b : Binding) :
    (solveAnchors i anchors b).value? =
      matchPairs ((anchors.map Anchor.formal).zip (anchors.map Anchor.actual)) b := by
  induction anchors generalizing i b with
  | nil => rfl
  | cons anchor rest ih => simp [solveAnchors, solveAnchor, matchPairs, ih]

/-- The arguments are counted twice, first with the anchors and then without; a match that goes
through has the right number of them both times. -/
theorem admits_of_rowValue (types : List TypeExpr) {slots : List Slot}
    {arguments : List TypeExpr} (hle : b ≤ b')
    (h : rowValue place (.whole slots arguments b') = some c) :
    (listArity b (types.map .single ++ slots)).Admits (types.length + arguments.length) ∧
      (listArity b' slots).Admits arguments.length := by
  have hc : b' ≤ c := le_of_rowValue h
  have hlength : arguments.length = rowLength c.lengthOf slots :=
    length_eq_rowLength (measures_lengthOf c) h
  have hmeasures : Measures c.lengthOf b' := (measures_lengthOf c).of_le hc
  constructor
  · have hrow : types.length + arguments.length =
        rowLength c.lengthOf (types.map .single ++ slots) := by
      rw [rowLength_append, rowLength_singles, hlength]
    rw [hrow]
    exact admits_rowLength (hmeasures.of_le hle) _
  · rw [hlength]
    exact admits_rowLength hmeasures slots

/-- Anchors constrain a list as the same types do in front of it. -/
theorem value?_matchParameters_leading (list : ParameterList) (arguments : List TypeExpr)
    (anchors : List Anchor) :
    (matchParameters ⟨(anchors.map Anchor.formal).map .single ++ list.slots⟩
        (anchors.map Anchor.actual ++ arguments)).value? =
      (matchAnchored list arguments anchors).value? := by
  have hwhole : rowValue .param (.whole ((anchors.map Anchor.formal).map .single ++ list.slots)
        (anchors.map Anchor.actual ++ arguments) .empty) =
      (matchPairs ((anchors.map Anchor.formal).zip (anchors.map Anchor.actual)) .empty).bind
        fun b => rowValue .param (.whole list.slots arguments b) := by
    have hrest (b : Binding) :
        rowValue .param ⟨.front, list.slots, ⟨anchors.length, arguments⟩, b⟩ =
          rowValue .param (.whole list.slots arguments b) := rowValue_eq_of_types rfl
    have hlong : ¬anchors.length + arguments.length < anchors.length := by omega
    rw [Window.whole, rowValue_singles_front]
    simp [Run.length, Run.first, Run.after, hrest, hlong]
  rw [matchParameters_eq, value?_matchList, hwhole, matchAnchored, value?_bind,
    value?_solveAnchors]
  cases matchPairs ((anchors.map Anchor.formal).zip (anchors.map Anchor.actual)) .empty with
  | none => simp
  | some b =>
    rw [Option.bind_some, Option.bind_some, value?_matchList]
    cases hrow : rowValue .param (.whole list.slots arguments b) with
    | none => simp
    | some c =>
      obtain ⟨hleading, hlist⟩ :=
        admits_of_rowValue (anchors.map Anchor.formal) b.empty_le hrow
      have hlength : (anchors.map Anchor.actual ++ arguments).length =
          (anchors.map Anchor.formal).length + arguments.length := by simp
      rw [hlength, if_pos hleading, if_pos hlist]

end leading

/-! ### The three matches -/

section whole

variable {s : Signature} {call : Call}

/-- A call that passes the declared keywords and no others is an anchored match, with the failures
of keywords where those of the anchors would be. -/
theorem matchAnchored_eq_relocate (hdistinct : (s.keywords.map Prod.fst).Nodup)
    (hpassed : ∀ name ∈ s.keywords.map Prod.fst, name ∈ call.keywords.map Prod.fst)
    (hdeclared : ∀ name ∈ call.keywords.map Prod.fst, name ∈ s.keywords.map Prod.fst) :
    matchAnchored s.positional call.positional (call.anchors s.keywords) =
      (matchCall s call).relocate (.anchored (s.keywords.map Prod.fst)) := by
  have hcall : matchCall s call = solveKeywords s.name call s.keywords .empty >>=
      matchList unify .param s.positional.slots call.positional := by
    rw [matchCall, Call.extraKeywords_eq_nil hdeclared]
    rfl
  have hanchors : solveAnchors 0 (call.anchors s.keywords) .empty =
      (solveKeywords s.name call s.keywords .empty).relocate
        (.anchored (s.keywords.map Prod.fst)) := by
    refine solveAnchors_eq_relocate ?_ hpassed .empty
    intro k name hk e
    rw [Failure.anchored_under hdistinct hk, Nat.zero_add]
  have hlist (b : Binding) : (matchList unify .param s.positional.slots call.positional b).relocate
      (.anchored (s.keywords.map Prod.fst)) =
        matchList unify .param s.positional.slots call.positional b :=
    relocate_eq_self (atRow_of_matchList.mono (fun _ h => h) fun e he => he.anchored _)
  rw [matchAnchored, hcall, relocate_bind, hanchors, funext hlist]

end whole

/-- The keyword parameters of a call, the same types as anchors, and the same types as single slots
in front of the positional list constrain it alike.  Keywords and anchors also fail alike, up to the
first step of the position. -/
theorem constrained_alike (s : Signature) (call : Call)
    (hdistinct : (s.keywords.map Prod.fst).Nodup)
    (hnames : ∀ name, name ∈ call.keywords.map Prod.fst ↔ name ∈ s.keywords.map Prod.fst) :
    (matchAnchored s.positional call.positional (call.anchors s.keywords)).result =
      (matchCall s call).result.mapError (.anchored (s.keywords.map Prod.fst)) ∧
    ∀ b,
      ((matchAnchored s.positional call.positional (call.anchors s.keywords)).result = .ok b ↔
        (matchParameters ⟨s.siblings.map .single ++ s.positional.slots⟩
          ((call.anchors s.keywords).map Anchor.actual ++ call.positional)).result = .ok b) ∧
      ((matchCall s call).result = .ok b ↔
        (matchParameters ⟨s.siblings.map .single ++ s.positional.slots⟩
          ((call.anchors s.keywords).map Anchor.actual ++ call.positional)).result = .ok b) := by
  have hpassed : ∀ name ∈ s.keywords.map Prod.fst, name ∈ call.keywords.map Prod.fst :=
    fun name => (hnames name).2
  have hresult : (matchAnchored s.positional call.positional (call.anchors s.keywords)).result =
      (matchCall s call).result.mapError (.anchored (s.keywords.map Prod.fst)) :=
    congrArg Attempt.result
      (matchAnchored_eq_relocate hdistinct hpassed fun name => (hnames name).1)
  have hleading (b : Binding) :
      (matchAnchored s.positional call.positional (call.anchors s.keywords)).result = .ok b ↔
        (matchParameters ⟨s.siblings.map .single ++ s.positional.slots⟩
          ((call.anchors s.keywords).map Anchor.actual ++ call.positional)).result = .ok b := by
    rw [← value?_eq_some_iff, ← value?_eq_some_iff, Signature.siblings,
      ← Call.formals_anchors hpassed, value?_matchParameters_leading]
  refine ⟨hresult, fun b => ⟨hleading b, ?_⟩⟩
  rw [← hleading b, hresult]
  exact mapError_eq_ok_iff.symm

/-- The list `(*Ts0, *Ts1)` with the keywords `x: tuple[*Ts0]` and `y: T0`, passed in the other
order: the keyword `x` settles the split. -/
theorem constrained_alike_succeeding :
    ∃ b, (matchCall
          ⟨"f", ⟨[.spread ⟨0⟩, .spread ⟨1⟩]⟩, [("x", .packed ⟨0⟩), ("y", .var ⟨0⟩)], none, .var ⟨0⟩⟩
          ⟨[.named "int", .named "bool"], [("y", .named "str"), ("x", .tuple [.named "int"])]⟩).result
        = .ok b ∧
      (matchAnchored ⟨[.spread ⟨0⟩, .spread ⟨1⟩]⟩ [.named "int", .named "bool"]
        [⟨.packed ⟨0⟩, .tuple [.named "int"]⟩, ⟨.var ⟨0⟩, .named "str"⟩]).result = .ok b ∧
      (matchParameters
        ⟨[.single (.packed ⟨0⟩), .single (.var ⟨0⟩), .spread ⟨0⟩, .spread ⟨1⟩]⟩
        [.tuple [.named "int"], .named "str", .named "int", .named "bool"]).result = .ok b := by
  have h := constrained_alike
    ⟨"f", ⟨[.spread ⟨0⟩, .spread ⟨1⟩]⟩, [("x", .packed ⟨0⟩), ("y", .var ⟨0⟩)], none, .var ⟨0⟩⟩
    ⟨[.named "int", .named "bool"], [("y", .named "str"), ("x", .tuple [.named "int"])]⟩
    (by decide) (by simp [or_comm])
  have hleading := (h.2 (((Binding.empty.bindTuple ⟨0⟩ [.named "int"]).bindScalar ⟨0⟩
    (.named "str")).bindTuple ⟨1⟩ [.named "bool"])).1.1 rfl
  exact ⟨_, ((h.2 _).2).2 hleading, ((h.2 _).1).2 hleading, hleading⟩

end Polyadic
