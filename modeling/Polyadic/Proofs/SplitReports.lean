import Polyadic.Proofs.Checking
import Polyadic.Proofs.Lengths
import Polyadic.TypeExpr.Position

/-! # Where an undetermined split is reported

The check of a declaration fails on a list that splices several tuple variables that are not known,
and names at least two of them.  Inside a type the path of the failure leads to that list
(`reports_of_checkSplits`), and so it does from the positional parameters of a function.  From a
keyword parameter it starts at the type of the keyword and does not name it, so that it is the path
behind the missing step that leads to the list (`rejected_path_iff`, `path_without_keyword`). -/

namespace Polyadic

/-! ### Lists inside a type -/

namespace TypeExpr

/-- The list that a node of a type is made of. -/
def list? : TypeExpr → Option (List TypeExpr)
  | .apply _ args => some args
  | .union members => some members
  | .arrow params _ => some params
  | _ => none

/-- The list at a position inside a type. -/
def listAt? (t : TypeExpr) (path : Path) : Option (List TypeExpr) := (t.follow? path).bind list?

theorem listAt?_cons {t p : TypeExpr} {segment : Segment} (h : t.part? segment = some p)
    (path : Path) : t.listAt? (segment :: path) = p.listAt? path := by
  rw [listAt?, follow?, h]
  rfl

theorem not_listAt_keyword {t : TypeExpr} {name : String} {path : Path} {types : List TypeExpr} :
    t.listAt? (.keyword name :: path) ≠ some types := by
  cases t <;> simp [listAt?, follow?, part?]

theorem not_listAt_param {t : TypeExpr} {i : Nat} {path : Path} {types : List TypeExpr} :
    t.listAt? (.param i :: path) ≠ some types := by
  cases t <;> simp [listAt?, follow?, part?]

end TypeExpr

/-- A list splices each of the tuple variables. -/
def Splices (types : List TypeExpr) (tuples : List TupleVar) : Prop :=
  ∀ ts ∈ tuples, ∃ slot ∈ types.map Slot.ofType, slot.tuple? = some ts

instance (types : List TypeExpr) (tuples : List TupleVar) : Decidable (Splices types tuples) :=
  inferInstanceAs (Decidable (∀ ts ∈ tuples, _))

/-- The list at a position of a parameter list; the empty path leads to the whole list. -/
def ParameterList.listAt? (list : ParameterList) : Path → Option (List TypeExpr)
  | [] => some list.toTypes
  | .param i :: path => list.toTypes[i]?.bind (·.listAt? path)
  | _ => none

namespace Signature

/-- A position of a signature leads to a list, inside a keyword parameter or from the positional
parameters. -/
def ListAt (s : Signature) : Path → List TypeExpr → Prop
  | .keyword name :: path, types => ∃ t, (name, t) ∈ s.keywords ∧ t.listAt? path = some types
  | path, types => s.positional.listAt? path = some types

/-- A position of a signature leads to a list that splices each of the tuple variables. -/
def SplicesAt (s : Signature) (path : Path) (tuples : List TupleVar) : Prop :=
  ∃ types, s.ListAt path types ∧ Splices types tuples

/-- None of the keyword parameters is rejected on its own or for the ones before it. -/
def KeywordsFit (s : Signature) : Prop := ∃ known, checkSiblings s.siblings [] = .ok known

end Signature

/-! ### Reports -/

/-- A failure names at least two tuple variables, and its path leads to a list that splices them. -/
def Failure.ReportsSplit (locate : Path → Option (List TypeExpr)) (e : Failure) : Prop :=
  ∃ tuples, e.cause = .ambiguousSplit tuples ∧ 2 ≤ tuples.length ∧ tuples.Nodup ∧
    ∃ types, locate e.path = some types ∧ Splices types tuples

section reports

variable {locate locate' : Path → Option (List TypeExpr)} {e : Failure} {segment : Segment}

theorem Failure.ReportsSplit.under (h : e.ReportsSplit locate')
    (hstep : ∀ path, locate (segment :: path) = locate' path) :
    (e.under segment).ReportsSplit locate := by
  obtain ⟨tuples, hcause, hlength, hnodup, types, htypes, hsplices⟩ := h
  exact ⟨tuples, hcause, hlength, hnodup, types, (hstep e.path).trans htypes, hsplices⟩

theorem failsWith_within_reports {x : Except Failure Unit}
    (h : FailsWith (·.ReportsSplit locate') x)
    (hstep : ∀ path, locate (segment :: path) = locate' path) :
    FailsWith (·.ReportsSplit locate) (within segment x) :=
  FailsWith.within (h.mono fun _ he => he.under hstep)

end reports

theorem mem_unknownTuples {known : Known} {slots : List Slot} {ts : TupleVar}
    (h : ts ∈ unknownTuples known slots) : ∃ slot ∈ slots, slot.tuple? = some ts := by
  rw [unknownTuples, List.mem_eraseDups, List.mem_filter, List.mem_filterMap] at h
  exact h.1

/-! ### Rows of slots -/

section rows

variable {locate : Path → Option (List TypeExpr)} {place : Nat → Segment} {side : Side}
  {start : Nat} {slots : List Slot} {known : Known} {types : List TypeExpr}

/-- What is left of a row, from the given index on, is a part of the list that `locate` finds at the
root, and its positions lead into its slots. -/
structure Covers (locate : Path → Option (List TypeExpr)) (place : Nat → Segment)
    (types : List TypeExpr) (start : Nat) (slots : List Slot) : Prop where
  root : locate [] = some types
  slots_subset : ∀ slot ∈ slots, slot ∈ types.map Slot.ofType
  position : ∀ k slot, slots[k]? = some slot →
    ∀ path, locate (place (start + k) :: path) = slot.toType.listAt? path

theorem Covers.tail {slot : Slot} (h : Covers locate place types start (slot :: slots)) :
    Covers locate place types (start + 1) slots where
  root := h.root
  slots_subset s hs := h.slots_subset s (by simp [hs])
  position k s hs := by
    rw [show start + 1 + k = start + (k + 1) by omega]
    exact h.position (k + 1) s (by simpa using hs)

theorem Covers.dropLast {slot : Slot} (h : Covers locate place types start (slots ++ [slot])) :
    Covers locate place types start slots where
  root := h.root
  slots_subset s hs := h.slots_subset s (by simp [hs])
  position k s hs := by
    refine h.position k s ?_
    rwa [List.getElem?_append_left (List.getElem?_eq_some_iff.1 hs).1]

/-- The lists inside a slot are reported as seen from the slot. -/
def Slot.CheckReports (slot : Slot) : Prop :=
  ∀ known, FailsWith (·.ReportsSplit slot.toType.listAt?) (slot.checkSplits known)

/-- The check keeps the positions of the row, from whichever end it takes a slot, and fails on the
row itself or inside the slot that it takes. -/
theorem reports_of_checkFrom (hslots : ∀ slot ∈ slots, slot.CheckReports)
    (hcovers : Covers locate place types start slots) :
    FailsWith (·.ReportsSplit locate) (checkFrom place side start slots known) := by
  induction side, start, slots, known using checkFrom_induct with
  | nil side start known => exact failsWith_ok ()
  | front side start slots known slot rest hm ih =>
    rw [checkFrom_front hm]
    obtain ⟨rfl, -⟩ := nextMove_eq_front hm
    refine FailsWith.bind ?_ fun _ => ih (fun s hs => hslots s (by simp [hs])) hcovers.tail
    exact failsWith_within_reports (hslots slot (by simp) _) (hcovers.position 0 slot rfl)
  | back side start slots known slot rest hm ih =>
    rw [checkFrom_back hm]
    obtain ⟨rfl, -⟩ := nextMove_eq_back hm
    refine FailsWith.bind ?_ fun _ => ih (fun s hs => hslots s (by simp [hs])) hcovers.dropLast
    exact failsWith_within_reports (hslots slot (by simp) _)
      (hcovers.position rest.length slot (by simp))
  | stuck side start slots known slot rest hm ih =>
    rw [checkFrom_stuck hm]
    split
    · rename_i hseveral
      rintro e ⟨⟩
      refine ⟨_, rfl, hseveral, nodup_eraseDups _, types, hcovers.root, ?_⟩
      intro ts hts
      obtain ⟨s, hs, hsts⟩ := mem_unknownTuples hts
      exact ⟨s, hcovers.slots_subset s hs, hsts⟩
    · obtain ⟨rfl, -⟩ := nextMove_eq_stuck hm
      refine FailsWith.bind ?_ fun _ => ih (fun s hs => hslots s (by simp [hs])) hcovers.tail
      exact failsWith_within_reports (hslots slot (by simp) _) (hcovers.position 0 slot rfl)

/-- A list whose elements are the parts of a type at the positions `place`. -/
theorem reports_of_checkSlots {t : TypeExpr} (hlist : t.list? = some types)
    (hpart : ∀ i, t.part? (place i) = types[i]?)
    (hslots : ∀ slot ∈ types.map Slot.ofType, slot.CheckReports) :
    FailsWith (·.ReportsSplit t.listAt?) (checkSlots place (types.map Slot.ofType) known) := by
  refine reports_of_checkFrom hslots ⟨hlist, fun _ hs => hs, ?_⟩
  intro k slot hslot path
  rw [List.getElem?_map] at hslot
  obtain ⟨u, hu, rfl⟩ := Option.map_eq_some_iff.1 hslot
  rw [Nat.zero_add, Slot.toType_ofType]
  exact TypeExpr.listAt?_cons ((hpart k).trans hu) path

end rows

/-! ### Types and declarations -/

theorem Slot.checkReports_of_inner {slot : Slot} (hplaced : slot.WellPlaced)
    (h : ∀ t ∈ slot.inner?, t.WellPlaced →
      ∀ known, FailsWith (·.ReportsSplit t.listAt?) (t.checkSplits known)) : slot.CheckReports := by
  intro known
  cases slot with
  | single t => exact h t rfl hplaced known
  | spread ts => exact failsWith_ok ()
  | mapped ctor ts => exact failsWith_within_reports (h ctor rfl hplaced known) fun path => rfl

/-- Inside a type, an undetermined split is reported at its list. -/
theorem reports_of_checkSplits {t : TypeExpr} (hplaced : t.WellPlaced) (known : Known) :
    FailsWith (·.ReportsSplit t.listAt?) (t.checkSplits known) := by
  induction t using TypeExpr.inductSlots generalizing known with
  | named | var | packed | spread => exact failsWith_ok ()
  | spreadMap => simp at hplaced
  | apply head args hhead hargs =>
    rw [TypeExpr.wellPlaced_apply] at hplaced
    rw [TypeExpr.checkSplits_apply]
    refine FailsWith.bind (failsWith_within_reports (hhead hplaced.1 known) fun path => rfl)
      fun _ => ?_
    exact reports_of_checkSlots rfl (fun i => rfl) fun slot hslot =>
      Slot.checkReports_of_inner (hplaced.2 slot hslot) (hargs slot hslot)
  | union members hmembers =>
    rw [TypeExpr.wellPlaced_union] at hplaced
    rw [TypeExpr.checkSplits_union]
    exact reports_of_checkSlots rfl (fun i => rfl) fun slot hslot =>
      Slot.checkReports_of_inner (hplaced slot hslot) (hmembers slot hslot)
  | arrow params result hparams hresult =>
    rw [TypeExpr.wellPlaced_arrow] at hplaced
    rw [TypeExpr.checkSplits_arrow]
    refine FailsWith.bind ?_ fun _ =>
      failsWith_within_reports (hresult hplaced.2 known) fun path => rfl
    exact reports_of_checkSlots rfl (fun i => rfl) fun slot hslot =>
      Slot.checkReports_of_inner (hplaced.1 slot hslot) (hparams slot hslot)

theorem reports_of_checkSiblings {siblings : List TypeExpr} (h : ∀ t ∈ siblings, t.WellPlaced)
    (known : Known) : FailsWith (fun e => ∃ t ∈ siblings, e.ReportsSplit t.listAt?)
      (checkSiblings siblings known) := by
  induction siblings generalizing known with
  | nil => exact failsWith_ok known
  | cons t rest ih =>
    refine FailsWith.bind ?_ fun _ => ?_
    · refine (reports_of_checkSplits (h t (by simp)) known).mono fun e he => ?_
      exact ⟨t, by simp, he⟩
    · refine (ih (fun u hu => h u (by simp [hu])) _).mono ?_
      rintro e ⟨u, hu, he⟩
      exact ⟨u, by simp [hu], he⟩

section signatures

variable {s : Signature} {tuples : List TupleVar} {path : Path}

/-- From the positional parameters, an undetermined split is reported at its list. -/
theorem reports_of_positional {list : ParameterList} (h : list.WellPlaced) (known : Known) :
    FailsWith (·.ReportsSplit list.listAt?) (checkSlots .param list.slots known) := by
  have hslots : ∀ slot ∈ list.slots, slot.CheckReports := fun slot hslot =>
    Slot.checkReports_of_inner (h slot hslot) fun t _ ht => reports_of_checkSplits ht
  refine reports_of_checkFrom hslots ⟨rfl, fun slot hslot => ?_, fun k slot hslot path => ?_⟩
  · rw [← Slot.ofType_toType (h slot hslot)]
    exact List.mem_map_of_mem (List.mem_map_of_mem hslot)
  · simp [ParameterList.listAt?, ParameterList.toTypes, hslot]

/-- The path of a failure inside a type is no path of a signature, unless it is empty. -/
theorem Signature.listAt_iff_of_type {t : TypeExpr} {types types' : List TypeExpr}
    (ht : t.listAt? path = some types) :
    s.ListAt path types' ↔ path = [] ∧ types' = s.positional.toTypes := by
  cases path with
  | nil => simp [ListAt, ParameterList.listAt?, eq_comm]
  | cons segment path =>
    cases segment with
    | param i => exact absurd ht TypeExpr.not_listAt_param
    | keyword name => exact absurd ht TypeExpr.not_listAt_keyword
    | _ => simp [ListAt, ParameterList.listAt?]

theorem Signature.check_eq_of_ambiguous (h : s.check = .error ⟨.ambiguousSplit tuples, path⟩) :
    s.positional.check s.siblings = .error ⟨.ambiguousSplit tuples, path⟩ := by
  unfold Signature.check at h
  split at h
  · cases h
  · exact h

/-- A function that is rejected for an undetermined split is so for several tuple variables.  The
path of the report leads to a list that splices them if the keyword parameters fit, and otherwise
only if it is empty and the positional list happens to splice them: it starts at the type of a
keyword parameter then, and leads to the list once the name of the keyword is put in front. -/
theorem rejected_path_iff (hpositional : s.positional.WellPlaced)
    (hkeywords : ∀ t ∈ s.siblings, t.WellPlaced)
    (h : s.check = .error ⟨.ambiguousSplit tuples, path⟩) :
    2 ≤ tuples.length ∧ tuples.Nodup ∧
      (s.SplicesAt path tuples ↔
        s.KeywordsFit ∨ path = [] ∧ Splices s.positional.toTypes tuples) ∧
      (¬s.KeywordsFit →
        ∃ name ∈ s.keywords.map Prod.fst, s.SplicesAt (.keyword name :: path) tuples) := by
  have hcheck := Signature.check_eq_of_ambiguous h
  rw [ParameterList.check] at hcheck
  cases hknown : checkSiblings s.siblings [] with
  | ok known =>
    rw [hknown] at hcheck
    obtain ⟨_, ⟨⟩, hlength, hnodup, types, htypes, hsplices⟩ :=
      reports_of_positional hpositional known _ hcheck
    have hat : s.ListAt path types := by
      unfold Signature.ListAt
      split
      · cases htypes
      · exact htypes
    have hfit : s.KeywordsFit := ⟨known, hknown⟩
    exact ⟨hlength, hnodup, iff_of_true ⟨types, hat, hsplices⟩ (.inl hfit), (absurd hfit ·)⟩
  | error e =>
    rw [hknown] at hcheck
    cases hcheck
    obtain ⟨t, ht, _, ⟨⟩, hlength, hnodup, types, htypes, hsplices⟩ :=
      reports_of_checkSiblings hkeywords [] _ hknown
    have hunfit : ¬s.KeywordsFit := by
      rintro ⟨known, hok⟩
      rw [hknown] at hok
      cases hok
    refine ⟨hlength, hnodup, ?_, fun _ => ?_⟩
    · rw [or_iff_right hunfit, Signature.SplicesAt]
      simp only [Signature.listAt_iff_of_type htypes, and_assoc, exists_and_left, exists_eq_left]
    · obtain ⟨⟨name, t⟩, hkeyword, rfl⟩ := List.mem_map.1 ht
      exact ⟨name, List.mem_map_of_mem hkeyword, types, ⟨t, hkeyword, htypes⟩, hsplices⟩

/-- In `f(*Map[F[*Ts0, *Ts1], Ts2], x: list[*Ts2])` the keyword settles `Ts2`, and the arguments of
`F` cannot be split; that is where the path leads. -/
theorem rejected_path_in_ctor :
    (Signature.mk "f" ⟨[.mapped (.apply (.named "F") [.spread ⟨0⟩, .spread ⟨1⟩]) ⟨2⟩]⟩
        [("x", .apply (.named "list") [.spread ⟨2⟩])] none (.named "int")).check =
      .error ⟨.ambiguousSplit [⟨0⟩, ⟨1⟩], [.param 0, .ctor]⟩ ∧
    (Signature.mk "f" ⟨[.mapped (.apply (.named "F") [.spread ⟨0⟩, .spread ⟨1⟩]) ⟨2⟩]⟩
        [("x", .apply (.named "list") [.spread ⟨2⟩])] none (.named "int")).SplicesAt
      [.param 0, .ctor] [⟨0⟩, ⟨1⟩] :=
  ⟨rfl, (rejected_path_iff (by decide) (by decide) rfl).2.2.1.2 (.inl ⟨[⟨2⟩], rfl⟩)⟩

/-- In `f(x: list[*Ts0, *Ts1])` the arguments of `list` cannot be split.  The path is empty, and so
leads to the positional parameters, of which there are none. -/
theorem path_without_keyword :
    (Signature.mk "f" ⟨[]⟩ [("x", .apply (.named "list") [.spread ⟨0⟩, .spread ⟨1⟩])] none
        (.named "int")).check = .error ⟨.ambiguousSplit [⟨0⟩, ⟨1⟩], []⟩ ∧
      (TypeExpr.apply (.named "list") [.spread ⟨0⟩, .spread ⟨1⟩]).WellPlaced ∧
      ¬(Signature.mk "f" ⟨[]⟩ [("x", .apply (.named "list") [.spread ⟨0⟩, .spread ⟨1⟩])] none
        (.named "int")).SplicesAt [] [⟨0⟩, ⟨1⟩] := by
  refine ⟨rfl, by decide, ?_⟩
  rintro ⟨types, hat, hsplices⟩
  cases hat
  revert hsplices
  decide

end signatures

end Polyadic
