import Polyadic.Proofs.Checking
import Polyadic.Proofs.Realization

/-! # When a call can be ambiguous

A call with ground arguments can be left with an ambiguous split exactly where a replay of the
parameter list can (`exists_ambiguous_iff`).  The check of the declaration is to exclude this, and
does so for confined lists (`never_ambiguous_iff`); other lists may escape it
(`escapesCheck_unconfined`), or be rejected without need (`overRejected_unconfined`).  On simple
lists, which contain no spliced maps and are confined for their form, the check and the calls name
the same tuple variables (`check_ambiguous_iff`). -/

namespace Polyadic

open Attempt

section calls

variable {list : ParameterList} {tuples : List TupleVar}

/-- What a call with ground arguments may find ambiguous is what a replay may be stuck with. -/
theorem exists_ambiguous_iff (hplaced : list.WellPlaced) :
    (∃ arguments e, (∀ t ∈ arguments, t.IsGround) ∧
      (matchParameters list arguments).result = .error e ∧ e.cause = .ambiguousSplit tuples) ↔
    .error tuples ∈ list.replay := by
  constructor
  · rintro ⟨arguments, e, hground, he, hcause⟩
    have hfollows : Follows list.replay (matchParameters list arguments) :=
      follows_of_matchParameters (fun _ _ => .inl trivial) fun (_ : True) => hground
    exact hfollows.of_error he tuples hcause
  · intro h
    obtain ⟨arguments, hground, hrealizes⟩ := exists_arguments_of_mem_replay hplaced h
    obtain ⟨e, he, hcause⟩ := hrealizes.exists_error
    exact ⟨arguments, e, hground, he, hcause⟩

end calls

/-! ### Accepted lists -/

/-- No replay of a list is left with an ambiguous split. -/
def ParameterList.isDetermined (list : ParameterList) : Bool := list.replay.all Except.isOk

theorem ParameterList.isDetermined_iff {list : ParameterList} :
    list.isDetermined = true ↔ ∀ tuples, .error tuples ∉ list.replay := by
  rw [isDetermined, List.all_eq_true]
  constructor
  · intro h tuples htuples
    cases h _ htuples
  · intro h o ho
    cases o with
    | ok K => rfl
    | error tuples => exact absurd ho (h tuples)

/-- No call of a list with ground arguments is left with an ambiguous split. -/
def ParameterList.NeverAmbiguous (list : ParameterList) : Prop :=
  ∀ arguments, (∀ t ∈ arguments, t.IsGround) →
    ∀ e, (matchParameters list arguments).result = .error e →
      ∀ tuples, e.cause ≠ .ambiguousSplit tuples

/-- An accepted list is never ambiguous in a call exactly if it is determined, as it is if it is
confined. -/
theorem never_ambiguous_iff {list : ParameterList} (hplaced : list.WellPlaced)
    (haccepted : list.check [] = .ok ()) :
    (list.NeverAmbiguous ↔ list.isDetermined = true) ∧
      (list.Confined → list.isDetermined = true) := by
  rw [ParameterList.isDetermined_iff]
  constructor
  · constructor
    · intro h tuples htuples
      obtain ⟨arguments, e, hground, he, hcause⟩ := (exists_ambiguous_iff hplaced).2 htuples
      exact h arguments hground e he tuples hcause
    · intro h arguments hground e he tuples hcause
      have hreplay : .error tuples ∈ list.replay :=
        (exists_ambiguous_iff hplaced).1 ⟨arguments, e, hground, he, hcause⟩
      exact h tuples hreplay
  · -- A replay that is stuck would be named by the check, which accepts the list.
    intro hconfined tuples htuples
    obtain ⟨e, he, -⟩ := (check_eq_error_iff hplaced hconfined).2 htuples
    rw [haccepted] at he
    cases he

/-- The list `(T0, Ts0, *Ts0, *Map[list, Ts1])` is accepted, and no call of it is ambiguous. -/
theorem never_ambiguous_map :
    ParameterList.NeverAmbiguous
      ⟨[.single (.var ⟨0⟩), .single (.packed ⟨0⟩), .spread ⟨0⟩, .mapped (.named "list") ⟨1⟩]⟩ := by
  have hplaced : ParameterList.WellPlaced
      ⟨[.single (.var ⟨0⟩), .single (.packed ⟨0⟩), .spread ⟨0⟩, .mapped (.named "list") ⟨1⟩]⟩ := by
    decide
  have h := never_ambiguous_iff hplaced rfl
  exact h.1.2 (h.2 (by decide))

/-- The check accepts a list that a call with ground arguments finds ambiguous. -/
def ParameterList.EscapesCheck (list : ParameterList) : Prop :=
  list.WellPlaced ∧ list.check [] = .ok () ∧ ¬list.NeverAmbiguous

theorem escapesCheck_of_call {list : ParameterList} (arguments : List TypeExpr)
    {tuples : List TupleVar} {path : Path} (hplaced : list.WellPlaced)
    (haccepted : list.check [] = .ok ()) (hground : ∀ t ∈ arguments, t.IsGround)
    (h : (matchParameters list arguments).result = .error ⟨.ambiguousSplit tuples, path⟩) :
    list.EscapesCheck := by
  refine ⟨hplaced, haccepted, ?_⟩
  intro hnever
  exact hnever arguments hground _ h tuples rfl

/-- Confinement cannot be left out.  The constructor of `*Map[F[*Ts0, *Ts1], Ts0]` is matched before
`Ts0` is known, and that of the map in `G[*Map[F[*Ts1], Ts0]], *Ts1, *Ts2` is not matched at all if
`Ts0` is empty.  In `(Ts0) -> H[*Ts0, G[*Ts1, *Ts2], Ts1]` and `H[Ts0][*Ts0, G[*Ts1, *Ts2], Ts1]`, a
match that knows `Ts0` comes to `G` before it knows `Ts1`. -/
theorem escapesCheck_unconfined :
    ParameterList.EscapesCheck
      ⟨[.mapped (.apply (.named "F") [.spread ⟨0⟩, .spread ⟨1⟩]) ⟨0⟩]⟩ ∧
    ParameterList.EscapesCheck
      ⟨[.single (.apply (.named "G") [.spreadMap (.apply (.named "F") [.spread ⟨1⟩]) ⟨0⟩]),
        .spread ⟨1⟩, .spread ⟨2⟩]⟩ ∧
    ParameterList.EscapesCheck
      ⟨[.single (.arrow [.packed ⟨0⟩] (.apply (.named "H")
        [.spread ⟨0⟩, .apply (.named "G") [.spread ⟨1⟩, .spread ⟨2⟩], .packed ⟨1⟩]))]⟩ ∧
    ParameterList.EscapesCheck
      ⟨[.single (.apply (.apply (.named "H") [.packed ⟨0⟩])
        [.spread ⟨0⟩, .apply (.named "G") [.spread ⟨1⟩, .spread ⟨2⟩], .packed ⟨1⟩])]⟩ := by
  refine ⟨?map, ?unmatched, ?result, ?arguments⟩
  case map =>
    exact escapesCheck_of_call
      [.apply (.apply (.named "F") [.named "int"]) [.named "str"]]
      (by decide) rfl (by simp) rfl
  case unmatched =>
    exact escapesCheck_of_call [.apply (.named "G") [], .named "int"]
      (by decide) rfl (by simp) rfl
  case result =>
    exact escapesCheck_of_call
      [.arrow [.tuple [.named "int"]] (.apply (.named "H")
        [.named "int", .apply (.named "G") [.named "int"], .tuple [.named "int"]])]
      (by decide) rfl (by simp [TypeExpr.tuple]) rfl
  case arguments =>
    exact escapesCheck_of_call
      [.apply (.apply (.named "H") [.tuple [.named "int"]])
        [.named "int", .apply (.named "G") [.named "int"], .tuple [.named "int"]]]
      (by decide) rfl (by simp [TypeExpr.tuple]) rfl

/-! ### Rejected lists -/

section rejected

variable {list : ParameterList}

/-- Some call of a list, whatever its arguments are, is left with an ambiguous split. -/
def ParameterList.CanBeAmbiguous (list : ParameterList) : Prop :=
  ∃ arguments e, (matchParameters list arguments).result = .error e ∧ e.IsAmbiguous

/-- A list without spliced maps is ambiguous in a call only if a replay of it is stuck. -/
theorem ParameterList.CanBeAmbiguous.isDetermined_eq_false (h : list.CanBeAmbiguous)
    (hfree : ∀ s ∈ list.slots, s.toType.MapFree) : list.isDetermined = false := by
  obtain ⟨arguments, e, he, tuples, hcause⟩ := h
  have hfollows : Follows list.replay (matchParameters list arguments) :=
    follows_of_matchParameters (fun s hs => .inr (hfree s hs)) False.elim
  rw [← Bool.not_eq_true, isDetermined_iff]
  intro hnone
  exact hnone tuples (hfollows.of_error he tuples hcause)

theorem ParameterList.canBeAmbiguous_of_not_never (h : ¬list.NeverAmbiguous) :
    list.CanBeAmbiguous := by
  refine Classical.byContradiction fun hnone => h ?_
  intro arguments hground e he tuples hcause
  exact hnone ⟨arguments, e, he, tuples, hcause⟩

theorem ParameterList.not_never_iff (hplaced : list.WellPlaced) :
    ¬list.NeverAmbiguous ↔ list.isDetermined = false := by
  rw [← Bool.not_eq_true, isDetermined_iff]
  refine not_congr ⟨?_, ?_⟩
  · intro h tuples htuples
    obtain ⟨arguments, e, hground, he, hcause⟩ := (exists_ambiguous_iff hplaced).2 htuples
    exact h arguments hground e he tuples hcause
  · intro h arguments hground e he tuples hcause
    exact h tuples ((exists_ambiguous_iff hplaced).1 ⟨arguments, e, hground, he, hcause⟩)

/-- A rejected list is ambiguous in some call with ground arguments exactly if it is not determined,
and then also in what the check names if it is confined.  Without spliced maps, other arguments than
ground ones make no difference. -/
theorem rejected_ambiguous_iff {e : Failure} {tuples : List TupleVar} (hplaced : list.WellPlaced)
    (hrejected : list.check [] = .error e) (hcause : e.cause = .ambiguousSplit tuples) :
    (¬list.NeverAmbiguous ↔ list.isDetermined = false) ∧
      (list.Confined → ∃ arguments e', (∀ t ∈ arguments, t.IsGround) ∧
        (matchParameters list arguments).result = .error e' ∧
        e'.cause = .ambiguousSplit tuples) ∧
      ((∀ s ∈ list.slots, s.toType.MapFree) →
        (list.CanBeAmbiguous ↔ list.isDetermined = false)) := by
  have hnever := ParameterList.not_never_iff hplaced
  refine ⟨hnever, ?_, ?_⟩
  · intro hconfined
    have hreplay := (check_eq_error_iff hplaced hconfined).1 ⟨e, hrejected, hcause⟩
    exact (exists_ambiguous_iff hplaced).2 hreplay
  · intro hfree
    constructor
    · intro hcan
      exact hcan.isDetermined_eq_false hfree
    · intro h
      exact ParameterList.canBeAmbiguous_of_not_never (hnever.2 h)

/-- The rejected list `(F[*Ts0, int, *Ts1], *Map[list, Ts0])` is ambiguous in a call. -/
theorem rejected_ambiguous_map : ∃ arguments e, (∀ t ∈ arguments, t.IsGround) ∧
    (matchParameters ⟨[.single (.apply (.named "F") [.spread ⟨0⟩, .named "int", .spread ⟨1⟩]),
      .mapped (.named "list") ⟨0⟩]⟩ arguments).result = .error e ∧
    e.cause = .ambiguousSplit [⟨0⟩, ⟨1⟩] :=
  (rejected_ambiguous_iff (by decide) rfl rfl).2.1 (by decide)

/-- The check rejects a list that no call finds ambiguous. -/
def ParameterList.OverRejected (list : ParameterList) : Prop :=
  list.WellPlaced ∧ (∃ e, list.check [] = .error e ∧ e.IsAmbiguous) ∧ ¬list.CanBeAmbiguous

theorem overRejected_of_isDetermined {e : Failure} (hplaced : list.WellPlaced)
    (hrejected : list.check [] = .error e) (hambiguous : e.IsAmbiguous)
    (hfree : ∀ s ∈ list.slots, s.toType.MapFree) (h : list.isDetermined = true) :
    list.OverRejected := by
  refine ⟨hplaced, ⟨e, hrejected, hambiguous⟩, fun hcan => ?_⟩
  rw [hcan.isDetermined_eq_false hfree] at h
  cases h

/-- Confinement cannot be left out here either.  In `(Ts0) -> H[*Ts0, *Ts1]` and
`H[Ts0][*Ts0, *Ts1]`, the parameters and the constructor give `Ts0` its length before a match comes
to the list that the check rejects. -/
theorem overRejected_unconfined :
    ParameterList.OverRejected
      ⟨[.single (.arrow [.packed ⟨0⟩] (.apply (.named "H") [.spread ⟨0⟩, .spread ⟨1⟩]))]⟩ ∧
    ParameterList.OverRejected
      ⟨[.single (.apply (.apply (.named "H") [.packed ⟨0⟩]) [.spread ⟨0⟩, .spread ⟨1⟩])]⟩ := by
  constructor
  · exact overRejected_of_isDetermined (by decide) rfl ⟨_, rfl⟩ (by decide) (by decide)
  · exact overRejected_of_isDetermined (by decide) rfl ⟨_, rfl⟩ (by decide) (by decide)

end rejected

/-! ### Simple lists -/

namespace TypeExpr

/-- A node of a simple type: no spliced map, a constructor that is named, and a return type without
tuple variables. -/
def isSimpleNode : TypeExpr → Bool
  | .spreadMap _ _ => false
  | .apply (.named _) _ => true
  | .apply _ _ => false
  | .arrow _ result => result.tupleMentions.isEmpty
  | _ => true

theorem confines_of_isSimpleNode {t : TypeExpr} (h : t.isSimpleNode = true) : t.confines := by
  cases t with
  | spreadMap => cases h
  | apply head args =>
    cases head with
    | named => exact fun ts hts => by simp at hts
    | _ => cases h
  | arrow params result =>
    have hnil : result.tupleMentions = [] := by simpa [isSimpleNode] using h
    intro ts _
    simp [hnil]
  | _ => trivial

theorem isMap_of_isSimpleNode {t : TypeExpr} (h : t.isSimpleNode = true) : t.isMap = false := by
  cases t with
  | spreadMap => cases h
  | _ => rfl

end TypeExpr

/-- Every slot is a well placed type or the spread form of a tuple variable, and every node of it is
simple. -/
def ParameterList.IsSimple (list : ParameterList) : Prop :=
  list.WellPlaced ∧ ∀ s ∈ list.slots, s.toType.Everywhere fun n => n.isSimpleNode = true

instance (list : ParameterList) : Decidable list.IsSimple :=
  inferInstanceAs (Decidable (_ ∧ ∀ s ∈ list.slots, s.toType.Everywhere _))

section simple

variable {list : ParameterList}

theorem ParameterList.IsSimple.confined (h : list.IsSimple) : list.Confined := fun s hs =>
  (h.2 s hs).mono fun _ => TypeExpr.confines_of_isSimpleNode

theorem ParameterList.IsSimple.mapFree (h : list.IsSimple) : ∀ s ∈ list.slots, s.toType.MapFree :=
  fun s hs => (h.2 s hs).mono fun _ => TypeExpr.isMap_of_isSimpleNode

/-- Whatever the arguments of a call are, the check names the tuple variables that it finds
ambiguous. -/
theorem ParameterList.IsSimple.check_of_ambiguous (h : list.IsSimple) {arguments : List TypeExpr}
    {e : Failure} {tuples : List TupleVar} (he : (matchParameters list arguments).result = .error e)
    (hcause : e.cause = .ambiguousSplit tuples) :
    ∃ e, list.check [] = .error e ∧ e.cause = .ambiguousSplit tuples := by
  have hfollows : Follows list.replay (matchParameters list arguments) :=
    follows_of_matchParameters (fun s hs => .inr (h.mapFree s hs)) False.elim
  exact (check_eq_error_iff h.1 h.confined).2 (hfollows.of_error he tuples hcause)

/-- The check of a simple list finds tuple variables ambiguous exactly if some call does, and all
calls that find any name the same. -/
theorem check_ambiguous_iff (h : list.IsSimple) :
    (∀ tuples, (∃ e, list.check [] = .error e ∧ e.cause = .ambiguousSplit tuples) ↔
      ∃ arguments e, (matchParameters list arguments).result = .error e ∧
        e.cause = .ambiguousSplit tuples) ∧
    ∀ arguments arguments' e e' tuples tuples',
      (matchParameters list arguments).result = .error e → e.cause = .ambiguousSplit tuples →
      (matchParameters list arguments').result = .error e' → e'.cause = .ambiguousSplit tuples' →
      tuples = tuples' := by
  constructor
  · intro tuples
    constructor
    · intro hcheck
      have hreplay := (check_eq_error_iff h.1 h.confined).1 hcheck
      obtain ⟨arguments, e, -, he, hcause⟩ := (exists_ambiguous_iff h.1).2 hreplay
      exact ⟨arguments, e, he, hcause⟩
    · rintro ⟨arguments, e, he, hcause⟩
      exact h.check_of_ambiguous he hcause
  · intro arguments arguments' e e' tuples tuples' he hcause he' hcause'
    -- Both calls name what the check names.
    obtain ⟨f, hf, hfcause⟩ := h.check_of_ambiguous he hcause
    obtain ⟨f', hf', hfcause'⟩ := h.check_of_ambiguous he' hcause'
    rw [hf, Except.error.injEq] at hf'
    rw [← hf', hfcause, Cause.ambiguousSplit.injEq] at hfcause'
    exact hfcause'

/-- Since the list `(*Ts0, G[*Ts1], *Ts2)` is rejected, some call of it is ambiguous. -/
theorem check_ambiguous_spread : ∃ arguments e,
    (matchParameters ⟨[.spread ⟨0⟩, .single (.apply (.named "G") [.spread ⟨1⟩]), .spread ⟨2⟩]⟩
      arguments).result = .error e ∧ e.cause = .ambiguousSplit [⟨0⟩, ⟨2⟩] :=
  ((check_ambiguous_iff (by decide)).1 _).1 ⟨_, rfl, rfl⟩

end simple

end Polyadic
