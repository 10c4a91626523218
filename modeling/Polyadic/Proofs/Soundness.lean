import Polyadic.Matching.Call
import Polyadic.Proofs.Extension
import Polyadic.Proofs.Filling
import Polyadic.Proofs.Rules

/-! # A match solves what it matches

Where ground types are matched, a binding that comes out reproduces them: the formal types filled
in with it are the actual ones (`solved_of_matchList`, `solved_of_unify`).  A part of a match sees
only what is bound by then, and the binding grows later, so what a part leaves behind is said of
every extension of the binding: `Solved` of a row of slots and the arguments that they took. -/

namespace Polyadic

open Attempt

/-- A row of slots has been matched against a list of ground types.  Each of the slots is the
reading of a type, and together they are filled to those types in every later binding. -/
structure Solved (slots : List Slot) (arguments : List TypeExpr) (b b' : Binding) : Prop where
  ground : b'.IsGround
  le : b ≤ b'
  readings : ∀ s ∈ slots, Slot.ofType s.toType = s
  fills : ∀ c, b' ≤ c → slots.flatMap (Slot.fill c) = arguments

namespace Solved

variable {slots slots' : List Slot} {arguments arguments' : List TypeExpr}
  {b b' b'' : Binding}

theorem nil (hb : b.IsGround) : Solved [] [] b b :=
  ⟨hb, b.le_refl, by simp, fun _ _ => rfl⟩

/-- What is solved stays so while the binding grows. -/
theorem later (h : Solved slots arguments b b') (hb : b''.IsGround) (hle : b' ≤ b'') :
    Solved slots arguments b b'' := by
  refine ⟨hb, Binding.le_trans h.le hle, h.readings, ?_⟩
  intro c hc
  exact h.fills c (Binding.le_trans hle hc)

theorem append (h : Solved slots arguments b b') (h' : Solved slots' arguments' b b') :
    Solved (slots ++ slots') (arguments ++ arguments') b b' := by
  refine ⟨h.ground, h.le, ?_, ?_⟩
  · intro s hs
    rcases List.mem_append.1 hs with hs | hs
    · exact h.readings s hs
    · exact h'.readings s hs
  · intro c hc
    rw [List.flatMap_append, h.fills c hc, h'.fills c hc]

/-- What is solved from a later binding is solved from an earlier one. -/
theorem earlier (h : Solved slots arguments b' b'') (hle : b ≤ b') :
    Solved slots arguments b b'' :=
  { h with le := Binding.le_trans hle h.le }

end Solved

/-- A single type has been matched against a ground type. -/
abbrev SolvedType (formal actual : TypeExpr) (b b' : Binding) : Prop :=
  Solved [.single formal] [actual] b b'

section types

variable {formal actual : TypeExpr} {b b' : Binding}

theorem SolvedType.fill (h : SolvedType formal actual b b') {c : Binding} (hc : b' ≤ c) :
    formal.fill c = actual := by
  simpa [Slot.fill] using h.fills c hc

theorem solvedType_of (hb : b'.IsGround) (hle : b ≤ b') (hf : formal.isSpliced = false)
    (hfill : ∀ c, b' ≤ c → formal.fill c = actual) : SolvedType formal actual b b' := by
  refine ⟨hb, hle, ?_, ?_⟩
  · intro s hs
    obtain rfl := List.mem_singleton.1 hs
    exact Slot.ofType_eq_single hf
  · intro c hc
    simpa [Slot.fill] using hfill c hc

end types

/-! ### One slot -/

section slots

/-- Matching with `u` solves, on a list of ground types and on everything at most as heavy. -/
def SolvesOn (u : Unifier) (arguments : List TypeExpr) : Prop :=
  ∀ x ∈ arguments, ∀ f a b, a.weight ≤ x.weight → a.IsGround → b.IsGround →
    (u f a b).Meets (SolvedType f a b) fun _ => True

variable {u : Unifier} {place : Nat → Segment} {b : Binding} {i : Nat}

theorem SolvesOn.mono {as bs : List TypeExpr} (h : SolvesOn u bs) (hs : ∀ a ∈ as, a ∈ bs) :
    SolvesOn u as := fun x hx => h x (hs x hx)

theorem solved_of_unifyEach {formals actuals : List TypeExpr} (hu : SolvesOn u actuals)
    (hground : ∀ a ∈ actuals, a.IsGround) (hb : b.IsGround)
    (hlength : formals.length = actuals.length) :
    (unifyEach u place i formals actuals b).Meets
      (Solved (formals.map Slot.single) actuals b) fun _ => True := by
  induction formals generalizing actuals i b with
  | nil =>
    obtain rfl := List.eq_nil_of_length_eq_zero hlength.symm
    rw [unifyEach]
    · exact Solved.nil hb
    · simp
  | cons f fs ih =>
    obtain _ | ⟨a, as⟩ := actuals
    · cases hlength
    · rw [unifyEach, meets_bind, meets_under]
      refine (hu a (by simp) f a b (Nat.le_refl _) (hground a (by simp)) hb).imp ?_
      intro b' h
      refine (ih (hu.mono (by simp +contextual)) (fun x hx => hground x (by simp [hx])) h.ground
        (by simpa using hlength)).imp ?_
      intro b'' h'
      exact (h.later h'.ground h'.le).append (h'.earlier h.le)

/-- The operands of a list of types are taken out, and the constructor fits each of the types. -/
theorem solved_of_stripEach {ctor : TypeExpr} {ts : TupleVar} {actuals : List TypeExpr}
    (hu : SolvesOn u actuals) (hground : ∀ a ∈ actuals, a.IsGround) (hb : b.IsGround) :
    (stripEach u place ctor ts i actuals b).Meets
      (fun b' => b'.IsGround ∧ b ≤ b' ∧ ∀ c, b' ≤ c → TypeExpr.mapOver (ctor.fill c)
        (actuals.filterMap fun t => t.unary?.map Prod.snd) = actuals) fun _ => True := by
  induction actuals generalizing i b with
  | nil => exact ⟨hb, b.le_refl, fun _ _ => rfl⟩
  | cons a as ih =>
    rw [stripEach, meets_bind, meets_under]
    split
    · rename_i head operand ha
      have hweight := TypeExpr.weight_lt_of_unary ha
      have hhead : head.IsGround := ((hground a (by simp)).unary ha).1
      rw [meets_under]
      refine (hu a (by simp) ctor head b (Nat.le_of_lt hweight) hhead hb).imp ?_
      intro b' h
      refine (ih (hu.mono (by simp +contextual)) (fun x hx => hground x (by simp [hx]))
        h.ground).imp ?_
      intro b'' h'
      obtain ⟨hground'', hle, hmap⟩ := h'
      refine ⟨hground'', Binding.le_trans h.le hle, ?_⟩
      intro c hc
      have hfirst : .apply (ctor.fill c) [operand] = a := by
        rw [h.fill (Binding.le_trans hle hc), TypeExpr.unary?_eq_some_iff.1 ha]
      have hrest := hmap c hc
      rw [TypeExpr.mapOver] at hrest
      simp [TypeExpr.mapOver, ha, hfirst, hrest]
    · simp

/-- A slot for a tuple variable is solved where the variable has the sequence that fits. -/
theorem solved_spread {ts : TupleVar} {types : List TypeExpr} {c : Binding} (hc : c.IsGround)
    (hle : b ≤ c) (hts : c.tuple? ts = some types) : Solved [.spread ts] types b c := by
  refine ⟨hc, hle, by simp [Slot.ofType, Slot.toType], ?_⟩
  intro d hd
  simp [Slot.fill, Binding.tuple?_of_le hd hts]

theorem solved_mapped {ctor : TypeExpr} {ts : TupleVar} {operands types : List TypeExpr}
    {c : Binding} (hc : c.IsGround) (hle : b ≤ c) (hts : c.tuple? ts = some operands)
    (hmap : ∀ d, c ≤ d → TypeExpr.mapOver (ctor.fill d) operands = types) :
    Solved [.mapped ctor ts] types b c := by
  refine ⟨hc, hle, by simp [Slot.ofType, Slot.toType], ?_⟩
  intro d hd
  simp [Slot.fill, Binding.tuple?_of_le hd hts, hmap d hd]

theorem isGround_operands {types : List TypeExpr} (hground : ∀ a ∈ types, a.IsGround) :
    ∀ t ∈ types.filterMap fun t => t.unary?.map Prod.snd, t.IsGround := by
  intro t ht
  obtain ⟨a, ha, hat⟩ := List.mem_filterMap.1 ht
  obtain ⟨⟨head, operand⟩, hop, rfl⟩ := Option.map_eq_some_iff.1 hat
  exact ((hground a ha).unary hop).2

/-- The sequence is known, and so ground: only the constructor has to be filled in. -/
theorem solved_of_mapped_known {ctor : TypeExpr} {ts : TupleVar} {run : Run}
    {contents : List TypeExpr} (hu : SolvesOn u run.types) (hground : ∀ a ∈ run.types, a.IsGround)
    (hb : b.IsGround) (hts : b.tuple? ts = some contents)
    (hlength : contents.length = run.types.length) :
    (unifyEach u place i (TypeExpr.mapOver ctor contents) run.types b).Meets
      (Solved [.mapped ctor ts] run.types b) fun _ => True := by
  have hformals : (TypeExpr.mapOver ctor contents).length = run.types.length := by
    simpa using hlength
  refine (solved_of_unifyEach hu hground hb hformals).imp ?_
  intro c h
  refine solved_mapped h.ground h.le (Binding.tuple?_of_le h.le hts) fun d hd => ?_
  have hfill := h.fills d hd
  rw [Slot.flatMap_fill_single, TypeExpr.map_fill_mapOver (hb.tuples ts contents hts)] at hfill
  exact hfill

/-- The sequence is read off the run, once the constructor has been matched against all of it. -/
theorem solved_of_mapped_open {ctor : TypeExpr} {ts : TupleVar} {run : Run}
    (hu : SolvesOn u run.types) (hground : ∀ a ∈ run.types, a.IsGround) (hb : b.IsGround) :
    (stripEach u place ctor ts i run.types b).Meets
      (fun b' => (assignTuple ts (run.types.filterMap fun t => t.unary?.map Prod.snd) b').Meets
        (Solved [.mapped ctor ts] run.types b) fun _ => True) fun _ => True := by
  refine (solved_of_stripEach hu hground hb).imp ?_
  intro b' h
  obtain ⟨hb', hle, hmap⟩ := h
  refine meets_assignTuple ?_ ?_ fun _ _ _ => trivial
  · intro h
    have hext := Binding.le_bindTuple h (run.types.filterMap fun t => t.unary?.map Prod.snd)
    have hground' := hb'.bindTuple (isGround_operands hground) ts
    exact solved_mapped hground' (Binding.le_trans hle hext)
      (by simp [Binding.tuple?_bindTuple]) fun d hd => hmap d (Binding.le_trans hext hd)
  · intro h
    exact solved_mapped hb' hle h hmap

/-- A slot takes its run, which has to be as long as the slot is known to be. -/
theorem solved_of_matchSlot {slot : Slot} {run : Run} (hu : SolvesOn u run.types)
    (hground : ∀ a ∈ run.types, a.IsGround) (hb : b.IsGround)
    (hfit : slot.isOpen b = false → run.length = slot.width b) :
    (matchSlot u place slot run b).Meets (Solved [slot] run.types b) fun _ => True := by
  cases slot with
  | single formal =>
    have hlength : [formal].length = run.types.length := (hfit rfl).symm
    exact solved_of_unifyEach hu hground hb hlength
  | spread ts =>
    rw [matchSlot, meets_under]
    refine meets_assignTuple ?_ ?_ fun _ _ _ => trivial
    · intro h
      exact solved_spread (hb.bindTuple hground ts) (Binding.le_bindTuple h _)
        (by simp [Binding.tuple?_bindTuple])
    · intro h
      exact solved_spread hb b.le_refl h
  | mapped ctor ts =>
    rw [matchSlot]
    split
    · rename_i contents hts
      have hlength : run.length = contents.length := by
        rw [hfit (by simp [Slot.isOpen, Slot.length?, hts]), Slot.width_of_bound rfl hts]
      rw [meets_bind, meets_log]
      exact solved_of_mapped_known hu hground hb hts hlength.symm
    · rw [meets_bind, meets_log, meets_bind]
      exact solved_of_mapped_open hu hground hb

end slots

/-! ### Rows of slots -/

section rows

variable {u : Unifier} {place : Nat → Segment} {slots : List Slot} {arguments : List TypeExpr}
  {b : Binding}

/-- What has been taken off the two ends of a row is solved, and the rest is in the window. -/
def SolvedSoFar (slots : List Slot) (arguments : List TypeExpr) (b : Binding) (w : Window) : Prop :=
  ∃ taken taken' used used', slots = taken ++ w.slots ++ taken' ∧
    arguments = used ++ w.run.types ++ used' ∧
    Solved taken used b w.binding ∧ Solved taken' used' b w.binding

theorem solvedSoFar_whole (hb : b.IsGround) :
    SolvedSoFar slots arguments b (.whole slots arguments b) :=
  ⟨[], [], [], [], by simp [Window.whole], by simp [Window.whole], Solved.nil hb, Solved.nil hb⟩

namespace SolvedSoFar

variable {w : Window}

theorem ground (h : SolvedSoFar slots arguments b w) : w.binding.IsGround := by
  obtain ⟨_, _, _, _, -, -, htaken, -⟩ := h
  exact htaken.ground

theorem mem_arguments (h : SolvedSoFar slots arguments b w) {t : TypeExpr}
    (ht : t ∈ w.run.types) : t ∈ arguments := by
  obtain ⟨_, _, _, _, -, rfl, -, -⟩ := h
  simp [ht]

theorem takeFront (h : SolvedSoFar slots arguments b w) {slot : Slot} {rest : List Slot}
    {n : Nat} {b' : Binding} (hslots : w.slots = slot :: rest)
    (hslot : Solved [slot] (w.run.first n).types w.binding b') :
    SolvedSoFar slots arguments b ⟨.front, rest, w.run.after n, b'⟩ := by
  obtain ⟨taken, taken', used, used', rfl, rfl, hl, hr⟩ := h
  refine ⟨taken ++ [slot], taken', used ++ (w.run.first n).types, used', by simp [hslots], ?_, ?_,
    hr.later hslot.ground hslot.le⟩
  · simp [Run.first, Run.after]
  · exact (hl.later hslot.ground hslot.le).append (hslot.earlier hl.le)

theorem takeBack (h : SolvedSoFar slots arguments b w) {slot : Slot} {rest : List Slot}
    {n : Nat} {b' : Binding} (hslots : w.slots = rest ++ [slot])
    (hslot : Solved [slot] (w.run.after n).types w.binding b') :
    SolvedSoFar slots arguments b ⟨.back, rest, w.run.first n, b'⟩ := by
  obtain ⟨taken, taken', used, used', rfl, rfl, hl, hr⟩ := h
  refine ⟨taken, [slot] ++ taken', used, (w.run.after n).types ++ used', by simp [hslots], ?_,
    hl.later hslot.ground hslot.le, ?_⟩
  · have hrun : (w.run.first n).types ++ (w.run.after n).types = w.run.types :=
      List.take_append_drop n w.run.types
    rw [← hrun]
    simp only [List.append_assoc]
  · exact (hslot.earlier hr.le).append (hr.later hslot.ground hslot.le)

end SolvedSoFar

/-- Each move solves the slot that it takes. -/
theorem solved_of_takeSlot (hu : SolvesOn u arguments) (hground : ∀ t ∈ arguments, t.IsGround)
    {w : Window} (hw : SolvedSoFar slots arguments b w) :
    (takeSlot u place w).Meets (SolvedSoFar slots arguments b) fun _ => True := by
  -- Whichever run of the window a slot is given, the parts of a match are sound on it.
  have solve {slot : Slot} {run : Run} (hrun : ∀ t ∈ run.types, t ∈ w.run.types)
      (hfit : slot.isOpen w.binding = false → run.length = slot.width w.binding) :
      (matchSlot u place slot run w.binding).Meets (Solved [slot] run.types w.binding)
        fun _ => True :=
    solved_of_matchSlot (hu.mono fun t ht => hw.mem_arguments (hrun t ht))
      (fun t ht => hground t (hw.mem_arguments (hrun t ht))) hw.ground hfit
  refine meets_takeSlot (fun _ => hw) (fun _ _ _ _ => trivial) ?front ?back ?stuck
  case front =>
    intro slot rest hm hle
    refine (solve (fun t => List.mem_of_mem_take) fun _ => Run.length_first hle).imp ?_
    intro b' h
    exact hw.takeFront (nextMove_eq_front hm).1 h
  case back =>
    intro rest slot hm hle
    refine (solve (fun t => List.mem_of_mem_drop) ?_).imp ?_
    · intro _
      rw [Run.length_after]
      omega
    · intro b' h
      exact hw.takeBack (nextMove_eq_back hm).1 h
  case stuck =>
    intro slot rest hm
    obtain ⟨hslots, hopen, -⟩ := nextMove_eq_stuck hm
    have hshare : ∀ width, (matchSlot u place slot (w.run.first width) w.binding).Meets
        (fun b' => SolvedSoFar slots arguments b ⟨.front, rest, w.run.after width, b'⟩)
        fun _ => True := by
      intro width
      refine (solve (fun t => List.mem_of_mem_take) ?_).imp ?_
      · intro h
        simp [h] at hopen
      · intro b' h
        exact hw.takeFront hslots h
    exact meets_evenShare (fun _ => trivial) (fun _ _ => trivial) (fun _ _ => trivial)
      fun _ _ _ => hshare _

theorem solved_of_matchList (hu : SolvesOn u arguments) (hground : ∀ t ∈ arguments, t.IsGround)
    (hb : b.IsGround) :
    (matchList u place slots arguments b).Meets (Solved slots arguments b) fun _ => True := by
  refine meets_matchList (fun _ => trivial) (fun _ => solvedSoFar_whole hb)
    (fun w hw => solved_of_takeSlot hu hground hw) ?_ fun _ _ _ _ => trivial
  intro w hw hslots hrun
  obtain ⟨taken, taken', used, used', rfl, rfl, hl, hr⟩ := hw
  simpa [hslots, hrun] using hl.append hr

end rows

/-! ### Two types -/

section types

variable {place : Nat → Segment} {b : Binding}

/-- A row that is read off a list of types fills that list. -/
theorem Solved.fillAll {types arguments : List TypeExpr} {b' : Binding}
    (h : Solved (types.map Slot.ofType) arguments b b') {c : Binding} (hc : b' ≤ c) :
    TypeExpr.fillAll c types = arguments := by
  rw [TypeExpr.fillAll_eq_flatMap, h.fills c hc]

theorem Solved.tuple? {ts : TupleVar} {arguments : List TypeExpr} {b' : Binding}
    (h : Solved [.spread ts] arguments b b') (hground : ∀ t ∈ arguments, t.IsGround) {c : Binding}
    (hc : b' ≤ c) : c.tuple? ts = some arguments := by
  have hfill : (c.tuple? ts).getD [.spread ts] = arguments := by
    simpa [Slot.fill] using h.fills c hc
  cases hts : c.tuple? ts with
  | none =>
    rw [hts, Option.getD_none] at hfill
    simp [← hfill] at hground
  | some contents => simpa [hts] using hfill

/-- A formal type that matches a ground type becomes that type. -/
theorem solved_of_unify {f a : TypeExpr} (ha : a.IsGround) (hb : b.IsGround) :
    (unify f a b).Meets (SolvedType f a b) fun _ => True := by
  induction hn : a.weight using Nat.strongRecOn generalizing f a b with
  | ind n ih =>
    have solves {arguments : List TypeExpr} (hl : ∀ x ∈ arguments, x.weight < n) :
        SolvesOn unify arguments := by
      intro x hx f a b hle ha hb
      have hlt : a.weight < n := Nat.lt_of_le_of_lt hle (hl x hx)
      exact ih a.weight hlt ha hb rfl
    subst hn
    refine meets_unify ?var ?packed ?unpack ?apply ?arrow ?union ?named ?spliced trivial
    case var =>
      intro v hf
      subst hf
      refine meets_assignScalar ?_ ?_ fun _ _ _ => trivial
      · intro h
        refine solvedType_of (hb.bindScalar ha v) (Binding.le_bindScalar h a) rfl ?_
        intro c hc
        simp [TypeExpr.fill, Binding.scalar?_of_le hc (v := v) (t := a)
          (by simp [Binding.scalar?_bindScalar])]
      · intro h
        refine solvedType_of hb b.le_refl rfl ?_
        intro c hc
        simp [TypeExpr.fill, Binding.scalar?_of_le hc h]
    case packed =>
      intro ts elements hf helements
      obtain ⟨hae, hground⟩ := ha.tupleElements helements
      subst hf
      have hlighter : SolvesOn unify elements :=
        solves fun x => TypeExpr.weight_lt_of_mem_tupleElements helements
      refine (solved_of_matchList hlighter hground hb).imp ?_
      intro b' h
      refine solvedType_of h.ground h.le rfl ?_
      intro c hc
      simp [TypeExpr.fill, h.tuple? hground hc, hae]
    case unpack =>
      intro args us hf hus
      simp [hus] at ha
    case apply =>
      intro head args head' args' hf hfa
      subst hf hfa
      rw [TypeExpr.isGround_apply] at ha
      refine (ih _ TypeExpr.weight_head_lt ha.1 hb rfl).imp ?_
      intro b' h
      have hlighter : SolvesOn unify args' := solves fun x => TypeExpr.weight_lt_apply
      refine (solved_of_matchList hlighter ha.2 h.ground).imp ?_
      intro b'' h'
      refine solvedType_of h'.ground (Binding.le_trans h.le h'.le) rfl ?_
      intro c hc
      rw [TypeExpr.fill, h.fill (Binding.le_trans h'.le hc), h'.fillAll hc]
    case arrow =>
      intro params result params' result' hf hfa
      subst hf hfa
      rw [TypeExpr.isGround_arrow] at ha
      have hlighter : SolvesOn unify params' := solves fun x => TypeExpr.weight_lt_arrow
      refine (solved_of_matchList hlighter ha.1 hb).imp ?_
      intro b' h
      refine (ih _ TypeExpr.weight_result_lt ha.2 h.ground rfl).imp ?_
      intro b'' h'
      refine solvedType_of h'.ground (Binding.le_trans h.le h'.le) rfl ?_
      intro c hc
      rw [TypeExpr.fill, h.fillAll (Binding.le_trans h'.le hc), h'.fill hc]
    case union =>
      intro members members' hf hfa
      subst hf hfa
      rw [TypeExpr.isGround_union] at ha
      have hlighter : SolvesOn unify members' := solves fun x => TypeExpr.weight_lt_union
      refine (solved_of_matchList hlighter ha hb).imp ?_
      intro b' h
      refine solvedType_of h.ground h.le rfl ?_
      intro c hc
      rw [TypeExpr.fill, h.fillAll hc]
    case named =>
      intro name hf hfa
      subst hf hfa
      exact solvedType_of hb b.le_refl rfl fun c hc => rfl
    case spliced =>
      intro hf hfa
      rw [hfa] at ha
      simp [ha.isSpliced] at hf

theorem solvesOn_unify {arguments : List TypeExpr} : SolvesOn unify arguments := by
  intro x hx f a b hle ha hb
  exact solved_of_unify ha hb

end types

/-! ### Anchors, lists and calls -/

/-- Under a binding, substitution makes nothing of a formal type but the actual type, and it goes
through unless a constructor of the formal type has a union inside or the actual type an empty
one. -/
structure Reproduces (b : Binding) (formal actual : TypeExpr) : Prop where
  exact : ∀ x, formal.subst b = .ok x → x = actual
  defined : formal.UnionFreeMaps → actual.UnionsInhabited → ∃ x, formal.subst b = .ok x

theorem reproduces_of_fill {b : Binding} {formal actual : TypeExpr}
    (h : formal.fill b = actual) : Reproduces b formal actual := by
  refine ⟨?_, fun hmaps hactual => ⟨formal.fill b, ?_⟩⟩
  · intro x hx
    rw [TypeExpr.fill_of_subst hx, h]
  · exact TypeExpr.subst_eq_ok_fill hmaps (by rwa [h])

section calls

variable {b b' : Binding}

theorem SolvedType.reproduces {formal actual : TypeExpr} (h : SolvedType formal actual b b')
    {c : Binding} (hc : b' ≤ c) : Reproduces c formal actual := reproduces_of_fill (h.fill hc)

/-- A solved row reproduces its arguments as one wrapped tuple. -/
theorem Solved.reproduces {list : ParameterList} {arguments : List TypeExpr}
    (h : Solved list.slots arguments b b') {c : Binding} (hc : b' ≤ c) :
    Reproduces c (.tuple list.toTypes) (.tuple arguments) := by
  have hslots : list.toTypes.map Slot.ofType = list.slots := by
    rw [ParameterList.toTypes, List.map_map]
    exact (List.map_congr_left h.readings).trans (List.map_id _)
  refine reproduces_of_fill ?_
  rw [TypeExpr.tuple, TypeExpr.fill, TypeExpr.fillAll_eq_flatMap, hslots, h.fills c hc]
  rfl

theorem solved_of_solveAnchors {i : Nat} {anchors : List Anchor}
    (hground : ∀ a ∈ anchors, a.actual.IsGround) (hb : b.IsGround) :
    (solveAnchors i anchors b).Meets (fun b' => b'.IsGround ∧ b ≤ b' ∧
      ∀ a ∈ anchors, ∀ c, b' ≤ c → Reproduces c a.formal a.actual) fun _ => True := by
  induction anchors generalizing i b with
  | nil => exact ⟨hb, b.le_refl, by simp⟩
  | cons anchor rest ih =>
    rw [solveAnchors, meets_bind, meets_under, solveAnchor, meets_bind, meets_log, meets_recast]
    refine (solved_of_unify (hground anchor (by simp)) hb).imp ?_
    intro b' h
    refine (ih (fun a ha => hground a (by simp [ha])) h.ground).imp ?_
    intro b'' h'
    obtain ⟨hb'', hle, hrest⟩ := h'
    refine ⟨hb'', Binding.le_trans h.le hle, ?_⟩
    intro a ha c hc
    rcases List.mem_cons.1 ha with rfl | ha
    · exact h.reproduces (Binding.le_trans hle hc)
    · exact hrest a ha c hc

/-- What a call passes for a keyword is one of its keywords. -/
theorem Call.mem_of_keyword {call : Call} {name : String} {actual : TypeExpr}
    (h : call.keyword? name = some actual) : (name, actual) ∈ call.keywords := by
  obtain ⟨before, after, heq, -⟩ := List.lookup_eq_some_iff.1 h
  simp [heq]

theorem solved_of_solveKeywords {function : String} {call : Call}
    {keywords : List (String × TypeExpr)} (hground : ∀ k ∈ call.keywords, k.2.IsGround)
    (hb : b.IsGround) :
    (solveKeywords function call keywords b).Meets (fun b' => b'.IsGround ∧ b ≤ b' ∧
      ∀ k ∈ keywords, ∃ actual, call.keyword? k.1 = some actual ∧
        ∀ c, b' ≤ c → Reproduces c k.2 actual) fun _ => True := by
  induction keywords generalizing b with
  | nil => exact ⟨hb, b.le_refl, by simp⟩
  | cons keyword rest ih =>
    obtain ⟨name, formal⟩ := keyword
    rw [solveKeywords, meets_bind, meets_under]
    split
    · rename_i actual hactual
      have hmem : (name, actual) ∈ call.keywords := Call.mem_of_keyword hactual
      rw [solveAnchor, meets_bind, meets_log, meets_recast]
      refine (solved_of_unify (hground _ hmem) hb).imp ?_
      intro b' h
      refine (ih h.ground).imp ?_
      intro b'' h'
      obtain ⟨hb'', hle, hrest⟩ := h'
      refine ⟨hb'', Binding.le_trans h.le hle, ?_⟩
      intro k hk
      rcases List.mem_cons.1 hk with rfl | hk
      · exact ⟨actual, hactual, fun c hc => h.reproduces (Binding.le_trans hle hc)⟩
      · exact hrest k hk
    · exact trivial

theorem solved_of_collectKeywords {function : String} {kwargs : Option TypeExpr}
    {keywords : List (String × TypeExpr)} (hground : ∀ k ∈ keywords, k.2.IsGround)
    (hb : b.IsGround) :
    (collectKeywords function kwargs keywords b).Meets (fun b' => b'.IsGround ∧ b ≤ b' ∧
      ∀ k ∈ keywords, ∃ formal, kwargs = some formal ∧
        ∀ c, b' ≤ c → Reproduces c formal k.2) fun _ => True := by
  induction keywords generalizing b with
  | nil => exact ⟨hb, b.le_refl, by simp⟩
  | cons keyword rest ih =>
    obtain ⟨name, actual⟩ := keyword
    cases kwargs with
    | some formal =>
      rw [collectKeywords, meets_bind, meets_under]
      refine (solved_of_unify (hground (name, actual) (by simp)) hb).imp ?_
      intro b' h
      refine (ih (fun k hk => hground k (by simp [hk])) h.ground).imp ?_
      intro b'' h'
      obtain ⟨hb'', hle, hrest⟩ := h'
      refine ⟨hb'', Binding.le_trans h.le hle, ?_⟩
      intro k hk
      rcases List.mem_cons.1 hk with rfl | hk
      · exact ⟨formal, rfl, fun c hc => h.reproduces (Binding.le_trans hle hc)⟩
      · exact hrest k hk
    | none => exact trivial

end calls

/-- The binding of a match reproduces everything that was matched, whether a list behind its
anchors, a single type or the arguments of a call. -/
theorem match_reproduces :
    (∀ (list : ParameterList) (arguments : List TypeExpr) (anchors : List Anchor) (b : Binding),
      (∀ t ∈ arguments, t.IsGround) → (∀ a ∈ anchors, a.actual.IsGround) →
      (matchAnchored list arguments anchors).result = .ok b →
      Reproduces b (.tuple list.toTypes) (.tuple arguments) ∧
        ∀ a ∈ anchors, Reproduces b a.formal a.actual) ∧
    (∀ (formal actual : TypeExpr) (b : Binding), actual.IsGround →
      (matchType formal actual).result = .ok b → Reproduces b formal actual) ∧
    ∀ (s : Signature) (call : Call) (b : Binding),
      (∀ t ∈ call.positional, t.IsGround) → (∀ k ∈ call.keywords, k.2.IsGround) →
      (matchCall s call).result = .ok b →
      Reproduces b (.tuple s.positional.toTypes) (.tuple call.positional) ∧
        (∀ k ∈ s.keywords, ∃ actual, call.keyword? k.1 = some actual ∧ Reproduces b k.2 actual) ∧
        ∀ k ∈ call.extraKeywords s, ∃ formal, s.kwargs = some formal ∧ Reproduces b formal k.2 := by
  have row {slots : List Slot} {arguments : List TypeExpr} {b : Binding}
      (hground : ∀ t ∈ arguments, t.IsGround) (hb : b.IsGround) :
      (matchList unify .param slots arguments b).Meets (Solved slots arguments b) fun _ => True :=
    solved_of_matchList solvesOn_unify hground hb
  refine ⟨?_, ?_, ?_⟩
  · intro list arguments anchors b hground hanchors h
    rw [matchAnchored, result_bind_eq_ok_iff] at h
    obtain ⟨b₁, h₁, h₂⟩ := h
    obtain ⟨hb₁, -, hsolved⟩ :=
      (solved_of_solveAnchors hanchors Binding.isGround_empty).of_ok h₁
    have hrow := (row hground hb₁).of_ok h₂
    exact ⟨hrow.reproduces b.le_refl, fun a ha => hsolved a ha b hrow.le⟩
  · intro formal actual b ha h
    have hsolved := (solved_of_unify ha Binding.isGround_empty).of_ok h
    exact hsolved.reproduces b.le_refl
  · intro s call b hground hkeywords h
    rw [matchCall, result_bind_eq_ok_iff] at h
    obtain ⟨b₁, h₁, h⟩ := h
    obtain ⟨b₂, h₂, h₃⟩ := result_bind_eq_ok_iff.1 h
    obtain ⟨hb₁, -, hdeclared⟩ :=
      (solved_of_solveKeywords hkeywords Binding.isGround_empty).of_ok h₁
    have hextra : ∀ k ∈ call.extraKeywords s, k.2.IsGround := fun k hk =>
      hkeywords k (List.mem_filter.1 hk).1
    obtain ⟨hb₂, hle, hfurther⟩ := (solved_of_collectKeywords hextra hb₁).of_ok h₂
    have hrow := (row hground hb₂).of_ok h₃
    refine ⟨hrow.reproduces b.le_refl, ?_, ?_⟩
    · intro k hk
      obtain ⟨actual, hactual, hk⟩ := hdeclared k hk
      exact ⟨actual, hactual, hk b (Binding.le_trans hle hrow.le)⟩
    · intro k hk
      obtain ⟨formal, hformal, hk⟩ := hfurther k hk
      exact ⟨formal, hformal, hk b hrow.le⟩

/-- Three matches that succeed: `(*Map[list, Ts0], *Ts1)` behind the anchor `Ts0`, a single type,
and a call with a declared and a further keyword. -/
theorem match_reproduces_succeeding :
    Reproduces ((Binding.empty.bindTuple ⟨0⟩ [.named "int"]).bindTuple ⟨1⟩ [.named "str"])
        (.tuple [.spreadMap (.named "list") ⟨0⟩, .spread ⟨1⟩])
        (.tuple [.apply (.named "list") [.named "int"], .named "str"]) ∧
      Reproduces ((Binding.empty.bindScalar ⟨0⟩ (.named "int")).bindTuple ⟨0⟩ [.named "str"])
        (.union [.var ⟨0⟩, .spread ⟨0⟩]) (.union [.named "int", .named "str"]) ∧
      Reproduces ((Binding.empty.bindTuple ⟨0⟩ [.named "int"]).bindScalar ⟨0⟩ (.named "str"))
        (.var ⟨0⟩) (.named "str") := by
  have hlist := match_reproduces.1 ⟨[.mapped (.named "list") ⟨0⟩, .spread ⟨1⟩]⟩
    [.apply (.named "list") [.named "int"], .named "str"] [⟨.packed ⟨0⟩, .tuple [.named "int"]⟩]
    ((Binding.empty.bindTuple ⟨0⟩ [.named "int"]).bindTuple ⟨1⟩ [.named "str"])
    (by simp) (by simp [TypeExpr.tuple]) rfl
  have hcall := match_reproduces.2.2
    ⟨"f", ⟨[.spread ⟨0⟩]⟩, [("key", .packed ⟨0⟩)], some (.var ⟨0⟩), .named "None"⟩
    ⟨[.named "int"], [("more", .named "str"), ("key", .tuple [.named "int"])]⟩
    ((Binding.empty.bindTuple ⟨0⟩ [.named "int"]).bindScalar ⟨0⟩ (.named "str"))
    (by simp) (by simp [TypeExpr.tuple]) rfl
  obtain ⟨formal, hformal, hfurther⟩ := hcall.2.2 ("more", .named "str") (by decide)
  cases hformal
  exact ⟨hlist.1, match_reproduces.2.1 _ _ _ (by simp) rfl, hfurther⟩

end Polyadic
