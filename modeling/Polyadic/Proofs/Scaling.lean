import Polyadic.Workload
import Polyadic.Proofs.Acceptance
import Polyadic.Proofs.Anchoring
import Polyadic.Proofs.Framing
import Polyadic.Proofs.NormalForms
import Polyadic.Proofs.Registration

/-! # The workload at every size

What the declarations of the workload make of its calls is known for every depth of the tower, every
number of arguments and every limit of the stack (`workload_at_every_size`).  The table is built
level by level, each of which keeps `Holds`.  The three calls are matched by the three ways of
splitting a list, and each of them ends with one slot that is left alone (`rowValue_alone`).  An
expansion goes down the tower one level at a time, until it reaches the bottom or the stack is full
(`result_instantiate_nest`). -/

namespace Polyadic

open Attempt

/-! ### Open tuple variables -/

section rows

variable {place : Nat → Segment} {b : Binding}

/-- Behind an open spread slot, a known one takes its own, and the open one gets what is left. -/
theorem value?_matchList_spreads {ts us : TupleVar} {first second : List TypeExpr}
    (h : b.tuple? ts = none) (hknown : b.tuple? us = some second) :
    (matchList unify place [.spread ts, .spread us] (first ++ second) b).value? =
      some (b.bindTuple ts first) := by
  have hopen : (Slot.spread ts).isOpen b = true := Slot.isOpen_iff.2 ⟨ts, rfl, h⟩
  have hclosed : (Slot.spread us).isOpen b = false := by simp [Slot.isOpen, Slot.length?, hknown]
  have hwidth : (Slot.spread us).width b = second.length := Slot.width_of_bound rfl hknown
  have hadmits : (listArity b [.spread ts, .spread us]).Admits (first ++ second).length := by
    simp [listArity, openCount, requiredLength, hopen, hclosed, hwidth, Slot.width_of_isOpen hopen,
      Arity.Admits]
  have hmove : nextMove (fun s : Slot => !s.isOpen b) .front [.spread ts, .spread us] =
      .back [.spread ts] (.spread us) := by
    simp [nextMove, hopen, hclosed]
  rw [value?_matchList, if_pos hadmits, Window.whole, rowValue_back_append hmove hwidth.symm,
    value?_matchSlot_spread, value?_assignTuple_known hknown, if_pos rfl, Option.bind_some,
    rowValue_alone hopen, value?_matchSlot_spread, value?_assignTuple_fresh h]

theorem operands_mapOver (ctor : TypeExpr) (contents : List TypeExpr) :
    TypeExpr.operands (TypeExpr.mapOver ctor contents) = contents := by
  induction contents with
  | nil => rfl
  | cons t contents ih => exact congrArg (t :: ·) ih

/-- An open mapped slot strips its constructor off all that is left. -/
theorem value?_matchList_mapped {ts : TupleVar} {ctor : TypeExpr} {contents : List TypeExpr}
    (h : b.tuple? ts = none) (hctor : ctor.IsGround) (hcontents : ∀ t ∈ contents, t.IsGround) :
    (matchList unify place [.mapped ctor ts] (TypeExpr.mapOver ctor contents) b).value? =
      some (b.bindTuple ts contents) := by
  have hground : ∀ t ∈ TypeExpr.mapOver ctor contents, t.IsGround := by
    intro t ht
    obtain ⟨u, hu, rfl⟩ := List.mem_map.1 ht
    exact TypeExpr.isGround_apply.2 ⟨hctor, List.forall_mem_singleton.2 (hcontents u hu)⟩
  have hunary : ∀ t ∈ TypeExpr.mapOver ctor contents,
      ∃ head operand, t = .apply head [operand] := by
    intro t ht
    obtain ⟨u, -, rfl⟩ := List.mem_map.1 ht
    exact ⟨ctor, u, rfl⟩
  rw [value?_matchList_alone (Slot.isOpen_iff.2 ⟨ts, rfl, h⟩), value?_matchSlot_open h,
    value?_stripEach_eq_matchPairs hground hunary, operands_mapOver,
    matchPairs_ground hground hground rfl, if_pos rfl, Option.bind_some]
  show (assignTuple ts (TypeExpr.operands (TypeExpr.mapOver ctor contents)) b).value? = _
  rw [operands_mapOver, value?_assignTuple_fresh h]

end rows

namespace Workload

/-! ### Names -/

theorem toList_nestName (k : Nat) :
    (nestName k).toList = 'N' :: 'e' :: 's' :: 't' :: Nat.toDigits 10 k := by simp [nestName]

theorem nestName_inj {j k : Nat} : nestName j = nestName k ↔ j = k := by
  rw [← String.toList_inj, toList_nestName, toList_nestName]
  simp [toDigits_inj]

/-- A name that begins with another letter is not that of a level. -/
theorem nestName_ne {name : String} (h : name.toList.head? ≠ some 'N') (k : Nat) :
    nestName k ≠ name := by
  rintro rfl
  simp [toList_nestName] at h

theorem exists_argument (i : Nat) :
    ∃ name, argument i = .named name ∧ name.toList.head? ≠ some 'N' := by
  refine ⟨_, rfl, ?_⟩
  split <;> decide

theorem isGround_of_mem_argumentList {n : Nat} {t : TypeExpr} (h : t ∈ argumentList n) :
    t.IsGround := by
  obtain ⟨i, -, rfl⟩ := List.mem_map.1 h
  simp [argument]

/-! ### The table -/

/-- A table with the functions of the workload and with the levels of the tower below a bound. -/
structure Holds (n : Nat) (d : Declarations) : Prop where
  tuples : d.tupleNames.toList = ["Ts", "Ts1", "Ts2"]
  functions : ∀ s ∈ [framed ⟨0⟩, concat ⟨1⟩ ⟨2⟩, zipLists ⟨0⟩],
    d.held? s.name = some (.function s)
  levels : ∀ k, d.held? (nestName k) = if k < n then some (.template (nest ⟨0⟩ k)) else none
  aliases : ∀ name a, d.held? name = some (.template a) → ∃ k, name = nestName k

theorem name_nest (ts : TupleVar) (k : Nat) : (nest ts k).name = nestName k := by
  cases k <;> rfl

theorem check_nest (ts : TupleVar) (k : Nat) : (nest ts k).check = .ok () := by
  cases k <;> rfl

variable {n : Nat} {d : Declarations}

/-- The next level goes through. -/
theorem Holds.declareAlias (h : Holds n d) :
    ∃ d', d.declareAlias (nest ⟨0⟩ n) = .ok d' ∧ Holds (n + 1) d' := by
  have hfresh : d.held? (nestName n) = none := by simp [h.levels]
  obtain ⟨d', hd', henters⟩ := Declarations.exists_enters (d := d) (x := .template (nest ⟨0⟩ n))
    (by rintro name ⟨⟩; rw [name_nest, hfresh]) (check_nest ⟨0⟩ n)
  have hentries (name : String) : d'.held? name =
      if nestName n = name then some (.template (nest ⟨0⟩ n)) else d.held? name := by
    rw [henters.entries]
    simp [Declaration.entryName?, name_nest]
  refine ⟨d', hd', ?_, ?_, ?_, ?_⟩
  · rw [henters.tuples, h.tuples]
    rfl
  · intro s hs
    have hne : nestName n ≠ s.name := by
      refine nestName_ne ?_ n
      revert s
      decide
    rw [hentries, if_neg hne, h.functions s hs]
  · intro k
    rw [hentries, h.levels]
    by_cases hk : n = k
    · subst hk
      simp
    · have hne : nestName n ≠ nestName k := fun heq => hk (nestName_inj.1 heq)
      have hlt : k < n + 1 ↔ k < n := by omega
      simp [hne, hlt]
  · intro name a ha
    rw [hentries] at ha
    split at ha
    · rename_i heq
      exact ⟨n, heq.symm⟩
    · exact h.aliases name a ha

theorem exists_declareTower (h : Holds 0 d) (depth : Nat) :
    ∃ d', declareTower ⟨0⟩ depth d = .ok d' ∧ Holds (depth + 1) d' := by
  induction depth with
  | zero => exact h.declareAlias
  | succ depth ih =>
    obtain ⟨d₁, hd₁, hholds⟩ := ih
    rw [declareTower, hd₁]
    exact hholds.declareAlias

/-- A function under a new name goes through, and is found under it. -/
theorem exists_declareFunction {s : Signature} (hfresh : d.held? s.name = none)
    (hcheck : s.check = .ok ()) :
    ∃ d', d.declareFunction s = .ok d' ∧ d'.tupleNames.toList = d.tupleNames.toList ∧
      ∀ name, d'.held? name = if s.name = name then some (.function s) else d.held? name := by
  obtain ⟨d', hd', henters⟩ := Declarations.exists_enters (d := d) (x := .function s)
    (by rintro name ⟨⟩; exact hfresh) hcheck
  refine ⟨d', hd', henters.tuples.trans (List.append_nil _), fun name => ?_⟩
  rw [henters.entries]
  simp [Declaration.entryName?]

/-- The functions go through, and the tower after them. -/
theorem exists_declarations (depth : Nat) :
    ∃ d, declarations depth = .ok d ∧ Holds (depth + 1) d := by
  obtain ⟨d₀, hd₀⟩ : ∃ d, d = ((Declarations.empty.declareTuple "Ts").declareTuple
    "Ts1").declareTuple "Ts2" := ⟨_, rfl⟩
  have hheld₀ (name : String) : d₀.held? name = none := by
    rw [hd₀]
    exact Declarations.records_empty.entries name
  obtain ⟨d₁, hd₁, htuples₁, hheld₁⟩ :=
    exists_declareFunction (s := framed ⟨0⟩) (hheld₀ _) rfl
  obtain ⟨d₂, hd₂, htuples₂, hheld₂⟩ :=
    exists_declareFunction (d := d₁) (s := concat ⟨1⟩ ⟨2⟩) (by rw [hheld₁, hheld₀]; rfl) rfl
  obtain ⟨d₃, hd₃, htuples₃, hheld₃⟩ :=
    exists_declareFunction (d := d₂) (s := zipLists ⟨0⟩) (by rw [hheld₂, hheld₁, hheld₀]; rfl) rfl
  have hheld (name : String) : d₃.held? name =
      if "zip_lists" = name then some (.function (zipLists ⟨0⟩))
      else if "concat" = name then some (.function (concat ⟨1⟩ ⟨2⟩))
      else if "framed" = name then some (.function (framed ⟨0⟩)) else none := by
    rw [hheld₃, hheld₂, hheld₁, hheld₀]
    rfl
  have hholds : Holds 0 d₃ := by
    refine ⟨?_, ?_, fun k => ?_, fun name a ha => ?_⟩
    · rw [htuples₃, htuples₂, htuples₁, hd₀]
      rfl
    · simp [hheld, framed, concat, zipLists]
    · have hne (name : String) (h : name.toList.head? ≠ some 'N') : name ≠ nestName k :=
        (nestName_ne h k).symm
      rw [hheld, if_neg (hne _ (by decide)), if_neg (hne _ (by decide)),
        if_neg (hne _ (by decide)), if_neg (Nat.not_lt_zero k)]
    · rw [hheld] at ha
      repeat' split at ha
      all_goals cases ha
  obtain ⟨d, hd, hd'⟩ := exists_declareTower hholds depth
  refine ⟨d, ?_, hd'⟩
  rw [declarations, ← hd₀, hd₁]
  change (d₁.declareFunction _ >>= _) = _
  rw [hd₂]
  change (d₂.declareFunction _ >>= _) = _
  rw [hd₃]
  exact hd

/-! ### Calls -/

section calls

theorem matchCall_framed (n : Nat) :
    (matchCall (framed ⟨0⟩) (framedCall n)).result =
      .ok (Binding.empty.bindTuple ⟨0⟩ (argumentList n)) := by
  have hframe : frameVerdict [.named "int"] [.named "int"] [.named "str"] [.named "str"] =
      .ok Binding.empty := by rfl
  have hmatch : (matchParameters (.framed [.named "int"] ⟨0⟩ [.named "str"])
      ([.named "int"] ++ (argumentList n ++ [.named "str"]))).verdict =
        (frameVerdict [.named "int"] [.named "int"] [.named "str"] [.named "str"]).map fun b =>
          b.bindTuple ⟨0⟩ (argumentList n) :=
    verdict_matchParameters_framed (by simp) (by simp) rfl rfl (argumentList n)
  rw [hframe] at hmatch
  rw [← verdict_eq_ok_iff]
  exact hmatch

/-- The tail settles the split: the second run is as long as the tail, and the first one takes the
rest. -/
theorem matchCall_concat (n : Nat) :
    (matchCall (concat ⟨1⟩ ⟨2⟩) (concatCall n)).result =
      .ok ((Binding.empty.bindTuple ⟨2⟩ ((argumentList n).drop (n / 2))).bindTuple ⟨1⟩
        ((argumentList n).take (n / 2))) := by
  have htail : (solveAnchor (.packed ⟨2⟩) (.tuple ((argumentList n).drop (n / 2))) .empty).value? =
      some (Binding.empty.bindTuple ⟨2⟩ ((argumentList n).drop (n / 2))) := by
    simp [solveAnchor, value?_unify_packed, value?_matchList_spread]
  have hrow : (matchList unify .param [.spread ⟨1⟩, .spread ⟨2⟩]
      ((argumentList n).take (n / 2) ++ (argumentList n).drop (n / 2))
      (Binding.empty.bindTuple ⟨2⟩ ((argumentList n).drop (n / 2)))).value? =
        some ((Binding.empty.bindTuple ⟨2⟩ ((argumentList n).drop (n / 2))).bindTuple ⟨1⟩
          ((argumentList n).take (n / 2))) :=
    value?_matchList_spreads (by simp [Binding.tuple?_bindTuple])
      (by simp [Binding.tuple?_bindTuple])
  rw [List.take_append_drop] at hrow
  have hcall : matchCall (concat ⟨1⟩ ⟨2⟩) (concatCall n) =
      ((solveAnchor (.packed ⟨2⟩) (.tuple ((argumentList n).drop (n / 2))) .empty).under
        (.keyword "tail") >>=
          matchList unify .param [.spread ⟨1⟩, .spread ⟨2⟩] (argumentList n)) := by
    simp [matchCall, concat, concatCall, solveKeywords, collectKeywords, Call.keyword?,
      Call.extraKeywords, Signature.declares, ParameterList.ofTypes, Slot.ofType]
  rw [← value?_eq_some_iff, hcall, value?_bind, value?_under, htail, Option.bind_some, hrow]

theorem matchCall_zipLists (n : Nat) :
    (matchCall (zipLists ⟨0⟩) (zipCall n)).result =
      .ok (Binding.empty.bindTuple ⟨0⟩ (argumentList n)) := by
  have hmatch : (matchList unify .param [.mapped (.named "list") ⟨0⟩]
      (TypeExpr.mapOver (.named "list") (argumentList n)) .empty).value? =
        some (Binding.empty.bindTuple ⟨0⟩ (argumentList n)) :=
    value?_matchList_mapped (Binding.tuple?_empty _) (by simp)
      fun t => isGround_of_mem_argumentList
  rw [← value?_eq_some_iff]
  exact hmatch

end calls

/-! ### The tower -/

section tower

/-- Lists nested to a depth, around a tuple. -/
def nestedLists (contents : List TypeExpr) : Nat → TypeExpr
  | 0 => .tuple contents
  | k + 1 => .apply (.named "list") [nestedLists contents k]

/-- The names of a level and of the given number of levels below it, downwards. -/
def namesDown (k steps : Nat) : List String :=
  (List.range (steps + 1)).map fun i => nestName (k - i)

theorem namesDown_succ (k steps : Nat) :
    namesDown (k + 1) (steps + 1) = nestName (k + 1) :: namesDown k steps := by
  rw [namesDown, List.range_succ_eq_map, List.map_cons, List.map_map]
  simp [namesDown, Function.comp_def]

/-- A scope with the levels of the tower below a bound, and with no other names. -/
structure Spans (n : Nat) (scope : Scope) : Prop where
  levels : ∀ k < n, scope.find? (nestName k) = some (nest ⟨0⟩ k)
  others : ∀ name a, scope.find? name = some a → ∃ k, name = nestName k

variable {scope : Scope} {args : List TypeExpr}

theorem Holds.spans (h : Holds n d) : Spans n d.scope where
  levels k hk := by
    have hheld : d.held? (nestName k) = some (.template (nest ⟨0⟩ k)) := by rw [h.levels, if_pos hk]
    exact Declarations.held?_eq_template_iff.1 hheld
  others name a hfind := h.aliases name a (Declarations.held?_eq_template_iff.2 hfind)

theorem Spans.find?_eq_none (h : Spans n scope) {name : String}
    (hname : name.toList.head? ≠ some 'N') : scope.find? name = none := by
  cases hfind : scope.find? name with
  | none => rfl
  | some a =>
    obtain ⟨k, rfl⟩ := h.others name a hfind
    exact absurd rfl (nestName_ne hname k)

theorem Spans.settled_argumentList (h : Spans n scope) (len : Nat) :
    ∀ t ∈ argumentList len, scope.Settled t := by
  intro t ht name hname
  obtain ⟨i, -, rfl⟩ := List.mem_map.1 ht
  obtain ⟨word, hword, hhead⟩ := exists_argument i
  rw [hword, TypeExpr.mem_references_named] at hname
  obtain rfl := hname
  exact h.find?_eq_none hhead

theorem result_bindArguments_nest (k : Nat) (args : List TypeExpr) :
    ((nest ⟨0⟩ k).bindArguments args).result = .ok (Binding.empty.bindTuple ⟨0⟩ args) := by
  have hformal : (nest ⟨0⟩ k).formal = ⟨[.spread ⟨0⟩]⟩ := by cases k <;> rfl
  have hsingle : (nest ⟨0⟩ k).checkSingleTuple = .ok () := by
    rw [Alias.checkSingleTuple, hformal]
    rfl
  have hmatch : (matchParameters ⟨[.spread ⟨0⟩]⟩ args).result =
      .ok (Binding.empty.bindTuple ⟨0⟩ args) := by
    rw [matchParameters_eq, ← value?_eq_some_iff]
    exact value?_matchList_spread (Binding.tuple?_empty _) args
  rw [Alias.bindArguments, hsingle, hformal, if_neg (by exact Nat.not_lt_zero _)]
  exact hmatch

/-- The body of the bottom with its arguments. -/
theorem subst_body_bottom (args : List TypeExpr) :
    (nest ⟨0⟩ 0).body.subst (Binding.empty.bindTuple ⟨0⟩ args) = .ok (.tuple args) := by
  simp [nest, TypeExpr.tuple, TypeExpr.subst, TypeExpr.substAll, Binding.tuple?_bindTuple, within,
    bind, Except.bind]

/-- The body of any other level with its arguments. -/
theorem subst_body_level (args : List TypeExpr) (k : Nat) :
    (nest ⟨0⟩ (k + 1)).body.subst (Binding.empty.bindTuple ⟨0⟩ args) =
      .ok (.apply (.named "list") [.apply (.named (nestName k)) args]) := by
  simp [nest, TypeExpr.subst, TypeExpr.substAll, Binding.tuple?_bindTuple, within, bind,
    Except.bind]

/-- In the body of a level there is the level below to expand, and nothing else. -/
theorem replaceReferences_level (h : Spans n scope) (hargs : ∀ t ∈ args, scope.Settled t) {k : Nat}
    (hk : k < n) (expand : Alias → List TypeExpr → Attempt TypeExpr) :
    (TypeExpr.apply (.named "list") [.apply (.named (nestName k)) args]).replaceReferences
        (scope.replace expand) =
      (fun t => .apply (.named "list") [t]) <$> expand (nest ⟨0⟩ k) args := by
  have hlist : scope.find? "list" = none := h.find?_eq_none (by decide)
  have hargs : TypeExpr.replaceAll (scope.replace expand) args = pure args :=
    replaceAll_of_forall fun t ht => replaceReferences_of_settled (hargs t ht)
  have hhead : (TypeExpr.named "list").replaceReferences (scope.replace expand) =
      pure (.named "list") := by
    rw [TypeExpr.replaceReferences, Scope.replace, hlist, Option.map_none, Option.getD_none]
  rw [replaceReferences_apply (by rintro name ⟨⟩; exact hlist), hhead]
  simp only [TypeExpr.replaceAll, replaceReferences_apply_named (h.levels k hk), hargs, pure_bind,
    bind_assoc, map_eq_pure_bind]

/-- An expansion goes down the tower until it reaches the bottom or the stack is full. -/
theorem result_instantiate_nest (h : Spans n scope) (hargs : ∀ t ∈ args, scope.Settled t) {k : Nat}
    (hk : k < n) (limit : Nat) {stack : List String} (hstack : ∀ j ≤ k, nestName j ∉ stack) :
    (instantiate scope limit stack (nest ⟨0⟩ k) args).result =
      if k < limit then .ok (nestedLists args k)
      else .error ⟨.recursiveAlias (nestName (k - limit)) (stack ++ namesDown k limit), []⟩ := by
  induction limit generalizing k stack with
  | zero =>
    rw [instantiate, name_nest, if_neg (hstack k (Nat.le_refl k)), if_neg (Nat.not_lt_zero k)]
    rfl
  | succ limit ih =>
    have hstep {body : TypeExpr}
        (hbody : (nest ⟨0⟩ k).body.subst (Binding.empty.bindTuple ⟨0⟩ args) = .ok body) :
        (instantiate scope (limit + 1) stack (nest ⟨0⟩ k) args).result =
          (body.replaceReferences
            (scope.replace (instantiate scope limit (stack ++ [nestName k])))).result := by
      rw [instantiate, name_nest, if_neg (hstack k (Nat.le_refl k)),
        bind_of_ok (result_bindArguments_nest k args), hbody]
      rfl
    cases k with
    | zero =>
      have hsettled : scope.Settled (.tuple args) := by
        intro name hname
        rcases TypeExpr.mem_references_apply.1 hname with ⟨t, ht, hname⟩ | hname
        · exact hargs t ht name hname
        · obtain rfl := TypeExpr.mem_references_named.1 hname
          exact h.find?_eq_none (by decide)
      rw [hstep (subst_body_bottom args), replaceReferences_of_settled hsettled, if_pos (by simp)]
      rfl
    | succ k =>
      have hbelow : ∀ j ≤ k, nestName j ∉ stack ++ [nestName (k + 1)] := by
        intro j hj hmem
        rcases List.mem_append.1 hmem with hmem | hmem
        · exact hstack j (by omega) hmem
        · have := nestName_inj.1 (List.mem_singleton.1 hmem)
          omega
      have hlower := ih (Nat.lt_of_succ_lt hk) hbelow
      rw [hstep (subst_body_level args k), replaceReferences_level h hargs (by omega), result_map,
        hlower]
      by_cases hlt : k < limit
      · rw [if_pos hlt, if_pos (by omega)]
        rfl
      · rw [if_neg hlt, if_neg (by omega), namesDown_succ, Nat.add_sub_add_right,
          List.append_assoc, List.singleton_append]
        rfl

end tower

/-- The declarations of the workload go through, for any depth of the tower.  The calls are matched
as they are meant to be, for any number of arguments.  A level of the tower is expanded to its lists
around a tuple if the stack has room for it and the levels below; otherwise the expansion is given
up at the first level for which there is no room. -/
theorem workload_at_every_size (depth : Nat) :
    ∃ d, declarations depth = .ok d ∧ d.tupleNames = #["Ts", "Ts1", "Ts2"] ∧
      d.function? "framed" = some (framed ⟨0⟩) ∧
      d.function? "concat" = some (concat ⟨1⟩ ⟨2⟩) ∧
      d.function? "zip_lists" = some (zipLists ⟨0⟩) ∧
      (∀ len,
        (matchCall (framed ⟨0⟩) (framedCall len)).result =
          .ok (Binding.empty.bindTuple ⟨0⟩ (argumentList len)) ∧
        (matchCall (concat ⟨1⟩ ⟨2⟩) (concatCall len)).result =
          .ok ((Binding.empty.bindTuple ⟨2⟩ ((argumentList len).drop (len / 2))).bindTuple ⟨1⟩
            ((argumentList len).take (len / 2))) ∧
        (matchCall (zipLists ⟨0⟩) (zipCall len)).result =
          .ok (Binding.empty.bindTuple ⟨0⟩ (argumentList len))) ∧
      ∀ k ≤ depth, d.alias? (nestName k) = some (nest ⟨0⟩ k) ∧ ∀ limit len,
        (expandAlias d.scope limit (nest ⟨0⟩ k) (argumentList len)).result =
          if k < limit then .ok (nestedLists (argumentList len) k)
          else .error ⟨.recursiveAlias (nestName (k - limit)) (namesDown k limit), []⟩ := by
  obtain ⟨d, hd, hholds⟩ := exists_declarations depth
  have hfunction (s : Signature) (hs : s ∈ [framed ⟨0⟩, concat ⟨1⟩ ⟨2⟩, zipLists ⟨0⟩]) :
      d.function? s.name = some s := Declarations.held?_eq_function_iff.1 (hholds.functions s hs)
  refine ⟨d, hd, Array.toList_inj.1 hholds.tuples, hfunction (framed ⟨0⟩) (by simp),
    hfunction (concat ⟨1⟩ ⟨2⟩) (by simp), hfunction (zipLists ⟨0⟩) (by simp), ?_, ?_⟩
  · exact fun len => ⟨matchCall_framed len, matchCall_concat len, matchCall_zipLists len⟩
  · intro k hk
    have hlevel : d.scope.find? (nestName k) = some (nest ⟨0⟩ k) := hholds.spans.levels k (by omega)
    refine ⟨hlevel, fun limit len => ?_⟩
    have hpush : d.scope.push (nest ⟨0⟩ k) = d.scope :=
      Scope.push_of_find? ((name_nest ⟨0⟩ k).symm ▸ hlevel)
    rw [expandAlias, hpush]
    exact result_instantiate_nest hholds.spans (hholds.spans.settled_argumentList len) (by omega)
      limit (by simp)

end Workload

end Polyadic
