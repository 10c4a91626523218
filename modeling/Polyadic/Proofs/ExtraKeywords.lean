import Polyadic.Proofs.Ambiguity
import Polyadic.Proofs.Positions

/-! # Ambiguity inside further keywords

The keywords of a call that a function does not declare are matched against one and the same type,
behind the declared keywords and before the positional list.  The first of them may be left with an
ambiguous split; those after it find every tuple variable of the type known.  The check of a
function does not look into that type, so that it accepts functions that are ambiguous there
(`ambiguous_extra_accepted`).  Whether a function is, depends on its replay alone
(`extra_never_ambiguous_iff`), and to check the type behind the declared keywords, as if it were one
more of them, is enough to exclude it (`kwargsDetermined_of_check`). -/

namespace Polyadic

open Attempt

/-! ### Types one after another -/

/-- The outcomes of matching types one after another. -/
def replayTypes : List TypeExpr → Shape → List Outcome
  | [], K => [.ok K]
  | t :: rest, K => andThen (t.replay K) (replayTypes rest)

section replays

variable {t : TypeExpr} {types : List TypeExpr} {K K' : Shape} {tuples : List TupleVar}

/-- A type that is stuck behind other types is stuck in the whole sequence. -/
theorem error_mem_replayTypes_concat (hK : .ok K' ∈ replayTypes types K)
    (h : .error tuples ∈ t.replay K') : .error tuples ∈ replayTypes (types ++ [t]) K := by
  induction types generalizing K with
  | nil =>
    obtain rfl : K' = K := by simpa [replayTypes] using hK
    exact error_mem_andThen.2 (.inl h)
  | cons u rest ih =>
    obtain ⟨K₁, hK₁, hrest⟩ := ok_mem_andThen.1 hK
    exact error_mem_andThen.2 (.inr ⟨K₁, hK₁, ih hrest⟩)

/-- What the check of siblings accepts is not stuck in any replay. -/
theorem error_notMem_replayTypes {known known' : Known} (hplaced : ∀ t ∈ types, t.WellPlaced)
    (hconfined : ∀ t ∈ types, t.Confined) (hknown : ∀ ts, (K ts).isSome = true ↔ ts ∈ known)
    (h : checkSiblings types known = .ok known') : .error tuples ∉ replayTypes types K := by
  induction types generalizing K known with
  | nil => simp [replayTypes]
  | cons t rest ih =>
    obtain ⟨⟨⟩, ht, hrest⟩ := except_bind_eq_ok_iff.1 h
    have hagrees := agrees_of_mem_replay t (hplaced t (by simp)) (hconfined t (by simp)) K known
      fun ts _ => hknown ts
    rw [replayTypes, error_mem_andThen]
    rintro (hstuck | ⟨K₁, hK₁, hstuck⟩)
    · obtain ⟨e, he, -⟩ := hagrees _ hstuck
      rw [ht] at he
      cases he
    · obtain ⟨-, hdom⟩ := hagrees _ hK₁
      refine ih (fun u hu => hplaced u (by simp [hu])) (fun u hu => hconfined u (by simp [hu])) ?_
        hrest hstuck
      intro ts
      rw [hdom, hknown, List.mem_append]

end replays

/-! ### Functions -/

namespace Signature

/-- Whether no replay of the type for further keywords, behind the declared ones, is left with an
ambiguous split. -/
def kwargsDetermined (s : Signature) : Bool :=
  (replayTypes s.siblings .empty).all fun
    | .ok K => s.kwargs.all fun t => (t.replay K).all Except.isOk
    | .error _ => true

theorem kwargsDetermined_iff {s : Signature} : s.kwargsDetermined = true ↔
    ∀ K, .ok K ∈ replayTypes s.siblings .empty →
      ∀ t ∈ s.kwargs, ∀ tuples, .error tuples ∉ t.replay K := by
  rw [kwargsDetermined, List.all_eq_true]
  constructor
  · intro h K hK t ht tuples htuples
    have hkwargs : s.kwargs = some t := ht
    have hall : ∀ o ∈ t.replay K, o.isOk = true := by simpa [hkwargs] using h (.ok K) hK
    cases hall _ htuples
  · rintro h (tuples | K) ho
    · rfl
    · cases hkwargs : s.kwargs with
      | none => rfl
      | some t =>
        have hall : ∀ o ∈ t.replay K, o.isOk = true := by
          rintro (tuples | K') ho'
          · exact absurd ho' (h K ho t hkwargs tuples)
          · rfl
        simpa using hall

/-- No call with ground arguments is left with an ambiguous split inside a keyword that the function
does not declare. -/
def ExtraNeverAmbiguous (s : Signature) : Prop :=
  ∀ call : Call, (∀ t ∈ call.positional, t.IsGround) → (∀ k ∈ call.keywords, k.2.IsGround) →
    ∀ e, (matchCall s call).result = .error e → e.IsAmbiguous →
      ∀ name rest, e.path = .keyword name :: rest → s.declares name = true

theorem declares_iff {s : Signature} {name : String} :
    s.declares name = true ↔ name ∈ s.keywords.map Prod.fst := by
  simp [declares]

end Signature

/-! ### Determined functions are not ambiguous -/

section forward

variable {function : String} {call : Call} {keywords : List (String × TypeExpr)} {b : Binding}

/-- The declared keywords are matched as the replay of their types says. -/
theorem shape_of_solveKeywords (hground : ∀ k ∈ call.keywords, k.2.IsGround) (hb : b.IsGround) :
    (solveKeywords function call keywords b).Meets
      (fun b' => b'.IsGround ∧ .ok b'.shape ∈ replayTypes (keywords.map Prod.snd) b.shape)
      fun _ => True := by
  induction keywords generalizing b with
  | nil => exact ⟨hb, List.mem_singleton_self _⟩
  | cons keyword rest ih =>
    obtain ⟨name, formal⟩ := keyword
    rw [solveKeywords, meets_bind, meets_under]
    split
    · rename_i actual hactual
      have hmem : (name, actual) ∈ call.keywords := Call.mem_of_keyword hactual
      have hfollows : Follows (formal.replay b.shape) (unify formal actual b) :=
        follows_of_unify (.inl trivial) (fun (_ : True) => hground _ hmem) fun _ => hb
      rw [solveAnchor, meets_bind, meets_log, meets_recast]
      refine (hfollows.and (solved_of_unify (hground _ hmem) hb)).mono ?_ fun _ _ => trivial
      rintro b' ⟨hshape, hsolved⟩
      refine (ih hsolved.ground).imp ?_
      rintro b'' ⟨hb'', hshape'⟩
      exact ⟨hb'', ok_mem_andThen.2 ⟨b'.shape, hshape, hshape'⟩⟩
    · exact trivial

/-- The further keywords are not ambiguous if the first of them is not: it leaves nothing to bind
for the others. -/
theorem not_isAmbiguous_of_collectKeywords {kwargs : Option TypeExpr}
    (hground : ∀ k ∈ keywords, k.2.IsGround) (hb : b.IsGround)
    (h : ∀ t ∈ kwargs, ∀ tuples, .error tuples ∉ t.replay b.shape) :
    (collectKeywords function kwargs keywords b).Meets (fun _ => True) (¬·.IsAmbiguous) := by
  induction keywords generalizing b with
  | nil => exact trivial
  | cons keyword rest ih =>
    obtain ⟨name, actual⟩ := keyword
    cases kwargs with
    | none =>
      rintro ⟨tuples, hcause⟩
      cases hcause
    | some formal =>
      have hactual : actual.IsGround := hground (name, actual) (by simp)
      have hfollows : Follows (formal.replay b.shape) (unify formal actual b) :=
        follows_of_unify (.inl trivial) (fun (_ : True) => hactual) fun _ => hb
      rw [collectKeywords, meets_bind, meets_under]
      refine (hfollows.and (solved_of_unify hactual hb)).mono ?_ ?_
      · rintro b' ⟨hshape, hsolved⟩
        refine ih (fun k hk => hground k (by simp [hk])) hsolved.ground ?_
        rintro t ⟨⟩ tuples htuples
        rw [TypeExpr.replay_of_mem_replay hshape (Shape.le_refl _)] at htuples
        simp at htuples
      · rintro e ⟨houtcome, -⟩ ⟨tuples, hcause⟩
        exact h formal rfl tuples (houtcome tuples hcause)

theorem Signature.extraNeverAmbiguous_of_determined {s : Signature}
    (h : s.kwargsDetermined = true) : s.ExtraNeverAmbiguous := by
  rw [kwargsDetermined_iff] at h
  intro call _ hground e he hambiguous name rest hpath
  rw [matchCall, result_bind_eq_error_iff] at he
  -- A failure before the further keywords has a declared keyword at the head of its path, and one
  -- after them, in the positional list, has none.
  obtain he | ⟨b, hb, he⟩ := he
  · obtain ⟨name', hname, rest', hpath'⟩ := inKeyword_of_solveKeywords.of_error he
    obtain ⟨rfl, -⟩ : name = name' ∧ rest = rest' := by simpa [hpath] using hpath'
    exact declares_iff.2 hname
  · obtain ⟨hbGround, hshape⟩ := (shape_of_solveKeywords hground Binding.isGround_empty).of_ok hb
    rw [shape_empty] at hshape
    rw [result_bind_eq_error_iff] at he
    obtain he | ⟨b', -, he⟩ := he
    · have hextra : ∀ k ∈ call.extraKeywords s, k.2.IsGround :=
        fun k hk => hground k (List.mem_filter.1 hk).1
      exact absurd hambiguous
        ((not_isAmbiguous_of_collectKeywords hextra hbGround (h b.shape hshape)).of_error he)
    · obtain hnil | ⟨i, rest', hparam⟩ := atRow_of_matchList.of_error he
      · rw [hnil] at hpath
        cases hpath
      · rw [hparam] at hpath
        cases hpath

end forward

/-! ### Functions that are not determined are ambiguous -/

section backward

variable {K K' : Shape} {tuples : List TupleVar}

/-- Any names leave a name out. -/
theorem exists_fresh_name (names : List String) : ∃ name, name ∉ names := by
  have hbound : ∃ n, ∀ name ∈ names, name.length < n := by
    induction names with
    | nil => exact ⟨0, by simp⟩
    | cons name rest ih =>
      obtain ⟨n, hn⟩ := ih
      refine ⟨name.length + 1 + n, List.forall_mem_cons.2 ⟨by omega, fun other hother => ?_⟩⟩
      have := hn other hother
      omega
  obtain ⟨n, hn⟩ := hbound
  refine ⟨String.ofList (List.replicate n 'x'), fun hmem => ?_⟩
  have hlength := hn _ hmem
  simp at hlength

/-- Behind distinct names, each of the pairs is found under its own name. -/
theorem lookup_of_mem {passed : List (String × TypeExpr)} (hdistinct : (passed.map Prod.fst).Nodup)
    {p : String × TypeExpr} (hp : p ∈ passed) : passed.lookup p.1 = some p.2 := by
  obtain ⟨before, after, rfl⟩ := List.append_of_mem hp
  refine List.lookup_eq_some_iff.2 ⟨before, after, rfl, fun q hq => ?_⟩
  rw [List.map_append, List.nodup_append] at hdistinct
  have hne : q.1 ≠ p.1 := hdistinct.2.2 _ (List.mem_map_of_mem hq) _ (by simp)
  simpa using hne.symm

/-- Every shape that a replay of the declared keywords may end with is that of a call. -/
theorem exists_passed_of_mem_replayTypes (function : String)
    {keywords : List (String × TypeExpr)}
    (hplaced : ∀ k ∈ keywords, k.2.WellPlaced)
    (h : .ok K' ∈ replayTypes (keywords.map Prod.snd) K) :
    ∃ passed : List (String × TypeExpr), passed.map Prod.fst = keywords.map Prod.fst ∧
      (∀ p ∈ passed, p.2.IsGround) ∧
      ∀ call : Call, (∀ p ∈ passed, call.keyword? p.1 = some p.2) →
        ∀ b : Binding, b.IsPlain → b.shape = K →
          Realizes (.ok K') (solveKeywords function call keywords b) := by
  induction keywords generalizing K with
  | nil =>
    obtain rfl : K' = K := by simpa [replayTypes] using h
    refine ⟨[], rfl, by simp, fun call _ b hb hshape => ?_⟩
    rw [← hshape]
    exact realizes_pure hb
  | cons keyword rest ih =>
    obtain ⟨name, formal⟩ := keyword
    obtain ⟨K₁, hK₁, hrest⟩ := ok_mem_andThen.1 h
    obtain ⟨actual, hactual, hmatch⟩ := canRealize formal (hplaced (name, formal) (by simp)) K _ hK₁
    obtain ⟨passed, hnames, hground, hpassed⟩ := ih (fun k hk => hplaced k (by simp [hk])) hrest
    refine ⟨(name, actual) :: passed, by simp [hnames],
      List.forall_mem_cons.2 ⟨hactual, hground⟩, fun call hcall b hb hshape => ?_⟩
    have hkeyword : call.keyword? name = some actual := hcall (name, actual) (by simp)
    rw [solveKeywords, Realizes, meets_bind, meets_under]
    simp only [hkeyword]
    rw [solveAnchor, meets_bind, meets_log, meets_recast]
    refine (hmatch b hb hshape).next fun b' _ hb' hshape' => ?_
    exact hpassed call (fun p hp => hcall p (by simp [hp])) b' hb' hshape'

/-- A type for further keywords that is stuck in a replay is stuck in a call, which passes the
declared keywords and one more. -/
theorem Signature.exists_ambiguous_extra {s : Signature} {t : TypeExpr}
    (hdistinct : (s.keywords.map Prod.fst).Nodup) (hplaced : ∀ k ∈ s.keywords, k.2.WellPlaced)
    (hkwargs : s.kwargs = some t) (ht : t.WellPlaced) (hK : .ok K ∈ replayTypes s.siblings .empty)
    (hstuck : .error tuples ∈ t.replay K) :
    ∃ call e name rest, (∀ a ∈ call.positional, a.IsGround) ∧
      (∀ k ∈ call.keywords, k.2.IsGround) ∧ (matchCall s call).result = .error e ∧
      e.cause = .ambiguousSplit tuples ∧ e.path = .keyword name :: rest ∧
      s.declares name = false := by
  obtain ⟨passed, hnames, hground, hpassed⟩ :=
    exists_passed_of_mem_replayTypes s.name hplaced hK
  obtain ⟨actual, hactual, hmatch⟩ := canRealize t ht K _ hstuck
  obtain ⟨name, hname⟩ := exists_fresh_name (s.keywords.map Prod.fst)
  have hdeclares : s.declares name = false := by
    rw [Bool.eq_false_iff]
    exact fun h => hname (declares_iff.1 h)
  let call : Call := ⟨[], passed ++ [(name, actual)]⟩
  have hlookup : ∀ p ∈ passed, call.keyword? p.1 = some p.2 := by
    intro p hp
    rw [Call.keyword?, List.lookup_append, lookup_of_mem (hnames ▸ hdistinct) hp, Option.some_or]
  have hextra : call.extraKeywords s = [(name, actual)] := by
    have hdeclared : passed.filter (fun k => !s.declares k.1) = [] := by
      refine List.filter_eq_nil_iff.2 fun p hp => ?_
      have hmem : p.1 ∈ s.keywords.map Prod.fst := hnames ▸ List.mem_map_of_mem hp
      simp [declares_iff.2 hmem]
    simp only [Call.extraKeywords, call, List.filter_append, hdeclared]
    simp [hdeclares]
  obtain ⟨b, hb, hplain, hshape⟩ :=
    (hpassed call hlookup .empty Binding.isPlain_empty shape_empty).exists_ok
  obtain ⟨e, he, hcause⟩ := (hmatch b hplain hshape).exists_error
  have hfails : (matchCall s call).result = .error (e.under (.keyword name)) := by
    rw [matchCall, result_bind_eq_error_iff]
    refine .inr ⟨b, hb, result_bind_eq_error_iff.2 (.inl ?_)⟩
    rw [hextra, hkwargs, collectKeywords, result_bind_eq_error_iff]
    exact .inl (within_eq_error_iff.2 ⟨e, he, rfl⟩)
  refine ⟨call, _, name, e.path, by simp [call], ?_, hfails, hcause, rfl, hdeclares⟩
  intro k hk
  rcases List.mem_append.1 hk with hk | hk
  · exact hground k hk
  · obtain rfl := List.mem_singleton.1 hk
    exact hactual

end backward

/-! ### When further keywords are ambiguous -/

section whole

variable {s : Signature}

/-- A type for further keywords that would pass the check as one more declared keyword, and is
confined like the others, is never stuck behind them. -/
theorem Signature.kwargsDetermined_of_check
    (hplaced : ∀ t ∈ s.siblings ++ s.kwargs.toList, t.WellPlaced)
    (hconfined : ∀ t ∈ s.siblings ++ s.kwargs.toList, t.Confined)
    (h : ParameterList.check ⟨[]⟩ (s.siblings ++ s.kwargs.toList) = .ok ()) :
    s.kwargsDetermined = true := by
  rw [kwargsDetermined_iff]
  intro K hK t ht tuples hstuck
  have hkwargs : s.kwargs = some t := ht
  rw [hkwargs, Option.toList_some] at hplaced hconfined h
  obtain ⟨known, hknown, -⟩ := except_bind_eq_ok_iff.1 h
  have hnone : ∀ ts, (Shape.empty ts).isSome = true ↔ ts ∈ ([] : Known) := by simp [Shape.empty]
  exact error_notMem_replayTypes hplaced hconfined hnone hknown
    (error_mem_replayTypes_concat hK hstuck)

/-- A call is never left with an ambiguous split inside a further keyword if the function is
determined.  Conversely, a function that is not determined has such a call, if its keywords are
distinct and well placed.  Confined functions are determined if the type for further keywords passes
the check behind the declared ones. -/
theorem extra_never_ambiguous_iff (s : Signature) :
    (s.kwargsDetermined = true → s.ExtraNeverAmbiguous) ∧
    ((s.keywords.map Prod.fst).Nodup → (∀ t ∈ s.siblings ++ s.kwargs.toList, t.WellPlaced) →
      ((s.ExtraNeverAmbiguous ↔ s.kwargsDetermined = true) ∧
        ((∀ t ∈ s.siblings ++ s.kwargs.toList, t.Confined) →
          ParameterList.check ⟨[]⟩ (s.siblings ++ s.kwargs.toList) = .ok () →
          s.kwargsDetermined = true))) := by
  refine ⟨Signature.extraNeverAmbiguous_of_determined, fun hdistinct hplaced => ?_⟩
  refine ⟨⟨fun hnever => ?_, Signature.extraNeverAmbiguous_of_determined⟩,
    Signature.kwargsDetermined_of_check hplaced⟩
  rw [Signature.kwargsDetermined_iff]
  intro K hK t ht tuples hstuck
  have hkeywords : ∀ k ∈ s.keywords, k.2.WellPlaced := fun k hk =>
    hplaced k.2 (List.mem_append_left _ (List.mem_map_of_mem hk))
  have hkwargs : t.WellPlaced :=
    hplaced t (List.mem_append_right _ (Option.mem_toList.2 ht))
  obtain ⟨call, e, name, rest, hpositional, hground, he, hcause, hpath, hextra⟩ :=
    Signature.exists_ambiguous_extra hdistinct hkeywords ht hkwargs hK hstuck
  rw [hnever call hpositional hground e he ⟨tuples, hcause⟩ name rest hpath] at hextra
  cases hextra

/-- Behind the keyword `x: tuple[*Ts0]`, further keywords of the type `list[*Ts0, *Ts1]` are never
ambiguous. -/
theorem extra_never_ambiguous_behind : Signature.ExtraNeverAmbiguous
    ⟨"f", ⟨[]⟩, [("x", .packed ⟨0⟩)], some (.apply (.named "list") [.spread ⟨0⟩, .spread ⟨1⟩]),
      .named "int"⟩ := by
  have h := extra_never_ambiguous_iff
    ⟨"f", ⟨[]⟩, [("x", .packed ⟨0⟩)], some (.apply (.named "list") [.spread ⟨0⟩, .spread ⟨1⟩]),
      .named "int"⟩
  have hiff := h.2 (by decide) (by decide)
  exact hiff.1.2 (hiff.2 (by decide) rfl)

/-- The check accepts a function whose further keywords, of the type `list[*Ts0, *Ts1]`, leave a
call with an ambiguous split. -/
theorem ambiguous_extra_accepted :
    Signature.check ⟨"f", ⟨[]⟩, [], some (.apply (.named "list") [.spread ⟨0⟩, .spread ⟨1⟩]),
      .named "int"⟩ = .ok () ∧
    (matchCall ⟨"f", ⟨[]⟩, [], some (.apply (.named "list") [.spread ⟨0⟩, .spread ⟨1⟩]),
      .named "int"⟩ ⟨[], [("x", .apply (.named "list") [.named "int"])]⟩).result =
        .error ⟨.ambiguousSplit [⟨0⟩, ⟨1⟩], [.keyword "x"]⟩ ∧
    ¬Signature.ExtraNeverAmbiguous
      ⟨"f", ⟨[]⟩, [], some (.apply (.named "list") [.spread ⟨0⟩, .spread ⟨1⟩]), .named "int"⟩ := by
  refine ⟨rfl, rfl, fun h => ?_⟩
  have hdeclared := h ⟨[], [("x", .apply (.named "list") [.named "int"])]⟩ (by simp) (by simp) _ rfl
    ⟨_, rfl⟩ "x" [] rfl
  cases hdeclared

end whole

end Polyadic
