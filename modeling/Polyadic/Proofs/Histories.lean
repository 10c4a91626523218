import Polyadic.Proofs.Mirroring
import Polyadic.Proofs.Recursion

/-! # Histories of sessions

What a session answers does not depend on what it has done before, failures included, nor on
whether it keeps steps; and the steps that it keeps depend on nothing but the question
(`sessions_forget`).  For this the work on a question is compared with one and the same attempt,
whatever recorder it starts from (`Mirrors`): it is enough that the work starts from an empty
binding, an empty trail, an empty stack and an empty log. -/

namespace Polyadic

/-! ### Expansion -/

section expansion

variable {α β : Type} {stack : List String}

/-- Work under a stack does what an attempt says, outside of all parts and without changing the
binding. -/
def Delivers (stack : List String) (x : Work α) (y : Attempt α) : Prop :=
  ∀ r : Recorder, r.trail = [] → r.stack = stack → Mirrors x r y id fun _ => r.binding

theorem delivers_pure (a : α) : Delivers stack (pure a) (pure a) :=
  fun _ _ _ => mirrors_pure rfl rfl

theorem Delivers.bind {x : Work α} {y : Attempt α} {f : α → Work β} {g : α → Attempt β}
    (hx : Delivers stack x y) (hf : ∀ a, Delivers stack (f a) (g a)) :
    Delivers stack (x >>= f) (y >>= g) :=
  fun r htrail hstack => (hx r htrail hstack).bind fun a _ => hf a _ htrail hstack

theorem delivers_ofExcept (y : Except Failure α) :
    Delivers stack (ofExcept y) (Attempt.ofExcept y) :=
  fun _ htrail _ => mirrors_ofExcept htrail y

theorem Delivers.onStack {name : String} {x : Work α} {y : Attempt α}
    (h : Delivers (stack ++ [name]) x y) : Delivers stack (InPlace.onStack name x) y := by
  rintro r htrail rfl
  have h := h { r with stack := r.stack ++ [name] } htrail rfl
  cases hy : y.result with
  | ok a =>
    have hrun : InPlace.onStack name x r = .ok a { r with log := r.log.pushAll y.events } :=
      bracket_ok (h.of_ok hy) (by rw [List.dropLast_concat])
    exact mirrors_of_ok hy hrun
  | error e =>
    obtain ⟨r', hr', hlog⟩ := h.of_error hy
    exact mirrors_of_error hy ⟨r', bracket_error hr', hlog⟩

variable {scope : Scope} {expand : Alias → List TypeExpr → Work TypeExpr}
  {expand' : Alias → List TypeExpr → Attempt TypeExpr}

/-- What an expansion in place makes of a name and its arguments. -/
def Scope.replaceInPlace (scope : Scope) (expand : Alias → List TypeExpr → Work TypeExpr)
    (name : String) (args : List TypeExpr) : Option (Work TypeExpr) :=
  (scope.find? name).map fun a => expand a args

theorem delivers_replace (h : ∀ a args, Delivers stack (expand a args) (expand' a args))
    (name : String) (args : List TypeExpr) (t : TypeExpr) :
    Delivers stack ((scope.replaceInPlace expand name args).getD (pure t))
      ((scope.replace expand' name args).getD (pure t)) := by
  rw [Scope.replaceInPlace, Scope.replace]
  cases scope.find? name with
  | none => exact delivers_pure t
  | some a => exact h a args

theorem delivers_replaceAll {types : List TypeExpr}
    (h : ∀ t ∈ types, Delivers stack (InPlace.replaceReferences (scope.replaceInPlace expand) t)
      (t.replaceReferences (scope.replace expand'))) :
    Delivers stack (InPlace.replaceAll (scope.replaceInPlace expand) types)
      (TypeExpr.replaceAll (scope.replace expand') types) := by
  induction types with
  | nil => exact delivers_pure []
  | cons t types ih =>
    rw [InPlace.replaceAll, TypeExpr.replaceAll]
    exact (h t (by simp)).bind fun t' => (ih fun u hu => h u (by simp [hu])).bind fun types' =>
      delivers_pure _

theorem delivers_replaceReferences
    (h : ∀ a args, Delivers stack (expand a args) (expand' a args)) (t : TypeExpr) :
    Delivers stack (InPlace.replaceReferences (scope.replaceInPlace expand) t)
      (t.replaceReferences (scope.replace expand')) := by
  induction t using TypeExpr.induct with
  | named name =>
    rw [InPlace.replaceReferences, TypeExpr.replaceReferences]
    exact delivers_replace h name [] _
  | var | packed | spread =>
    rw [InPlace.replaceReferences, TypeExpr.replaceReferences]
    exact delivers_pure _
  | spreadMap ctor ts ih =>
    cases ctor with
    | named name =>
      rw [InPlace.replaceReferences, TypeExpr.replaceReferences]
      exact delivers_pure _
    | _ =>
      rw [InPlace.replaceReferences, TypeExpr.replaceReferences]
      · exact ih.bind fun ctor => delivers_pure _
      all_goals simp
  | apply head args hhead hargs =>
    have hargs := delivers_replaceAll hargs
    cases head with
    | named name =>
      rw [InPlace.replaceReferences, TypeExpr.replaceReferences]
      exact hargs.bind fun args => delivers_replace h name args _
    | _ =>
      rw [InPlace.replaceReferences, TypeExpr.replaceReferences]
      · exact hargs.bind fun args => hhead.bind fun head => delivers_pure _
      all_goals simp
  | union members hmembers =>
    rw [InPlace.replaceReferences, TypeExpr.replaceReferences]
    exact (delivers_replaceAll hmembers).bind fun members => delivers_pure _
  | arrow params result hparams hresult =>
    rw [InPlace.replaceReferences, TypeExpr.replaceReferences]
    exact (delivers_replaceAll hparams).bind fun params => hresult.bind fun result =>
      delivers_pure _

/-! ### Attempts on a recorder -/

/-- An attempt in place starts from the same state on every recorder, the log apart. -/
theorem record_of_mirrors {x : Work α} {r : Recorder} {y : Attempt α} {bound : α → Binding}
    (h : Mirrors x r.start y id bound) :
    (r.record x).1 = y.result ∧ (r.record x).2.log = r.log.clear.pushAll y.events := by
  rw [Recorder.record]
  cases hy : y.result with
  | ok a =>
    rw [h.of_ok hy]
    exact ⟨rfl, rfl⟩
  | error e =>
    obtain ⟨r', hr', hlog⟩ := h.of_error hy
    rw [hr']
    exact ⟨rfl, hlog⟩

/-- The binding at the end is what the attempt returns. -/
theorem Mirrors.binding {x : Work Unit} {r : Recorder} {y : Attempt Binding}
    (h : Mirrors x r y (fun _ => ()) id) :
    Mirrors (x >>= fun _ => InPlace.binding) r y id id := by
  have hlast : Mirrors (x >>= fun _ => InPlace.binding) r (y >>= pure) id id :=
    h.bind fun b log => mirrors_of_ok rfl rfl
  rwa [bind_pure] at hlast

theorem bindArguments_eq (a : Alias) (args : List TypeExpr) :
    a.bindArguments args = Attempt.ofExcept (InPlace.bindArguments a args) := by
  rw [Alias.bindArguments, InPlace.bindArguments]
  split
  · rfl
  · have hmatch := (record_of_mirrors
      (tracks_matchAnchored a.formal args [] (Recorder.start {}) rfl).binding).1
    cases a.checkSingleTuple with
    | error e => rfl
    | ok _ =>
      show (matchParameters a.formal args).silent = Attempt.ofExcept _
      rw [Attempt.silent]
      exact congrArg _ hmatch.symm

theorem delivers_reportCycle (name : String) (chain : List String) :
    Delivers stack (InPlace.reportCycle name chain : Work α) (reportCycle name chain) :=
  fun _ _ _ => (mirrors_note _).bind fun _ _ => mirrors_fail _

theorem delivers_instantiate (budget : Nat) (a : Alias) (args : List TypeExpr) :
    Delivers stack (InPlace.instantiate scope budget a args)
      (instantiate scope budget stack a args) := by
  induction budget generalizing stack a args with
  | zero =>
    rintro r htrail rfl
    refine mirrors_get ?_
    rw [instantiate]
    by_cases hcycle : a.name ∈ r.stack
    · simp only [hcycle, if_true]
      exact delivers_reportCycle _ _ r htrail rfl
    · simp only [hcycle, if_false]
      exact delivers_reportCycle _ _ r htrail rfl
  | succ budget ih =>
    rintro r htrail rfl
    refine mirrors_get ?_
    rw [instantiate]
    by_cases hcycle : a.name ∈ r.stack
    · simp only [hcycle, if_true]
      exact delivers_reportCycle _ _ r htrail rfl
    · simp only [hcycle, if_false]
      have hbody (body : TypeExpr) : Delivers r.stack
          (InPlace.onStack a.name (InPlace.replaceReferences
            (scope.replaceInPlace (InPlace.instantiate scope budget)) body))
          (body.replaceReferences
            (scope.replace (instantiate scope budget (r.stack ++ [a.name])))) :=
        (delivers_replaceReferences (fun a' args => ih a' args) body).onStack
      have hnote (e : Event) : Delivers r.stack (Work.noteIfEnabled e) (Attempt.log e) :=
        fun _ _ _ => mirrors_noteIfEnabled e
      rw [bindArguments_eq]
      exact (delivers_ofExcept _).bind (fun b => (hnote _).bind fun _ =>
        (delivers_ofExcept (a.body.subst b)).bind hbody) r htrail rfl

end expansion

/-! ### Steps -/

/-- The steps of events, numbered from one on. -/
def numberedSteps (events : List Event) : List (Nat × Step) :=
  events.zipIdx.map fun (e, i) => (i + 1, e.step)

theorem Log.entries_pushAll {l : Log} (h : l.enabled = true) (events : List Event) :
    (l.pushAll events).entries.toList =
      l.entries.toList ++ (events.zipIdx l.entries.size).map fun (e, i) => (i + 1, e.step) := by
  induction events generalizing l with
  | nil => simp
  | cons e events ih =>
    have hpush : l.push e =
        { l with entries := l.entries.push (l.entries.size + 1, e.step) } := if_pos h
    rw [pushAll_cons, ih (by rw [hpush]; exact h), hpush]
    simp [List.zipIdx_cons]

theorem Log.pushAll_of_not_enabled {l : Log} (h : ¬l.enabled = true) (events : List Event) :
    l.pushAll events = l := by
  induction events with
  | nil => rfl
  | cons e events ih =>
    rw [pushAll_cons, push_of_not_enabled h, ih]

theorem Log.steps_pushAll (l : Log) (events : List Event) :
    (l.clear.pushAll events).entries.toList =
      if l.enabled then numberedSteps events else [] := by
  split
  · rename_i h
    rw [entries_pushAll (l := l.clear) h]
    rfl
  · rename_i h
    rw [pushAll_of_not_enabled (l := l.clear) h]
    rfl

theorem Log.enabled_pushAll (l : Log) (events : List Event) :
    (l.pushAll events).enabled = l.enabled := by
  induction events generalizing l with
  | nil => rfl
  | cons e events ih =>
    rw [pushAll_cons, ih, push]
    split <;> rfl

/-! ### Runs -/

section runs

variable {κ α : Type} {attempt : κ → Work α} {answer : κ → Attempt α}

/-- Questions are answered in place as attempts say, on every recorder. -/
def Answers (attempt : κ → Work α) (answer : κ → Attempt α) : Prop :=
  ∀ (q : κ) (r : Recorder), ∃ bound, Mirrors (attempt q) r.start (answer q) id bound

theorem Answers.result (h : Answers attempt answer) (q : κ) (r : Recorder) :
    (r.record (attempt q)).1 = (answer q).result := by
  obtain ⟨bound, h⟩ := h q r
  exact (record_of_mirrors h).1

theorem Answers.steps (h : Answers attempt answer) (q : κ) (r : Recorder) :
    (r.record (attempt q)).2.steps =
      if r.log.enabled then numberedSteps (answer q).events else [] := by
  obtain ⟨bound, h⟩ := h q r
  rw [Recorder.steps, (record_of_mirrors h).2, Log.steps_pushAll]

theorem Answers.enabled (h : Answers attempt answer) (q : κ) (r : Recorder) :
    (r.record (attempt q)).2.log.enabled = r.log.enabled := by
  obtain ⟨bound, h⟩ := h q r
  rw [(record_of_mirrors h).2, Log.enabled_pushAll]
  rfl

/-- Whether a recorder keeps steps after commands. -/
def Recorder.enabledAfter (r : Recorder) (commands : List (Command κ)) : Bool :=
  r.log.enabled || commands.any fun
    | .enable => true
    | .ask _ => false

/-- A recorder that has done nothing yet. -/
def Recorder.fresh (enabled : Bool) : Recorder := { log := { enabled := enabled } }

/-- A session answers a question as a fresh session does that keeps no steps, whatever it did before
and whether or not it keeps steps.  The steps that it shows then are those of a fresh session that
keeps steps if this one was told to, and none otherwise. -/
def Forgets (attempt : κ → Work α) : Prop :=
  ∀ (r : Recorder) (commands : List (Command κ)) (i : Nat) (q : κ),
    commands[i]? = some (.ask q) → ∃ response,
      (r.run attempt commands)[i]? = some response ∧
      response.result = some ((Recorder.fresh false).record (attempt q)).1 ∧
      response.steps =
        ((Recorder.fresh (r.enabledAfter (commands.take i))).record (attempt q)).2.steps ∧
      (r.enabledAfter (commands.take i) = false → response.steps = [])

theorem Answers.enabledAfter_step (h : Answers attempt answer) (r : Recorder) (c : Command κ)
    (commands : List (Command κ)) :
    (r.step attempt c).2.enabledAfter commands = r.enabledAfter (c :: commands) := by
  cases c with
  | enable => simp [Recorder.step, Recorder.enabledAfter, Recorder.enable]
  | ask q => simp [Recorder.step, Recorder.enabledAfter, h.enabled]

theorem Answers.forgets (h : Answers attempt answer) : Forgets attempt := by
  intro r commands i q hq
  induction commands generalizing r i with
  | nil => cases hq
  | cons c commands ih =>
    cases i with
    | zero =>
      obtain rfl : c = .ask q := by simpa using hq
      have hsteps : (r.record (attempt q)).2.steps =
          ((Recorder.fresh (r.enabledAfter ([] : List (Command κ)))).record
            (attempt q)).2.steps := by
        rw [h.steps, h.steps]
        simp [Recorder.enabledAfter, Recorder.fresh]
      refine ⟨⟨some (r.record (attempt q)).1, (r.record (attempt q)).2.steps⟩, rfl, ?_, hsteps, ?_⟩
      · rw [h.result, h.result]
      · intro hdisabled
        have henabled : r.log.enabled = false := by simpa [Recorder.enabledAfter] using hdisabled
        simp [h.steps, henabled]
    | succ i =>
      obtain ⟨response, hresponse, hrest⟩ := ih (r.step attempt c).2 i hq
      rw [h.enabledAfter_step] at hrest
      exact ⟨response, hresponse, hrest⟩

end runs

/-! ### Sessions -/

/-- The attempt that answers a question about matching. -/
def MatchQuery.answer : MatchQuery → Attempt Binding
  | parameters formal arguments => matchParameters formal arguments
  | type formal actual => matchType formal actual
  | anchored formal arguments anchors => matchAnchored formal arguments anchors
  | call s c => matchCall s c

/-- The attempt that answers a question about expansion. -/
def ExpansionQuery.answer (scope : Scope) (depth : Nat) : ExpansionQuery → Attempt TypeExpr
  | expansion a arguments => expandAlias scope depth a arguments
  | references t => expandReferences scope depth t

theorem answers_matchQuery : Answers MatchQuery.attempt MatchQuery.answer := by
  intro q r
  refine ⟨id, ?_⟩
  cases q with
  | parameters formal arguments =>
    exact (tracks_matchAnchored formal arguments [] r.start rfl).binding
  | type formal actual => exact (isTrackedBy_unify formal actual r.start).binding
  | anchored formal arguments anchors =>
    exact (tracks_matchAnchored formal arguments anchors r.start rfl).binding
  | call s c => exact (tracks_matchCall s c r.start rfl).binding

theorem answers_expansionQuery (scope : Scope) (depth : Nat) :
    Answers (ExpansionQuery.attempt scope depth) (ExpansionQuery.answer scope depth) := by
  intro q r
  refine ⟨fun _ => r.start.binding, ?_⟩
  cases q with
  | expansion a arguments => exact delivers_instantiate depth a arguments r.start rfl rfl
  | references t =>
    have ht : Delivers [] (InPlace.expandReferences scope depth t)
        (expandReferences scope depth t) :=
      delivers_replaceReferences (fun a args => delivers_instantiate depth a args) t
    exact ht r.start rfl rfl

/-- Neither matching sessions nor expansion sessions are influenced by what they did before, and
keeping steps has no influence on what they answer. -/
theorem sessions_forget :
    Forgets MatchQuery.attempt ∧
      ∀ (scope : Scope) (depth : Nat), Forgets (ExpansionQuery.attempt scope depth) :=
  ⟨answers_matchQuery.forgets, fun scope depth => (answers_expansionQuery scope depth).forgets⟩

end Polyadic
