import Polyadic.Declarations

/-! # What a table of declarations holds

Declarations are entered one after another, in any order and of any kind.  A table then holds under
each name the first alias or function of that name that passes its own check, whichever of the two
it is (`Declaration.firstValid?`), and the variables of each kind by the order of their declaration.
This is said of a table by `Records`; one declaration keeps it, whether it is entered or refused
(`Records.declare`), and so does any number of them (`records_declareAll`). -/

namespace Polyadic

/-! ### Declarations -/

namespace Declaration

/-- The name under which a declaration is entered, if it is an alias or a function. -/
def entryName? : Declaration → Option String
  | template a => some a.name
  | function s => some s.name
  | scalar _ | tuple _ => none

/-- The check that a declaration has to pass.  There is none for variables. -/
def check : Declaration → Except Failure Unit
  | template a => a.check
  | function s => s.check
  | scalar _ | tuple _ => .ok ()

/-- The name of a scalar variable. -/
def scalarName? : Declaration → Option String
  | scalar name => some name
  | _ => none

/-- The name of a tuple variable. -/
def tupleName? : Declaration → Option String
  | tuple name => some name
  | _ => none

/-- Whether a declaration is an alias or a function of the given name that passes its own check. -/
def isValidFor (name : String) (x : Declaration) : Bool :=
  x.entryName? == some name && x.check.isOk

/-- The first alias or function of a name, over both kinds, that passes its own check. -/
def firstValid? (name : String) (xs : List Declaration) : Option Declaration :=
  xs.find? (isValidFor name)

theorem isValidFor_iff {name : String} {x : Declaration} :
    x.isValidFor name = true ↔ x.entryName? = some name ∧ x.check = .ok () := by
  cases h : x.check <;> simp [isValidFor, h, Except.isOk, Except.toBool]

theorem firstValid?_concat (name : String) (xs : List Declaration) (x : Declaration) :
    firstValid? name (xs ++ [x]) =
      (firstValid? name xs).or (if x.isValidFor name then some x else none) := by
  rw [firstValid?, List.find?_append, List.find?_singleton, firstValid?]

end Declaration

namespace Declarations

open Declaration

variable {d d' : Declarations} {x : Declaration} {xs : List Declaration} {name : String}

/-! ### Entries -/

/-- The alias or function that a table holds under a name. -/
def held? (d : Declarations) (name : String) : Option Declaration :=
  ((d.alias? name).map template).or ((d.function? name).map function)

theorem held?_eq_none_iff :
    d.held? name = none ↔ ¬(name ∈ d.aliases ∨ name ∈ d.functions) := by
  simp [held?, alias?, function?]

/-- No name is that of an alias and of a function. -/
theorem alias?_eq_none_or (d : Declarations) (name : String) :
    d.alias? name = none ∨ d.function? name = none := by
  by_cases h : name ∈ d.aliases
  · exact .inr (by simpa [function?] using d.names_disjoint name h)
  · exact .inl (by simpa [alias?] using h)

theorem held?_eq_template_iff {a : Alias} :
    d.held? name = some (template a) ↔ d.alias? name = some a := by
  cases h : d.alias? name <;> simp [held?, h]

theorem held?_eq_function_iff {s : Signature} :
    d.held? name = some (function s) ↔ d.function? name = some s := by
  rcases d.alias?_eq_none_or name with h | h
  · simp [held?, h]
  · cases d.alias? name <;> simp [held?, h]

/-- What a declaration that goes through does to a table. -/
structure Enters (d : Declarations) (x : Declaration) (d' : Declarations) : Prop where
  valid : x.check = .ok ()
  fresh : ∀ name, x.entryName? = some name → d.held? name = none
  entries : ∀ name, d'.held? name = if x.entryName? = some name then some x else d.held? name
  scalars : d'.scalarNames.toList = d.scalarNames.toList ++ x.scalarName?.toList
  tuples : d'.tupleNames.toList = d.tupleNames.toList ++ x.tupleName?.toList

theorem declareAlias_cases (d : Declarations) (a : Alias) :
    (∃ d', d.declareAlias a = .ok d' ∧ d.Enters (template a) d') ∨
    (d.held? a.name ≠ none ∧ d.declareAlias a = .error ⟨.duplicate a.name, []⟩) ∨
    (d.held? a.name = none ∧ ∃ e, a.check = .error e ∧ d.declareAlias a = .error e) := by
  unfold declareAlias
  split
  · rename_i hdeclared
    exact .inr (.inl ⟨fun h => held?_eq_none_iff.1 h hdeclared, rfl⟩)
  · rename_i hdeclared
    have hfresh : d.held? a.name = none := held?_eq_none_iff.2 hdeclared
    split
    · rename_i e he
      exact .inr (.inr ⟨hfresh, e, he, rfl⟩)
    · rename_i hchecked
      refine .inl ⟨_, rfl, hchecked, ?_, ?_, by simp [scalarName?], by simp [tupleName?]⟩
      · rintro name ⟨⟩
        exact hfresh
      · intro name
        simp only [held?, alias?, function?, Std.ExtTreeMap.getElem?_insert]
        by_cases h : a.name = name <;> simp [h, entryName?]

theorem declareFunction_cases (d : Declarations) (s : Signature) :
    (∃ d', d.declareFunction s = .ok d' ∧ d.Enters (function s) d') ∨
    (d.held? s.name ≠ none ∧ d.declareFunction s = .error ⟨.duplicate s.name, []⟩) ∨
    (d.held? s.name = none ∧ ∃ e, s.check = .error e ∧ d.declareFunction s = .error e) := by
  unfold declareFunction
  split
  · rename_i hdeclared
    exact .inr (.inl ⟨fun h => held?_eq_none_iff.1 h hdeclared, rfl⟩)
  · rename_i hdeclared
    have hfresh : d.held? s.name = none := held?_eq_none_iff.2 hdeclared
    split
    · rename_i e he
      exact .inr (.inr ⟨hfresh, e, he, rfl⟩)
    · rename_i hchecked
      refine .inl ⟨_, rfl, hchecked, ?_, ?_, by simp [scalarName?], by simp [tupleName?]⟩
      · rintro name ⟨⟩
        exact hfresh
      · intro name
        have halias : d.alias? s.name = none := by simpa [alias?] using fun h => hdeclared (.inl h)
        simp only [held?, alias?, function?, Std.ExtTreeMap.getElem?_insert] at halias ⊢
        by_cases h : s.name = name
        · subst h
          simp [halias, entryName?]
        · simp [h, entryName?]

/-- A declaration is entered, or refused because its name is taken or its check fails. -/
theorem declare_cases (d : Declarations) (x : Declaration) :
    (∃ d', d.declare x = .ok d' ∧ d.Enters x d') ∨
    ∃ name, x.entryName? = some name ∧
      (d.held? name ≠ none ∧ d.declare x = .error ⟨.duplicate name, []⟩ ∨
        d.held? name = none ∧ ∃ e, x.check = .error e ∧ d.declare x = .error e) := by
  cases x with
  | scalar name =>
    exact .inl ⟨d.declareScalar name, rfl, rfl, by simp [entryName?], fun _ => rfl, by
      simp [declareScalar, scalarName?], by simp [declareScalar, tupleName?]⟩
  | tuple name =>
    exact .inl ⟨d.declareTuple name, rfl, rfl, by simp [entryName?], fun _ => rfl, by
      simp [declareTuple, scalarName?], by simp [declareTuple, tupleName?]⟩
  | template a => exact (d.declareAlias_cases a).imp_right fun h => ⟨a.name, rfl, h⟩
  | function s => exact (d.declareFunction_cases s).imp_right fun h => ⟨s.name, rfl, h⟩

/-- A valid declaration under a new name goes through. -/
theorem exists_enters (hfresh : ∀ name, x.entryName? = some name → d.held? name = none)
    (hvalid : x.check = .ok ()) : ∃ d', d.declare x = .ok d' ∧ d.Enters x d' := by
  obtain h | ⟨name, hname, ⟨htaken, -⟩ | ⟨-, e, he, -⟩⟩ := d.declare_cases x
  · exact h
  · exact absurd (hfresh name hname) htaken
  · rw [hvalid] at he
    cases he

theorem enters_of_declare (h : d.declare x = .ok d') : d.Enters x d' := by
  obtain ⟨d'', hd'', henters⟩ | ⟨name, -, ⟨-, he⟩ | ⟨-, e, -, he⟩⟩ := d.declare_cases x
  · rw [hd''] at h
    cases h
    exact henters
  · rw [he] at h
    cases h
  · rw [he] at h
    cases h

/-! ### Tables -/

/-- A table holds what the given declarations leave in it: the names of the variables in their
order, and under each name the first valid alias or function. -/
structure Records (xs : List Declaration) (d : Declarations) : Prop where
  scalars : d.scalarNames.toList = xs.filterMap scalarName?
  tuples : d.tupleNames.toList = xs.filterMap tupleName?
  entries : ∀ name, d.held? name = firstValid? name xs

theorem records_empty : Records [] empty :=
  ⟨rfl, rfl, fun name => by simp [held?, alias?, function?, empty, firstValid?]⟩

theorem Records.enters (h : Records xs d) (hx : d.Enters x d') : Records (xs ++ [x]) d' := by
  refine ⟨?_, ?_, fun name => ?_⟩
  · rw [hx.scalars, h.scalars, List.filterMap_append]
    cases x <;> rfl
  · rw [hx.tuples, h.tuples, List.filterMap_append]
    cases x <;> rfl
  · rw [hx.entries, firstValid?_concat, ← h.entries]
    by_cases hname : x.entryName? = some name
    · have hvalid : x.isValidFor name = true := isValidFor_iff.2 ⟨hname, hx.valid⟩
      rw [if_pos hname, hx.fresh name hname, if_pos hvalid, Option.none_or]
    · have hvalid : ¬x.isValidFor name = true := fun hv => hname (isValidFor_iff.1 hv).1
      rw [if_neg hname, if_neg hvalid, Option.or_none]

/-- A declaration that is refused adds nothing: its name is taken, or it is not valid. -/
theorem Records.refuses (h : Records xs d) {e : Failure} (he : d.declare x = .error e) :
    Records (xs ++ [x]) d := by
  obtain ⟨d', hd', -⟩ | ⟨taken, hname, hx⟩ := d.declare_cases x
  · rw [hd'] at he
    cases he
  · have hscalar : x.scalarName? = none := by cases x <;> simp_all [scalarName?, entryName?]
    have htuple : x.tupleName? = none := by cases x <;> simp_all [tupleName?, entryName?]
    refine ⟨by simp [h.scalars, hscalar], by simp [h.tuples, htuple], fun name => ?_⟩
    rw [firstValid?_concat, ← h.entries]
    by_cases hvalid : x.isValidFor name = true
    · obtain ⟨hname', hcheck⟩ := isValidFor_iff.1 hvalid
      obtain rfl : taken = name := by simpa [hname] using hname'
      obtain ⟨hheld, -⟩ | ⟨-, e', he', -⟩ := hx
      · obtain ⟨y, hy⟩ := Option.ne_none_iff_exists'.1 hheld
        rw [hy, Option.some_or]
      · rw [hcheck] at he'
        cases he'
    · rw [if_neg hvalid, Option.or_none]

/-- Any number of further declarations. -/
theorem records_declareAll (h : Records xs d) (ys : List Declaration) :
    Records (xs ++ ys) (d.declareAll ys) := by
  induction ys generalizing xs d with
  | nil => simpa [declareAll] using h
  | cons y ys ih =>
    rw [← List.singleton_append, ← List.append_assoc, List.singleton_append, declareAll]
    cases hy : d.declare y with
    | ok d' => exact ih (h.enters (enters_of_declare hy))
    | error e => exact ih (h.refuses hy)

/-! ### Numbers of variables -/

/-- A name that is put behind others gets their number, and is found under it ever after. -/
theorem numbered {before after : Array String} {earlier later : List String}
    (hbefore : before.toList = earlier) (hafter : after.toList = earlier ++ name :: later)
    (h : earlier.length < UInt32.size) :
    (UInt32.ofNat before.size).toNat = earlier.length ∧
      after[(UInt32.ofNat before.size).toNat]? = some name := by
  have hsize : before.size = earlier.length := by rw [← hbefore, Array.length_toList]
  have hnumber : (UInt32.ofNat before.size).toNat = earlier.length := by
    rw [hsize]
    exact UInt32.toNat_ofNat_of_lt' h
  refine ⟨hnumber, ?_⟩
  rw [hnumber, ← Array.getElem?_toList, hafter]
  simp

section numbers

variable {ys zs : List Declaration}

theorem scalar_numbered (hxs : xs = ys ++ scalar name :: zs)
    (h : (xs.filterMap scalarName?).length < UInt32.size) :
    (empty.declareAll ys).nextScalar.id.toNat = (ys.filterMap scalarName?).length ∧
      (empty.declareAll xs).render (.var (empty.declareAll ys).nextScalar) = name := by
  have hafter : (empty.declareAll xs).scalarNames.toList =
      ys.filterMap scalarName? ++ name :: zs.filterMap scalarName? := by
    rw [(records_declareAll records_empty xs).scalars, hxs]
    simp [scalarName?]
  have hlt : (ys.filterMap scalarName?).length < UInt32.size := by
    rw [hxs, List.filterMap_append, List.length_append] at h
    omega
  obtain ⟨hnumber, hname⟩ := numbered (records_declareAll records_empty ys).scalars hafter hlt
  exact ⟨hnumber, congrArg (Option.getD · _) hname⟩

theorem tuple_numbered (hxs : xs = ys ++ tuple name :: zs)
    (h : (xs.filterMap tupleName?).length < UInt32.size) :
    (empty.declareAll ys).nextTuple.id.toNat = (ys.filterMap tupleName?).length ∧
      (empty.declareAll xs).render (.packed (empty.declareAll ys).nextTuple) = name ∧
      (empty.declareAll xs).render (.spread (empty.declareAll ys).nextTuple) = "*" ++ name := by
  have hafter : (empty.declareAll xs).tupleNames.toList =
      ys.filterMap tupleName? ++ name :: zs.filterMap tupleName? := by
    rw [(records_declareAll records_empty xs).tuples, hxs]
    simp [tupleName?]
  have hlt : (ys.filterMap tupleName?).length < UInt32.size := by
    rw [hxs, List.filterMap_append, List.length_append] at h
    omega
  obtain ⟨hnumber, hname⟩ := numbered (records_declareAll records_empty ys).tuples hafter hlt
  have hrender : (empty.declareAll xs).render (.packed (empty.declareAll ys).nextTuple) = name :=
    congrArg (Option.getD · _) hname
  exact ⟨hnumber, hrender, congrArg ("*" ++ ·) hrender⟩

end numbers

/-! ### What may be relied on -/

/-- What the table `d` that came of the declarations `xs` answers, and how it goes on. -/
structure Accounts (xs : List Declaration) (d : Declarations) : Prop where
  /-- The aliases are the first valid declarations of their names, over both kinds. -/
  aliases : ∀ name a, d.alias? name = some a ↔ firstValid? name xs = some (template a)
  /-- So are the functions. -/
  functions : ∀ name s, d.function? name = some s ↔ firstValid? name xs = some (function s)
  /-- A name that has had a valid declaration is taken. -/
  duplicate : ∀ name x, x.entryName? = some name → firstValid? name xs ≠ none →
    d.declare x = .error ⟨.duplicate name, []⟩
  /-- A declaration that is refused changes nothing. -/
  refused : ∀ x e, d.declare x = .error e → empty.declareAll (xs ++ [x]) = d
  /-- A name that has had no valid declaration is free. -/
  free : ∀ name x, firstValid? name xs = none → x.isValidFor name = true →
    ∃ d', d.declare x = .ok d' ∧ d'.held? name = some x
  /-- No name is that of an alias and of a function. -/
  disjoint : ∀ name, d.alias? name = none ∨ d.function? name = none
  /-- Every alias in the table passes its check. -/
  checkedAliases : ∀ name a, d.alias? name = some a → a.name = name ∧ a.check = .ok ()
  /-- Every function in the table passes its check. -/
  checkedFunctions : ∀ name s, d.function? name = some s → s.name = name ∧ s.check = .ok ()
  /-- A scalar variable is numbered by those before it and written by its name. -/
  scalars : ∀ ys name zs, xs = ys ++ scalar name :: zs →
    (empty.declareAll ys).nextScalar.id.toNat = (ys.filterMap scalarName?).length ∧
      d.render (.var (empty.declareAll ys).nextScalar) = name
  /-- A tuple variable is numbered by those before it and written by its name. -/
  tuples : ∀ ys name zs, xs = ys ++ tuple name :: zs →
    (empty.declareAll ys).nextTuple.id.toNat = (ys.filterMap tupleName?).length ∧
      d.render (.packed (empty.declareAll ys).nextTuple) = name ∧
      d.render (.spread (empty.declareAll ys).nextTuple) = "*" ++ name

theorem declareAll_append (d : Declarations) (xs ys : List Declaration) :
    d.declareAll (xs ++ ys) = (d.declareAll xs).declareAll ys := by
  induction xs generalizing d with
  | nil => rfl
  | cons x xs ih =>
    simp only [List.cons_append, declareAll]
    cases d.declare x with
    | ok d' => exact ih d'
    | error e => exact ih d

/-- Whatever is declared, in whatever order, the table holds the first valid alias or function of
each name, and the variables by their numbers. -/
theorem declareAll_accounts (xs : List Declaration)
    (hscalars : (xs.filterMap scalarName?).length < UInt32.size)
    (htuples : (xs.filterMap tupleName?).length < UInt32.size) :
    Accounts xs (empty.declareAll xs) := by
  have h : Records xs (empty.declareAll xs) := records_declareAll records_empty xs
  refine ⟨?_, ?_, ?duplicate, ?refused, ?free, alias?_eq_none_or _, ?_, ?_, ?_, ?_⟩
  · intro name a
    rw [← h.entries, held?_eq_template_iff]
  · intro name s
    rw [← h.entries, held?_eq_function_iff]
  case duplicate =>
    intro name x hname hheld
    rw [← h.entries] at hheld
    obtain ⟨d', -, henters⟩ | ⟨taken, htaken, hx⟩ := (empty.declareAll xs).declare_cases x
    · exact absurd (henters.fresh name hname) hheld
    · obtain rfl : taken = name := by simpa [hname] using htaken.symm
      obtain ⟨-, hduplicate⟩ | ⟨hfree, -⟩ := hx
      · exact hduplicate
      · exact absurd hfree hheld
  case refused =>
    intro x e he
    rw [declareAll_append, declareAll, he]
    rfl
  case free =>
    intro name x hfree hvalid
    rw [← h.entries] at hfree
    obtain ⟨hname, hcheck⟩ := isValidFor_iff.1 hvalid
    obtain ⟨d', hd', henters⟩ | ⟨taken, htaken, hx⟩ := (empty.declareAll xs).declare_cases x
    · exact ⟨d', hd', by rw [henters.entries, if_pos hname]⟩
    · obtain rfl : taken = name := by simpa [hname] using htaken.symm
      obtain ⟨hheld, -⟩ | ⟨-, e, he, -⟩ := hx
      · exact absurd hfree hheld
      · rw [hcheck] at he
        cases he
  · exact (empty.declareAll xs).alias_checked
  · exact (empty.declareAll xs).function_checked
  · intro ys name zs hxs
    exact scalar_numbered hxs hscalars
  · intro ys name zs hxs
    exact tuple_numbered hxs htuples

/-- An alias, a function, and variables around them. -/
def sampleDeclarations : List Declaration :=
  [.scalar "T",
    .template ⟨"A", ⟨[.spread ⟨0⟩, .spread ⟨1⟩]⟩, .named "int"⟩,
    .function ⟨"A", ⟨[.single (.var ⟨0⟩)]⟩, [], none, .var ⟨0⟩⟩,
    .tuple "Ts",
    .template ⟨"A", ⟨[]⟩, .named "int"⟩,
    .scalar "U"]

/-- The first of three declarations of `A` is not valid, and the second is a function. -/
theorem declareAll_accounts_sample :
    (empty.declareAll sampleDeclarations).alias? "A" = none ∧
      (empty.declareAll sampleDeclarations).function? "A" =
        some ⟨"A", ⟨[.single (.var ⟨0⟩)]⟩, [], none, .var ⟨0⟩⟩ ∧
      (empty.declareAll sampleDeclarations).declare (.template ⟨"A", ⟨[]⟩, .named "int"⟩) =
        .error ⟨.duplicate "A", []⟩ ∧
      (empty.declareAll sampleDeclarations).render
        (.var (empty.declareAll (sampleDeclarations.take 5)).nextScalar) = "U" ∧
      (empty.declareAll (sampleDeclarations.take 5)).nextScalar.id.toNat = 1 := by
  have h := declareAll_accounts sampleDeclarations (by decide) (by decide)
  have hfirst : firstValid? "A" sampleDeclarations =
      some (.function ⟨"A", ⟨[.single (.var ⟨0⟩)]⟩, [], none, .var ⟨0⟩⟩) := rfl
  have hfunction := (h.functions _ _).2 hfirst
  obtain ⟨hnumber, hname⟩ := h.scalars (sampleDeclarations.take 5) "U" [] rfl
  refine ⟨(h.disjoint "A").resolve_right ?_, hfunction, ?_, hname, hnumber⟩
  · rw [hfunction]
    exact Option.some_ne_none _
  · exact h.duplicate "A" _ rfl (by rw [hfirst]; exact Option.some_ne_none _)

end Declarations

end Polyadic
