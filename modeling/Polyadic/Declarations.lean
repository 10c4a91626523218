import Polyadic.Expansion

/-! # Tables of declarations

A table holds the names of variables and the aliases and functions declared so far.  Variables are
numbered in the order of their declaration.  An alias or a function enters the table only if its
name is new and its check goes through, so whatever is in the table has passed the check. -/

namespace Polyadic

/-- What has been declared. -/
structure Declarations where
  scalarNames : Array String := #[]
  tupleNames : Array String := #[]
  aliases : Std.ExtTreeMap String Alias := ∅
  functions : Std.ExtTreeMap String Signature := ∅
  alias_checked : ∀ (name : String) (a : Alias), aliases[name]? = some a →
    a.name = name ∧ a.check = .ok () := by simp
  function_checked : ∀ (name : String) (s : Signature), functions[name]? = some s →
    s.name = name ∧ s.check = .ok () := by simp
  names_disjoint : ∀ name : String, name ∈ aliases → name ∉ functions := by simp

namespace Declarations

/-- The table without declarations. -/
def empty : Declarations := {}

instance : Inhabited Declarations := ⟨empty⟩

/-! ### Declaring -/

/-- The next number of a scalar variable. -/
def nextScalar (d : Declarations) : TypeVar := ⟨UInt32.ofNat d.scalarNames.size⟩

/-- The next number of a tuple variable. -/
def nextTuple (d : Declarations) : TupleVar := ⟨UInt32.ofNat d.tupleNames.size⟩

/-- Declares a scalar variable, which gets the next number. -/
def declareScalar (d : Declarations) (name : String) : Declarations :=
  { d with scalarNames := d.scalarNames.push name }

/-- Declares a tuple variable, which gets the next number. -/
def declareTuple (d : Declarations) (name : String) : Declarations :=
  { d with tupleNames := d.tupleNames.push name }

/-- Declares an alias. -/
def declareAlias (d : Declarations) (a : Alias) : Except Failure Declarations :=
  if declared : a.name ∈ d.aliases ∨ a.name ∈ d.functions then .error ⟨.duplicate a.name, []⟩
  else
    match checked : a.check with
    | .error e => .error e
    | .ok () => .ok { d with
        aliases := d.aliases.insert a.name a
        alias_checked := fun name a' h => by
          rw [Std.ExtTreeMap.getElem?_insert] at h
          split at h
          · rename_i heq
            cases h
            exact ⟨Std.LawfulEqOrd.eq_of_compare heq, checked⟩
          · exact d.alias_checked name a' h
        names_disjoint := fun name h => by
          rw [Std.ExtTreeMap.mem_insert] at h
          cases h with
          | inl heq =>
            rw [← Std.LawfulEqOrd.eq_of_compare heq]
            exact fun hf => declared (.inr hf)
          | inr h => exact d.names_disjoint name h }

/-- Declares a function. -/
def declareFunction (d : Declarations) (s : Signature) : Except Failure Declarations :=
  if declared : s.name ∈ d.aliases ∨ s.name ∈ d.functions then .error ⟨.duplicate s.name, []⟩
  else
    match checked : s.check with
    | .error e => .error e
    | .ok () => .ok { d with
        functions := d.functions.insert s.name s
        function_checked := fun name s' h => by
          rw [Std.ExtTreeMap.getElem?_insert] at h
          split at h
          · rename_i heq
            cases h
            exact ⟨Std.LawfulEqOrd.eq_of_compare heq, checked⟩
          · exact d.function_checked name s' h
        names_disjoint := fun name ha h => by
          rw [Std.ExtTreeMap.mem_insert] at h
          cases h with
          | inl heq =>
            rw [← Std.LawfulEqOrd.eq_of_compare heq] at ha
            exact declared (.inl ha)
          | inr h => exact d.names_disjoint name ha h }

/-- Declares something. -/
def declare (d : Declarations) : Declaration → Except Failure Declarations
  | .scalar name => .ok (d.declareScalar name)
  | .tuple name => .ok (d.declareTuple name)
  | .template a => d.declareAlias a
  | .function s => d.declareFunction s

/-- Declares one thing after another; what is refused leaves the table as it is. -/
def declareAll (d : Declarations) : List Declaration → Declarations
  | [] => d
  | x :: xs =>
    match d.declare x with
    | .ok d => d.declareAll xs
    | .error _ => d.declareAll xs

/-! ### Looking up -/

/-- The alias of that name. -/
def alias? (d : Declarations) (name : String) : Option Alias := d.aliases[name]?

/-- The function of that name. -/
def function? (d : Declarations) (name : String) : Option Signature := d.functions[name]?

/-- The declared names of the variables. -/
def names (d : Declarations) : VariableNames :=
  ⟨fun v => d.scalarNames[v.id.toNat]?, fun ts => d.tupleNames[ts.id.toNat]?⟩

/-- The text of a type with the declared names of its variables. -/
def render (d : Declarations) (t : TypeExpr) : String := t.render d.names

/-- The aliases of the table as a scope. -/
def scope (d : Declarations) : Scope := ⟨d.alias?, fun name a h => (d.alias_checked name a h).1⟩

/-! ### Checking the aliases against each other -/

/-- Expands every alias for its own parameters, in the order of the names, and reports each
expansion that fails. -/
def checkAliases (d : Declarations) : List Diagnostic :=
  d.aliases.toList.filterMap fun (_, a) =>
    match (expandAlias d.scope defaultDepth a a.formal.toTypes).result with
    | .ok _ => none
    | .error e => some e.diagnostic

end Declarations

end Polyadic
