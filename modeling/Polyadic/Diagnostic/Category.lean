/-! # Categories of diagnostics

Every diagnostic belongs to one of ten categories.  A category has a name, a stable code, a sentence
that describes it and a sentence that says what to do about it. -/

namespace Polyadic

/-- What kind of thing went wrong. -/
inductive Category where
  | arityMismatch
  | typeMismatch
  | inconsistent
  | ambiguousSplit
  | tooFewArguments
  | emptyUnion
  | recursiveAlias
  | invalidKwargsUsage
  | multipleDistinctTupleInAlias
  | duplicateDeclaration
deriving DecidableEq, Repr

namespace Category

/-- Every category, in the order of the codes. -/
def all : List Category :=
  [arityMismatch, typeMismatch, inconsistent, ambiguousSplit, tooFewArguments, emptyUnion,
    recursiveAlias, invalidKwargsUsage, multipleDistinctTupleInAlias, duplicateDeclaration]

theorem mem_all (c : Category) : c ∈ all := by cases c <;> decide

/-- The name of a category. -/
def name : Category → String
  | arityMismatch => "arity_mismatch"
  | typeMismatch => "type_mismatch"
  | inconsistent => "inconsistent"
  | ambiguousSplit => "ambiguous_split"
  | tooFewArguments => "too_few_arguments"
  | emptyUnion => "empty_union"
  | recursiveAlias => "recursive_alias"
  | invalidKwargsUsage => "invalid_kwargs_usage"
  | multipleDistinctTupleInAlias => "multiple_distinct_tuple_in_alias"
  | duplicateDeclaration => "duplicate_declaration"

/-- The category of that name. -/
def ofName? (name : String) : Option Category := all.find? (·.name = name)

/-- The stable code of a category. -/
def code : Category → String
  | arityMismatch => "V0001"
  | typeMismatch => "V0002"
  | inconsistent => "V0003"
  | ambiguousSplit => "V0004"
  | tooFewArguments => "V0005"
  | emptyUnion => "V0006"
  | recursiveAlias => "V0007"
  | invalidKwargsUsage => "V0008"
  | multipleDistinctTupleInAlias => "V0009"
  | duplicateDeclaration => "V0010"

/-- What a category means. -/
def description : Category → String
  | arityMismatch => "The number of arguments does not fit the parameter list."
  | typeMismatch => "An argument type does not match the declared parameter type."
  | inconsistent => "A type variable was solved to two different types."
  | ambiguousSplit => "Arguments cannot be split deterministically between tuple variables."
  | tooFewArguments => "A generic alias was given too few type arguments."
  | emptyUnion => "A union type must have at least one member."
  | recursiveAlias => "A type alias refers to itself during expansion."
  | invalidKwargsUsage =>
    "A type variable tuple cannot annotate a keyword-variadic parameter."
  | multipleDistinctTupleInAlias =>
    "A type alias may use at most one distinct type variable tuple."
  | duplicateDeclaration => "A declaration name was registered more than once."

/-- What to do about a diagnostic of the category. -/
def fix : Category → String
  | arityMismatch => "Pass as many arguments as the fixed parameters require."
  | typeMismatch => "Adjust the argument so it matches the parameter type."
  | inconsistent => "Make every occurrence of the variable receive the same type."
  | ambiguousSplit =>
    "Bind one of the tuple variables through another parameter (an anchor)."
  | tooFewArguments => "Supply an argument for every scalar type parameter."
  | emptyUnion => "Bind the tuple to at least one type before forming a union."
  | recursiveAlias => "Break the cycle by naming the recursive part explicitly."
  | invalidKwargsUsage =>
    "Annotate `**kwargs` with an ordinary type instead of a tuple variable."
  | multipleDistinctTupleInAlias =>
    "Split the alias so each part uses a single tuple variable."
  | duplicateDeclaration => "Rename one of the declarations."

theorem ofName?_name (c : Category) : ofName? c.name = some c := by cases c <;> decide

end Category

end Polyadic
