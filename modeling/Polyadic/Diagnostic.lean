import Polyadic.Diagnostic.Category
import Polyadic.Diagnostic.Path

/-! # Diagnostics

A diagnostic says what went wrong and where, for a reader outside the library. -/

namespace Polyadic

/-- A report of one failure. -/
structure Diagnostic where
  code : Option String
  category : Category
  message : String
  path : Path := []
  help : Option String := none
deriving DecidableEq, Repr

namespace Diagnostic

/-- The diagnostic of a category with that category's own code. -/
def ofCategory (category : Category) (message : String) (path : Path) (help : Option String) :
    Diagnostic :=
  ⟨some category.code, category, message, path, help⟩

/-- The first line gives the code and the message; a path and a hint follow on lines of their
own. -/
def text (d : Diagnostic) : String :=
  (match d.code with
    | some code => "error[" ++ code ++ "]: "
    | none => "error: ")
  ++ d.message
  ++ (if d.path.isEmpty then "" else "\n  at: " ++ d.path.text)
  ++ (match d.help with
    | some help => "\n  help: " ++ help
    | none => "")

end Diagnostic

/-- The text of a batch of diagnostics is that of its first one. -/
def batchText (ds : List Diagnostic) : String := (ds.head?.map Diagnostic.text).getD ""

end Polyadic
