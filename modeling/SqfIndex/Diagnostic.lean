import SqfIndex.Position.LineIndex
import SqfIndex.SourceMap

/-!
What is found in a script. A finding has its place in the generated code, a diagnostic in a file.
-/

namespace SqfIndex

inductive Severity
  | error
  | warning
deriving DecidableEq, Repr, Inhabited

/-- A message about a place. -/
structure Note (α : Type) where
  severity : Severity
  message : String
  place : α
deriving DecidableEq, Repr, Inhabited

/-- A note about generated code. -/
abbrev Finding := Note Span

/-- A note about a file. -/
abbrev Diagnostic := Note Range

/-- The source that every diagnostic carries. -/
def diagnosticSource : String := "sqflint"

/-- The places where one variable is defined and used. -/
structure Variable (α : Type) where
  name : String
  comment : Option String := none
  definitions : List α := []
  usages : List α := []
deriving DecidableEq, Repr, Inhabited

/-- A failure of a whole step, at an offset in the code if it has a place. -/
structure Failure where
  message : String
  offset : Option Nat
deriving DecidableEq, Repr, Inhabited

end SqfIndex
