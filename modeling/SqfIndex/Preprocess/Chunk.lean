import SqfIndex.Text.Space

/-!
A text as a row of code lines and directives. A directive goes on over lines that end in a backslash.
-/

namespace SqfIndex.Preprocess

inductive Chunk
  | code (text : List Char)
  | directive (text : List Char)
deriving DecidableEq, Repr

def Chunk.text : Chunk → List Char
  | code text => text
  | directive text => text

def isDirective (line : List Char) : Bool := (Text.trimStart line).head? == some '#'

/-- Whether the next line belongs to the same directive. -/
def isContinued (line : List Char) : Bool := (Text.trimEnd line).getLast? == some '\\'

/-- Groups lines; `begun` is the directive that the first line continues, if there is one. -/
def chunksFrom : Option (List Char) → List (List Char) → List Chunk
  | none, [] => []
  | some d, [] => [.directive d]
  | none, l :: ls =>
    if isDirective l then
      if isContinued l then chunksFrom (some l) ls else .directive l :: chunksFrom none ls
    else .code l :: chunksFrom none ls
  | some d, l :: ls =>
    if isContinued l then chunksFrom (some (d ++ l)) ls else .directive (d ++ l) :: chunksFrom none ls

/-- The chunks of a text. -/
def chunks (text : List Char) : List Chunk := chunksFrom none (Text.rawLines text)

end SqfIndex.Preprocess
