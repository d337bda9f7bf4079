/-!
Identifiers, and how a text splits into identifiers and other characters.
-/

namespace SqfIndex.Script

def isWordStart (c : Char) : Bool := c.isAlpha || c == '_'

def isWordChar (c : Char) : Bool := c.isAlphanum || c == '_'

/-- Whether a text is an identifier. -/
def isIdentifier : List Char → Bool
  | [] => false
  | c :: cs => isWordStart c && cs.all isWordChar

/-- The identifier at the front of a text; empty if there is none. -/
def leadingWord : List Char → List Char
  | [] => []
  | c :: cs => if isWordStart c then c :: cs.takeWhile isWordChar else []

/-- Splits a text into its longest identifiers and the single characters between them. -/
def words (cs : List Char) : List (List Char) :=
  match cs with
  | [] => []
  | c :: rest =>
    if isWordStart c then (c :: rest.takeWhile isWordChar) :: words (rest.dropWhile isWordChar)
    else [c] :: words rest
termination_by cs.length
decreasing_by
  · have := (List.dropWhile_sublist isWordChar (l := rest)).length_le
    simp only [List.length_cons]
    omega
  · simp

end SqfIndex.Script
