import SqfIndex.Diagnostic
import SqfIndex.Text.Units

/-!
Tokens of a script. A token carries its text and the blanks in front of it, so that the tokens of a
script tell its whole text up to the blanks at its end.
-/

namespace SqfIndex.Script

inductive Kind
  | identifier
  | number
  | text
  | comment
  | operator
  /-- A bracket, separator or terminator. -/
  | mark (c : Char)
deriving DecidableEq, Repr, Inhabited

structure Token where
  kind : Kind
  /-- The blanks before the token. -/
  gap : List Char
  start : Nat
  text : List Char
deriving DecidableEq, Repr, Inhabited

namespace Token

def stop (t : Token) : Nat := t.start + Text.width t.text

def span (t : Token) : Span := ⟨t.start, t.stop⟩

def isComment (t : Token) : Bool := t.kind == .comment

end Token

/-- The tokens that are no comments. -/
def significant (tokens : List Token) : List Token := tokens.filter (!·.isComment)

end SqfIndex.Script
