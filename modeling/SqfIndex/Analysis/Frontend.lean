import SqfIndex.Preprocess.Run
import SqfIndex.Script.Bracket
import SqfIndex.Script.Lexer
import SqfIndex.Script.Variables

/-!
The steps that an analysis runs on a document. `Frontend.script` is the frontend for SQF; any other
record of the same type can stand in for it.
-/

namespace SqfIndex

open Preprocess (Preprocessed)

/-- The steps of an analysis, for tokens and trees of any type. -/
structure Frontend (Token Tree : Type) where
  preprocess : Resolver → Path → List Char → Except Failure Preprocessed
  tokenize : List Char → Except Failure (List Token)
  /-- Recoverable errors, and the tree. -/
  parse : List Token → Except Failure (List Finding × Tree)
  analyze : Tree → List Token → List Char → Except Failure (List (Variable Span))
  lint : Tree → List Char → List Finding

namespace Frontend

/-- Runs the steps after preprocessing: findings of parser and linter in this order, and variables. -/
def examine {Token Tree : Type} (f : Frontend Token Tree) (code : List Char) :
    Except Failure (List Finding × List (Variable Span)) := do
  let tokens ← f.tokenize code
  let (errors, tree) ← f.parse tokens
  let vars ← f.analyze tree tokens code
  return (errors ++ f.lint tree code, vars)

/-- The frontend for SQF. Its tree is the list of significant tokens. -/
def script : Frontend Script.Token (List Script.Token) where
  preprocess r file text := .ok (Preprocess.preprocess r file text)
  tokenize := Script.lex
  parse tokens := .ok (Script.bracketFindings (Script.significant tokens), Script.significant tokens)
  analyze tree tokens _ := .ok (Script.variablesOf tree tokens)
  lint tree _ := Script.undefinedLocals tree

end Frontend

end SqfIndex
