import SqfIndex.Script.Token
import SqfIndex.Script.Word
import SqfIndex.Text.Case
import SqfIndex.Text.Space

/-!
Where the tokens of a script mention variables. An identifier before `=` is defined there, any other
is used; a string that names a local is a definition after `private`, `params` and `for`.
-/

namespace SqfIndex.Script

/-- A mention of a variable. -/
structure Sighting where
  name : String
  span : Span
  defines : Bool
  comment : Option String := none
deriving DecidableEq, Repr

/-- The words after which strings declare locals. -/
inductive Declarator
  | privateWord
  | paramsWord
  | forWord
deriving DecidableEq, Repr

def declarator? (t : Token) : Option Declarator :=
  match Text.asciiLower (String.ofList t.text) with
  | "private" => some .privateWord
  | "params" => some .paramsWord
  | "for" => some .forWord
  | _ => none

/-- The definition that a string such as `"_unit"` makes. -/
def declaration? (t : Token) : Option Sighting :=
  let content := (t.text.drop 1).dropLast
  if content.head? = some '_' ∧ isIdentifier content then
    some { name := String.ofList content, span := ⟨t.start + 1, t.stop - 1⟩, defines := true }
  else none

/-- The strings of a bracketed list up to its end, at the given depth. -/
def listedStrings : Nat → List Token → List Token
  | _, [] => []
  | depth, t :: ts =>
    match t.kind with
    | .mark '[' => listedStrings (depth + 1) ts
    | .mark ']' => if depth ≤ 1 then [] else listedStrings (depth - 1) ts
    | .text => t :: listedStrings depth ts
    | _ => listedStrings depth ts

/-- The definitions that the tokens after a declaring word make. -/
def declarations (d : Declarator) (after : List Token) : List Sighting :=
  match after with
  | [] => []
  | t :: _ =>
    if t.kind = .text then (declaration? t).toList
    else if t.kind = .mark '[' ∧ d ≠ .forWord then (listedStrings 0 after).filterMap declaration?
    else []

/-- A comment without its marks; nothing if no text is left. -/
def commentText? (raw : List Char) : Option String :=
  let cleaned :=
    match raw with
    | '/' :: '/' :: line => Text.trim line
    | _ =>
      let inner := (Text.dropPairs '/' '*' (Text.dropPairs '/' '*' raw).reverse).reverse
      let lines := (Text.lines inner).map fun l => Text.trim ((Text.trim l).dropWhile (· == '*'))
      Text.joinWith ['\n'] (lines.filter (· ≠ []))
  if cleaned = [] then none else some (String.ofList cleaned)

/-- The text of the comment that ends right above the token that starts at `start`: at most one line
feed stands between them. -/
def commentAbove? (start : Nat) : List Token → Option String
  | before :: t :: rest =>
    if t.start < start then commentAbove? start (t :: rest)
    else if before.start < start ∧ before.kind = .comment ∧ t.gap.count '\n' ≤ 1 then commentText? before.text
    else none
  | _ => none

/-- Whether the token is the operator `=`. -/
def isAssignment (t : Token) : Bool := t.kind == .operator && t.text == ['=']

/-- Where the statement of a definition starts: a `private` before it belongs to it. -/
def statementStart (before : Option Token) (t : Token) : Nat :=
  match before with
  | some p => if declarator? p = some .privateWord then p.start else t.start
  | none => t.start

/-- The mentions made by one token, given its neighbours and all tokens of the script. -/
def sightingsAt (all : List Token) (before : Option Token) (t : Token) (after : List Token) : List Sighting :=
  if t.kind ≠ .identifier then []
  else
    match declarator? t with
    | some d => declarations d after
    | none =>
      let name := String.ofList t.text
      if after.head?.any isAssignment then
        [{ name, span := t.span, defines := true, comment := commentAbove? (statementStart before t) all }]
      else [{ name, span := t.span, defines := false }]

/-- The mentions made by some tokens in a row. -/
def sightingsFrom (all : List Token) : Option Token → List Token → List Sighting
  | _, [] => []
  | before, t :: after => sightingsAt all before t after ++ sightingsFrom all (some t) after

/-- The mentions in a script, in order, from its significant tokens and all its tokens. -/
def sightings (tokens all : List Token) : List Sighting := sightingsFrom all none tokens

end SqfIndex.Script
