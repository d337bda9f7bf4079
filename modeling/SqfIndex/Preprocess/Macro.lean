import SqfIndex.Path
import SqfIndex.Script.Word
import SqfIndex.Text.Space
import SqfIndex.Text.Units

/-!
Macros: their definitions, and what an invocation turns into. Parameters are put in one after the
other, and the result is not searched for macros again.
-/

namespace SqfIndex.Preprocess

/-- A macro that is in force. Its body is kept both as the text that is put in and as the stretch of
the file that it stands for. -/
structure Macro where
  name : List Char
  /-- Names of the parameters; nothing for a macro that takes no argument list. -/
  params : Option (List (List Char))
  body : List Char
  file : Path
  offset : Nat
  extent : Nat
deriving DecidableEq, Repr

/-- Macros in force, latest first, one for each name. -/
abbrev Macros := List Macro

namespace Macros

def find? (ms : Macros) (name : List Char) : Option Macro := List.find? (·.name == name) ms

def erase (ms : Macros) (name : List Char) : Macros := ms.filter (·.name != name)

def define (ms : Macros) (m : Macro) : Macros := m :: erase ms m.name

end Macros

def opens (c : Char) : Bool := c == '(' || c == '[' || c == '{'

def closes (c : Char) : Bool := c == ')' || c == ']' || c == '}'

/-- Puts a character in front of the first text. -/
def consFirst (c : Char) : List (List Char) → List (List Char)
  | [] => [[c]]
  | t :: ts => (c :: t) :: ts

/-- Reads arguments at the given bracket depth up to the bracket that closes the list; gives them and
what follows. Commas divide at depth one. -/
def readArguments : Nat → List Char → Option (List (List Char) × List Char)
  | _, [] => none
  | depth, c :: rest =>
    if opens c then
      (readArguments (depth + 1) rest).map fun (args, after) =>
        (if depth = 0 then args else consFirst c args, after)
    else if closes c then
      if depth ≤ 1 then some ([[]], rest)
      else (readArguments (depth - 1) rest).map fun (args, after) => (consFirst c args, after)
    else if c = ',' ∧ depth = 1 then
      (readArguments depth rest).map fun (args, after) => ([] :: args, after)
    else (readArguments depth rest).map fun (args, after) => (consFirst c args, after)

/-- Replaces an identifier wherever it stands in a text. -/
def replaceWord (name arg : List Char) (text : List Char) : List Char :=
  (Script.words text).flatMap fun w => if w.head?.any Script.isWordStart && w == name then arg else w

/-- Takes out every mark that pastes two tokens together. -/
def dropPasteMarks : List Char → List Char
  | '#' :: '#' :: rest => dropPasteMarks rest
  | c :: rest => c :: dropPasteMarks rest
  | [] => []

/-- The body with the arguments put in for the parameters, one parameter after the other. Parameters
without an argument stay. -/
def substitute (params args : List (List Char)) (body : List Char) : List Char :=
  dropPasteMarks ((params.zip args).foldl (fun text (p, a) => replaceWord p (Text.trim a) text) body)

/-- An invocation: what it turns into, its own text, and what follows it. -/
structure Invocation where
  expansion : List Char
  written : List Char
  after : List Char
deriving DecidableEq, Repr

/-- Invokes a macro whose name is followed by `after`. One with parameters needs its arguments there. -/
def Macro.invoke? (m : Macro) (after : List Char) : Option Invocation :=
  match m.params with
  | none => some ⟨m.body, m.name, after⟩
  | some params =>
    if after.head? = some '(' then
      (readArguments 0 after).map fun (args, rest) =>
        ⟨substitute params args m.body, m.name ++ after.take (after.length - rest.length), rest⟩
    else none

end SqfIndex.Preprocess
