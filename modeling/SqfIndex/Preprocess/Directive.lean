import SqfIndex.Preprocess.Macro

/-!
What a directive says. Directives other than the three below have no effect, so that every branch of
a conditional stays active.
-/

namespace SqfIndex.Preprocess

/-- A macro definition as it was met. -/
structure MacroRecord where
  name : String
  /-- The parameter list as it is shown. -/
  arguments : Option String
  value : String
  file : Path
  /-- Where the name stands in the file. -/
  offset : Nat
deriving DecidableEq, Repr

/-- What a directive says. -/
inductive Command
  | define (m : Macro) (record : MacroRecord)
  | undefine (name : List Char)
  | fetch (requested : List Char)
  | nothing
deriving DecidableEq, Repr

/-- The parameters of a list without its brackets; empty ones do not count. -/
def readParams (list : List Char) : List (List Char) :=
  ((Text.splitAt ',' list).map Text.trim).filter (· ≠ [])

/-- Splits what follows the name of a macro into its parameters and the rest. A list that is not
closed is no list. -/
def splitParams (cs : List Char) : Option (List (List Char)) × List Char :=
  match cs with
  | '(' :: rest =>
    if rest.contains ')' then
      (some (readParams (rest.takeWhile (· != ')'))), (rest.dropWhile (· != ')')).drop 1)
    else (none, cs)
  | _ => (none, cs)

/-- A body over several lines as one line. -/
def joinBody (body : List Char) : List Char :=
  Text.joinWith [' '] <| (Text.lines body).map fun l =>
    Text.trimEnd (Text.dropEndWhile (· == '\\') (Text.trimEnd l))

/-- The parameter list as it is shown. -/
def showParams (params : List (List Char)) : String :=
  "(" ++ String.ofList (Text.joinWith [',', ' '] params) ++ ")"

/-- Reads a macro definition from what follows the keyword; `stop` is the offset in the file at which
the directive ends. -/
def readDefine (file : Path) (stop : Nat) (args : List Char) : Command :=
  let named := Text.trimStart args
  match Script.leadingWord named with
  | [] => .nothing
  | name =>
    let (params, rest) := splitParams (named.drop name.length)
    let raw := Text.trimStart rest
    let body := Text.trimEnd raw
    let value := joinBody body
    .define
      { name, params, body := value, file, offset := stop - Text.width raw, extent := Text.width body }
      { name := String.ofList name, arguments := params.map showParams, value := String.ofList value, file
        offset := stop - Text.width named }

/-- An include path without its delimiters. -/
def readRequest (args : List Char) : List Char :=
  Text.trim (Text.dropEndWhile (fun c => c == '"' || c == '>')
    ((Text.trim args).dropWhile fun c => c == '"' || c == '<'))

/-- What the directive `text` says that starts at `offset` of `file`. -/
def readCommand (file : Path) (offset : Nat) (text : List Char) : Command :=
  let body := Text.trimStart ((Text.trimStart text).drop 1)
  let args := body.dropWhile Char.isAlpha
  match String.ofList (body.takeWhile Char.isAlpha) with
  | "define" => readDefine file (offset + Text.width text) args
  | "undef" => .undefine (Text.trim args)
  | "include" => .fetch (readRequest args)
  | _ => .nothing

end SqfIndex.Preprocess
