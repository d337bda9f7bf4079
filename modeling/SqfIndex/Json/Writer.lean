import SqfIndex.Json.Value
import SqfIndex.Text.Hex

/-!
Writing JSON: on one line, and with each member on a line of its own.
-/

namespace SqfIndex.Json

/-- A character inside a string: quote, backslash and control characters are escaped. -/
def escapeChar (c : Char) : List Char :=
  match c with
  | '"' => ['\\', '"']
  | '\\' => ['\\', '\\']
  | '\x08' => ['\\', 'b']
  | '\x0c' => ['\\', 'f']
  | '\n' => ['\\', 'n']
  | '\x0d' => ['\\', 'r']
  | '\t' => ['\\', 't']
  | c =>
    if c.toNat < 0x20 then
      ['\\', 'u', '0', '0', (Text.hexDigit (c.toNat / 16)).toLower, (Text.hexDigit (c.toNat % 16)).toLower]
    else [c]

/-- A string as written. -/
def quote (s : String) : String := "\"" ++ String.ofList (s.toList.flatMap escapeChar) ++ "\""

mutual

/-- A value on one line. -/
def Value.render : Value → String
  | .null => "null"
  | .bool b => if b then "true" else "false"
  | .number lexeme => lexeme
  | .text s => quote s
  | .list items => "[" ++ renderItems items ++ "]"
  | .object members => "\x7b" ++ renderMembers members ++ "\x7d"

def renderItems : List Value → String
  | [] => ""
  | [v] => v.render
  | v :: vs => v.render ++ "," ++ renderItems vs

def renderMembers : List (String × Value) → String
  | [] => ""
  | [(k, v)] => quote k ++ ":" ++ v.render
  | (k, v) :: rest => quote k ++ ":" ++ v.render ++ "," ++ renderMembers rest

end

/-- The start of a line at the given depth, two blanks a level. -/
def indent (depth : Nat) : String := "\n" ++ String.ofList (List.replicate (2 * depth) ' ')

mutual

/-- A value with one item or member a line. -/
def Value.pretty (depth : Nat) : Value → String
  | .list [] => "[]"
  | .object [] => "\x7b\x7d"
  | .list items => "[" ++ prettyItems (depth + 1) items ++ indent depth ++ "]"
  | .object members => "\x7b" ++ prettyMembers (depth + 1) members ++ indent depth ++ "\x7d"
  | v => v.render

def prettyItems (depth : Nat) : List Value → String
  | [] => ""
  | [v] => indent depth ++ v.pretty depth
  | v :: vs => indent depth ++ v.pretty depth ++ "," ++ prettyItems depth vs

def prettyMembers (depth : Nat) : List (String × Value) → String
  | [] => ""
  | [(k, v)] => indent depth ++ quote k ++ ": " ++ v.pretty depth
  | (k, v) :: rest => indent depth ++ quote k ++ ": " ++ v.pretty depth ++ "," ++ prettyMembers depth rest

end

end SqfIndex.Json
