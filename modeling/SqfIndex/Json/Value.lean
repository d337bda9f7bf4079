/-!
JSON values. A number keeps the text it was written with; an object keeps the order of its members.
-/

namespace SqfIndex.Json

inductive Value
  | null
  | bool (b : Bool)
  | number (lexeme : String)
  | text (s : String)
  | list (items : List Value)
  | object (members : List (String × Value))
deriving Inhabited, Repr

namespace Value

/-- A number that is written as a whole one. -/
def nat (n : Nat) : Value := .number (toString n)

/-- The member of an object with the given key. -/
def get? (key : String) : Value → Option Value
  | .object members => members.lookup key
  | _ => none

def text? : Value → Option String
  | .text s => some s
  | _ => none

def bool? : Value → Option Bool
  | .bool b => some b
  | _ => none

def list? : Value → Option (List Value)
  | .list items => some items
  | _ => none

def object? : Value → Option (List (String × Value))
  | .object members => some members
  | _ => none

/-- Reads digits as a number. -/
def digitsValue (cs : List Char) : Nat := cs.foldl (fun n c => 10 * n + (c.toNat - 0x30)) 0

/-- The least number that takes more than 64 bits. -/
def wordLimit : Nat := 0x10000000000000000

/-- The number, if it is written with digits alone and fits into 64 bits. -/
def word? : Value → Option Nat
  | .number lexeme =>
    let digits := lexeme.toList
    if digits ≠ [] ∧ digits.all Char.isDigit ∧ digitsValue digits < wordLimit then some (digitsValue digits)
    else none
  | _ => none

/-- Sets a member: the value of an earlier one with the same key is replaced where it stands. -/
def setMember (key : String) (v : Value) : List (String × Value) → List (String × Value)
  | [] => [(key, v)]
  | (k, w) :: rest => if k = key then (key, v) :: rest else (k, w) :: setMember key v rest

end Value

end SqfIndex.Json
