import SqfIndex.Script.Token

/-!
Brackets that have no partner. A closing bracket takes the nearest open one of its kind; whatever was
opened inside and is still open is reported.
-/

namespace SqfIndex.Script

/-- The bracket that a closing one closes. -/
def opener? : Char → Option Char
  | ')' => some '('
  | ']' => some '['
  | '}' => some '{'
  | _ => none

def isOpener (c : Char) : Bool := c == '(' || c == '[' || c == '{'

/-- A bracket without a partner. -/
inductive BracketFault
  | unexpected (closer : Token)
  | unclosed (opener : Token)
deriving DecidableEq, Repr

namespace BracketFault

def token : BracketFault → Token
  | unexpected t => t
  | unclosed t => t

def finding : BracketFault → Finding
  | unexpected t => ⟨.error, "Unexpected '" ++ String.ofList t.text ++ "'", t.span⟩
  | unclosed t => ⟨.error, "Missing closing bracket for '" ++ String.ofList t.text ++ "'", t.span⟩

end BracketFault

/-- The faults of some tokens; `pending` holds the open brackets before them, innermost first. -/
def bracketFaults : List Token → List Token → List BracketFault
  | pending, [] => pending.reverse.map .unclosed
  | pending, t :: ts =>
    match t.kind with
    | .mark c =>
      if isOpener c then bracketFaults (t :: pending) ts
      else
        match opener? c with
        | none => bracketFaults pending ts
        | some o =>
          if pending.any (·.kind == .mark o) then
            (pending.takeWhile (·.kind != .mark o)).map .unclosed ++
              bracketFaults ((pending.dropWhile (·.kind != .mark o)).drop 1) ts
          else .unexpected t :: bracketFaults pending ts
    | _ => bracketFaults pending ts

/-- What is wrong with the brackets of a script. -/
def bracketFindings (tokens : List Token) : List Finding := (bracketFaults [] tokens).map (·.finding)

end SqfIndex.Script
