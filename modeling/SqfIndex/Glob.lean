/-!
Glob patterns for leaving files out. A pattern is compiled once; matching ignores the case of ASCII
letters and lets a star run across separators.
-/

namespace SqfIndex.Glob

/-- A member of a set of characters. -/
inductive Member
  | one (c : Char)
  | span (first last : Char)
deriving DecidableEq, Repr

/-- One element of a pattern. -/
inductive Element
  | literal (c : Char)
  | anyChar
  | anyText
  | anyFolders
  | oneOf (members : List Member)
  | noneOf (members : List Member)
deriving DecidableEq, Repr

/-- A compiled pattern. -/
abbrev Pattern := List Element

/-- Reads the contents of a bracketed set. -/
def members : List Char → List Member
  | a :: '-' :: b :: rest => .span a b :: members rest
  | a :: rest => .one a :: members rest
  | [] => []

/-- Reads the set after an opening bracket, with what follows it. The first character of the set is
never its end. -/
def readSet? (cs : List Char) : Option (Element × List Char) :=
  match cs with
  | '!' :: a :: rest =>
    if rest.contains ']' then
      some (.noneOf (members (a :: rest.takeWhile (· != ']'))), (rest.dropWhile (· != ']')).drop 1)
    else none
  | a :: rest =>
    if a != '!' && rest.contains ']' then
      some (.oneOf (members (a :: rest.takeWhile (· != ']'))), (rest.dropWhile (· != ']')).drop 1)
    else none
  | [] => none

theorem length_dropWhile_le (p : Char → Bool) (cs : List Char) :
    (cs.dropWhile p).length ≤ cs.length :=
  (List.dropWhile_sublist p).length_le

theorem length_afterSet (t : List Char) : ((t.dropWhile (· != ']')).drop 1).length ≤ t.length := by
  have := length_dropWhile_le (· != ']') t
  simp only [List.length_drop]
  omega

theorem length_readSet? {cs rest : List Char} {e : Element} (h : readSet? cs = some (e, rest)) :
    rest.length ≤ cs.length := by
  unfold readSet? at h
  split at h
  case h_1 a t =>
    split at h <;> simp at h
    rw [← h.2]
    have := length_afterSet t
    simp at this ⊢
    omega
  case h_2 a t _ =>
    split at h <;> simp at h
    rw [← h.2]
    have := length_afterSet t
    simp at this ⊢
    omega
  case h_3 => simp at h

/-- Compiles a pattern; `before` is the character to its left. Two stars must be a whole component. -/
def compileAfter (before : Option Char) (cs : List Char) : Option Pattern :=
  match cs with
  | [] => some []
  | '?' :: rest => (compileAfter (some '?') rest).map (.anyChar :: ·)
  | '*' :: '*' :: '*' :: _ => none
  | ['*', '*'] => if before.all (· == '/') then some [.anyFolders] else none
  | '*' :: '*' :: '/' :: rest =>
    if before.all (· == '/') then (compileAfter (some '/') rest).map (.anyFolders :: ·) else none
  | '*' :: '*' :: _ => none
  | '*' :: rest => (compileAfter (some '*') rest).map (.anyText :: ·)
  | '[' :: rest =>
    match _found : readSet? rest with
    | some (e, after) => (compileAfter (some ']') after).map (e :: ·)
    | none => none
  | c :: rest => (compileAfter (some c) rest).map (.literal c :: ·)
termination_by cs.length
decreasing_by
  all_goals simp_wf
  all_goals try omega
  all_goals have := length_readSet? _found
  all_goals omega

/-- Compiles a pattern, if it is well formed. -/
def compile? (pattern : String) : Option Pattern := compileAfter none pattern.toList

def isAscii (c : Char) : Bool := c.toNat < 0x80

/-- Equality of characters up to the case of ASCII letters. -/
def sameChar (a b : Char) : Bool := a.toLower == b.toLower

def Member.holds (c : Char) : Member → Bool
  | .one a => sameChar a c
  | .span a b =>
    (a ≤ c && c ≤ b) ||
      (isAscii c && isAscii a && isAscii b && a.isAlpha && b.isAlpha &&
        (a.toLower ≤ c.toLower && c.toLower ≤ b.toLower))

/-- Whether an element that stands for one character accepts it. -/
def Element.accepts (c : Char) : Element → Bool
  | .literal a => sameChar a c
  | .oneOf ms => ms.any (Member.holds c)
  | .noneOf ms => !ms.any (Member.holds c)
  | _ => true

/-- How an attempt to match ends. An attempt that runs out of text ends the whole match. -/
inductive Outcome
  | matched
  | mismatch
  | exhausted
deriving DecidableEq, Repr

/-- Tries what follows a star after each longer stretch that ends in a character `stop` accepts, and
at last at the end of the text. -/
def stretch (next : List Char → Outcome) (stop : Char → Bool) : List Char → Outcome
  | [] => next []
  | c :: cs =>
    if stop c then
      match next cs with
      | .mismatch => stretch next stop cs
      | found => found
    else stretch next stop cs

/-- Matches a pattern against the start of a text that has to end with it. -/
def attempt : Pattern → List Char → Outcome
  | [], [] => .matched
  | [], _ :: _ => .mismatch
  | .anyText :: es, cs =>
    match attempt es cs with
    | .mismatch => stretch (attempt es) (fun _ => true) cs
    | found => found
  | .anyFolders :: es, cs =>
    match attempt es cs with
    | .mismatch => stretch (attempt es) (· == '/') cs
    | found => found
  | _ :: _, [] => .exhausted
  | e :: es, c :: cs => if e.accepts c then attempt es cs else .mismatch

/-- Whether the pattern describes the whole text. -/
def matchesText (pattern : Pattern) (text : String) : Bool := attempt pattern text.toList == .matched

end SqfIndex.Glob
