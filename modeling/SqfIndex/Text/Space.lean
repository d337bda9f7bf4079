/-!
White space, trimming and lines.
-/

namespace SqfIndex.Text

/-- The characters with the White_Space property. -/
def isSpace (c : Char) : Bool :=
  let n := c.toNat
  (9 ≤ n && n ≤ 13) || n == 0x20 || n == 0x85 || n == 0xA0 || n == 0x1680 ||
    (0x2000 ≤ n && n ≤ 0x200A) || n == 0x2028 || n == 0x2029 || n == 0x202F || n == 0x205F || n == 0x3000

/-- The blanks between tokens: space, tab, line feed, form feed and carriage return. -/
def isBlank (c : Char) : Bool :=
  c == ' ' || c == '\t' || c == '\n' || c == '\x0c' || c == '\x0d'

/-- Drops the longest suffix whose characters all satisfy `p`. -/
def dropEndWhile (p : Char → Bool) (cs : List Char) : List Char :=
  (cs.reverse.dropWhile p).reverse

def trimStart (cs : List Char) : List Char := cs.dropWhile isSpace

def trimEnd (cs : List Char) : List Char := dropEndWhile isSpace cs

def trim (cs : List Char) : List Char := trimEnd (trimStart cs)

/-- Trims a string at both ends. -/
def trimmed (s : String) : String := String.ofList (trim s.toList)

/-- The lines of a text, each with the line feed that ends it. -/
def rawLines : List Char → List (List Char)
  | [] => []
  | c :: cs =>
    if c = '\n' then [c] :: rawLines cs
    else
      match rawLines cs with
      | [] => [[c]]
      | l :: ls => (c :: l) :: ls

/-- Takes the line feed off a line, and one carriage return before it. -/
def chomp (line : List Char) : List Char :=
  match line.reverse with
  | '\n' :: '\x0d' :: rest => rest.reverse
  | '\n' :: rest => rest.reverse
  | _ => line

/-- The lines of a text without their ends. -/
def lines (cs : List Char) : List (List Char) := (rawLines cs).map chomp

/-- The pieces between occurrences of `sep`; never empty. -/
def splitAt {α : Type} [DecidableEq α] (sep : α) : List α → List (List α)
  | [] => [[]]
  | c :: cs =>
    if c = sep then [] :: splitAt sep cs
    else
      match splitAt sep cs with
      | [] => [[c]]
      | p :: ps => (c :: p) :: ps

/-- Replaces every `a` by `b`. -/
def replaceChar (a b : Char) (cs : List Char) : List Char := cs.map fun c => if c = a then b else c

/-- Drops `pre` from the front, if it stands there. -/
def dropPrefix? : List Char → List Char → Option (List Char)
  | [], cs => some cs
  | _ :: _, [] => none
  | p :: ps, c :: cs => if p = c then dropPrefix? ps cs else none

/-- Drops as many copies of the two characters `a b` from the front as stand there. -/
def dropPairs (a b : Char) : List Char → List Char
  | x :: y :: cs => if x = a ∧ y = b then dropPairs a b cs else x :: y :: cs
  | cs => cs

/-- Joins pieces with `sep` between them. -/
def joinWith {α : Type} (sep : List α) (pieces : List (List α)) : List α := (pieces.intersperse sep).flatten

end SqfIndex.Text
