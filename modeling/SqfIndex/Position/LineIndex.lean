import SqfIndex.Text.Units

/-!
Positions in a text, from zero, with columns in UTF-16 units, and the table of lines that finds them.
-/

namespace SqfIndex

structure Position where
  line : Nat
  column : Nat
deriving DecidableEq, Repr, Inhabited

structure Range where
  start : Position
  stop : Position
deriving DecidableEq, Repr, Inhabited

/-- Line and column from one, in words of 32 bits. -/
structure Location where
  line : UInt32
  column : UInt32
deriving DecidableEq, Repr, Inhabited

/-- The position that a location tells. There is none before the first. -/
def Location.toPosition (l : Location) : Position := ⟨l.line.toNat - 1, l.column.toNat - 1⟩

namespace Position

/-- Order of the text: by line, then by column. -/
def le (p q : Position) : Bool := p.line < q.line || (p.line == q.line && p.column ≤ q.column)

end Position

/-- A line of a text: where it starts, and its characters with the line feed that ends it. -/
structure Line where
  start : Nat
  text : List Char
deriving DecidableEq, Repr, Inhabited

/-- The lines of a text and its size in bytes. -/
structure LineIndex where
  lines : List Line
  size : Nat
deriving DecidableEq, Repr, Inhabited

namespace LineIndex

/-- The lines of a text with their line feeds; what follows the last line feed is a line too. -/
def split : List Char → List (List Char)
  | [] => [[]]
  | c :: cs =>
    if c = '\n' then [c] :: split cs
    else
      match split cs with
      | [] => [[c]]
      | l :: ls => (c :: l) :: ls

/-- Lines with the offsets at which they start. -/
def number : Nat → List (List Char) → List Line
  | _, [] => []
  | start, l :: ls => ⟨start, l⟩ :: number (start + Text.width l) ls

def ofText (text : List Char) : LineIndex := ⟨number 0 (split text), Text.width text⟩

/-- The position of a byte offset. An offset past the end counts as the end, one inside a character as
its start. Of a text that is small enough, it is what `location` tells. -/
def position (ix : LineIndex) (offset : Nat) : Position :=
  let target := min offset ix.size
  let upto := ix.lines.takeWhile (·.start ≤ target)
  match upto.getLast? with
  | some line => ⟨upto.length - 1, Text.column line.text (target - line.start)⟩
  | none => ⟨0, 0⟩

/-- Line and column from one. What does not fit into a word wraps around, so that zero follows the largest word. -/
def location (ix : LineIndex) (offset : Nat) : Location :=
  let p := ix.position offset
  ⟨.ofNat p.line + 1, .ofNat p.column + 1⟩

end LineIndex

end SqfIndex
