/-!
Sizes and cuts of texts in UTF-8 bytes and UTF-16 units.
-/

namespace SqfIndex.Text

/-- Bytes a text takes in UTF-8. -/
def width (cs : List Char) : Nat := cs.foldr (·.utf8Size + ·) 0

/-- UTF-16 units of one character. -/
def unitSize (c : Char) : Nat := if c.toNat < 0x10000 then 1 else 2

/-- UTF-16 units of a text. -/
def units (cs : List Char) : Nat := cs.foldr (unitSize · + ·) 0

/-- The characters that lie wholly within the first `n` bytes. -/
def upTo : Nat → List Char → List Char
  | _, [] => []
  | n, c :: cs => if c.utf8Size ≤ n then c :: upTo (n - c.utf8Size) cs else []

/-- Cuts a text after `n` bytes, if a character ends there. -/
def cutAt? : Nat → List Char → Option (List Char × List Char)
  | 0, cs => some ([], cs)
  | _ + 1, [] => none
  | n + 1, c :: cs =>
    if c.utf8Size ≤ n + 1 then (cutAt? (n + 1 - c.utf8Size) cs).map fun (a, b) => (c :: a, b) else none

/-- Column of a byte offset in UTF-16 units; an offset inside a character counts as its start. -/
def column (line : List Char) (offset : Nat) : Nat := units (upTo offset line)

@[simp] theorem width_nil : width [] = 0 := rfl

@[simp] theorem width_cons (c : Char) (cs : List Char) : width (c :: cs) = c.utf8Size + width cs := rfl

@[simp] theorem width_append (as bs : List Char) : width (as ++ bs) = width as + width bs := by
  induction as with
  | nil => simp
  | cons a as ih => simp [ih, Nat.add_assoc]

@[simp] theorem units_nil : units [] = 0 := rfl

@[simp] theorem units_cons (c : Char) (cs : List Char) : units (c :: cs) = unitSize c + units cs := rfl

@[simp] theorem units_append (as bs : List Char) : units (as ++ bs) = units as + units bs := by
  induction as with
  | nil => simp
  | cons a as ih => simp [ih, Nat.add_assoc]

end SqfIndex.Text
