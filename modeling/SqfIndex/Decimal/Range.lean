import SqfIndex.Decimal.Rounding

/-!
Decimals read from what is written, with digits that fit into 64 bits, and whether they are too large
for a number of 53 bits.
-/

namespace SqfIndex.Decimal

/-- The greatest number of 64 bits. -/
def wordEnd : Nat := 0xFFFFFFFFFFFFFFFF

namespace Digits

/-- Puts a digit after the others, if they still fit into 64 bits. -/
def push? (d : Digits) (c : Char) : Option Digits :=
  let n := 10 * d.digits + (c.toNat - 0x30)
  if n ≤ wordEnd then some { d with digits := n } else none

/-- Takes in digits before the point. From the first that does not fit on, they only raise the exponent. -/
def takeWhole (d : Digits) : List Char → Digits
  | [] => d
  | c :: cs =>
    match d.push? c with
    | some d => takeWhole d cs
    | none => { d with exponent := d.exponent + (cs.length + 1) }

/-- Takes in digits after the point, up to the first that does not fit. -/
def takeFraction (d : Digits) : List Char → Digits
  | [] => d
  | c :: cs =>
    match d.push? c with
    | some d => takeFraction { d with exponent := d.exponent - 1 } cs
    | none => d

/-- The decimal with the given digits before and after the point. -/
def ofParts (whole fraction : List Char) : Digits := (takeWhole ⟨0, 0⟩ whole).takeFraction fraction

/-- Multiplies with a power of ten. -/
def shift (d : Digits) (places : Int) : Digits := { d with exponent := d.exponent + places }

/-- The greatest power of ten in the range of numbers. -/
def greatestPower : Nat := 308

/-- Whether the decimal lies beyond the range of numbers. Digits and power of ten are rounded before
they are multiplied, and digits times a power of ten beyond the range are beyond it unless they are zero. -/
def isBeyondRange (d : Digits) : Bool :=
  if d.exponent < 0 then false
  else if d.exponent > greatestPower then d.digits != 0
  else ((Binary.nearest d.digits 1).mul (Binary.nearest (tenTo d.exponent.toNat) 1)).isBeyondRange

end Digits

end SqfIndex.Decimal
