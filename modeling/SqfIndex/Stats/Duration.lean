import SqfIndex.Decimal.Shortest

/-!
Lengths of time, and how they are written.
-/

namespace SqfIndex.Stats

/-- Whole seconds, and nanoseconds below one second. -/
structure Duration where
  seconds : Nat
  nanos : Nat
deriving DecidableEq, Repr, Inhabited

namespace Duration

/-- Nanoseconds of a second. -/
def perSecond : Nat := 1000000000

def zero : Duration := ⟨0, 0⟩

def ofNanos (n : Nat) : Duration := ⟨n / perSecond, n % perSecond⟩

def totalNanos (d : Duration) : Nat := d.seconds * perSecond + d.nanos

def sum (ds : List Duration) : Duration := ofNanos (ds.foldr (·.totalNanos + ·) 0)

/-- Unit and its nanoseconds: the largest one that is not longer than the duration. -/
def unit (d : Duration) : String × Nat :=
  if d.seconds > 0 then ("s", perSecond)
  else if d.nanos ≥ 1000000 then ("ms", 1000000)
  else if d.nanos ≥ 1000 then ("µs", 1000)
  else ("ns", 1)

/-- Two decimal places of the unit. -/
def rounded (d : Duration) : String := Decimal.fixed 2 d.totalNanos d.unit.2 ++ d.unit.1

/-- Milliseconds as a number of 53 bits: the seconds are summed first and then scaled. -/
def millis (d : Duration) : Decimal.Binary :=
  ((Decimal.Binary.nearest d.seconds 1).add (Decimal.Binary.nearest d.nanos perSecond)).scale 1000

/-- Milliseconds with three decimal places. -/
def fixedMillis (d : Duration) : String := Decimal.fixed 3 d.millis.fraction.1 d.millis.fraction.2

/-- Numbers from a hundred-thousandth up to below ten to the sixteenth are written out. -/
def numberStyle : Decimal.Style := { least := -4, greatest := 16, plusSign := true }

/-- Milliseconds with the fewest digits that read back. -/
def shortMillis (d : Duration) : String :=
  if d.millis.mantissa = 0 then "0.0" else numberStyle.write (Decimal.shortest d.millis)

end Duration

end SqfIndex.Stats
