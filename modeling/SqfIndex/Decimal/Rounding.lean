/-!
Rounding of fractions to whole numbers, to a fixed number of places, and to 53 significant bits. A half
goes to the even neighbour.
-/

namespace SqfIndex.Decimal

/-- A power of ten. -/
def tenTo (k : Nat) : Nat := Nat.pow 10 k

/-- A power of two. -/
def twoTo (k : Nat) : Nat := Nat.pow 2 k

/-- The whole number nearest to `num / den`. -/
def roundDiv (num den : Nat) : Nat :=
  let q := num / den
  let r := num % den
  if 2 * r > den ∨ (2 * r = den ∧ q % 2 = 1) then q + 1 else q

/-- A text of digits with zeros in front up to the given length. -/
def padZeros (length : Nat) (digits : String) : String :=
  String.ofList (List.replicate (length - digits.length) '0') ++ digits

/-- `num / den` with the given number of decimal places. -/
def fixed (places num den : Nat) : String :=
  let n := roundDiv (num * tenTo places) den
  toString (n / tenTo places) ++ "." ++ padZeros places (toString (n % tenTo places))

/-- The decimal `digits · 10 ^ exponent`. -/
structure Digits where
  digits : Nat
  exponent : Int
deriving DecidableEq, Repr

/-- The number `mantissa · 2 ^ exponent`. -/
structure Binary where
  mantissa : Nat
  exponent : Int
deriving DecidableEq, Repr

namespace Binary

/-- Numerator and denominator of the number. -/
def fraction (b : Binary) : Nat × Nat :=
  if b.exponent ≥ 0 then (b.mantissa * twoTo b.exponent.toNat, 1) else (b.mantissa, twoTo (-b.exponent).toNat)

/-- `num / den` scaled by a power of two and rounded. -/
def scaled (num den : Nat) (exponent : Int) : Nat :=
  if exponent ≥ 0 then roundDiv num (den * twoTo exponent.toNat)
  else roundDiv (num * twoTo (-exponent).toNat) den

/-- The number of 53 bits nearest to `num / den`. -/
def nearest (num den : Nat) : Binary :=
  if num = 0 then ⟨0, 0⟩
  else
    let guess : Int := (Nat.log2 num : Int) - Nat.log2 den - 53
    let e := if scaled num den guess < twoTo 53 then guess else guess + 1
    let m := scaled num den e
    if m = twoTo 53 then ⟨twoTo 52, e + 1⟩ else ⟨m, e⟩

/-- The nearest number of 53 bits to the sum. -/
def add (a b : Binary) : Binary :=
  let (n, d) := a.fraction
  let (n', d') := b.fraction
  nearest (n * d' + n' * d) (d * d')

/-- The nearest number of 53 bits to the product. -/
def mul (a b : Binary) : Binary :=
  let (n, d) := a.fraction
  let (n', d') := b.fraction
  nearest (n * n') (d * d')

/-- Whether a number of 53 bits reaches the power of two at which the range of numbers ends. -/
def isBeyondRange (b : Binary) : Bool := b.exponent > 1024 - 53

/-- The nearest number of 53 bits to the product with a whole number. -/
def scale (a : Binary) (factor : Nat) : Binary := nearest (a.fraction.1 * factor) a.fraction.2

end Binary

end SqfIndex.Decimal
