import SqfIndex.Decimal.Rounding

/-!
The fewest decimal digits that read back as a number of 53 bits, and of those the nearest.
-/

namespace SqfIndex.Decimal

/-- `a · 10 ^ ten` and `b · 2 ^ two`, both times one number that makes them whole. -/
def together (a : Nat) (ten : Int) (b : Nat) (two : Int) : Nat × Nat :=
  (a * tenTo ten.toNat * twoTo (-two).toNat, b * twoTo two.toNat * tenTo (-ten).toNat)

/-- Whether a decimal is read as the number: it lies between the midpoints to the number's neighbours,
and on a midpoint only if the mantissa is even. -/
def readsAs (d : Digits) (b : Binary) : Bool :=
  let below := if b.mantissa = twoTo 52 then 4 * b.mantissa - 1 else 4 * b.mantissa - 2
  let (x, low) := together d.digits d.exponent below (b.exponent - 2)
  let (y, high) := together d.digits d.exponent (4 * b.mantissa + 2) (b.exponent - 2)
  if b.mantissa % 2 = 0 then low ≤ x && y ≤ high else low < x && y < high

/-- The distance of a decimal from the number, in a unit that depends on the exponents alone. -/
def distance (d : Digits) (b : Binary) : Nat :=
  let (x, v) := together d.digits d.exponent b.mantissa b.exponent
  (x - v) + (v - x)

/-- The greatest decimal not above the number on the grid of the given exponent. -/
def floorAt (b : Binary) (exponent : Int) : Digits :=
  let (step, v) := together 1 exponent b.mantissa b.exponent
  ⟨v / step, exponent⟩

/-- How many digits stand before the point, counted down for numbers below one. -/
def magnitude (b : Binary) : Int :=
  let (n, d) := b.fraction
  if n ≥ d then ((n / d).repr.length : Int) else 1 - ((d - 1) / n).repr.length

/-- The nearer of the two neighbours on a grid that are read as the number. -/
def onGrid? (b : Binary) (exponent : Int) : Option Digits :=
  let lower := floorAt b exponent
  let upper : Digits := { lower with digits := lower.digits + 1 }
  match readsAs lower b, readsAs upper b with
  | true, true =>
    let dl := distance lower b
    let du := distance upper b
    some (if dl < du ∨ (dl = du ∧ lower.digits % 2 = 0) then lower else upper)
  | true, false => some lower
  | false, true => some upper
  | false, false => none

/-- The shortest decimal that is read as a positive number. -/
def shortest (b : Binary) : Digits :=
  let top := magnitude b
  ((List.range 18).findSome? fun (n : Nat) => onGrid? b (top - (n : Int))).getD (floorAt b (top - 17))

/-- Where a number is written without an exponent, and how the exponent is written elsewhere. -/
structure Style where
  /-- The least number of digits before the point, as in `magnitude`, that is written out. -/
  least : Int
  /-- The greatest one. -/
  greatest : Int
  plusSign : Bool

/-- Writes digits with their point. -/
def Style.write (style : Style) (d : Digits) : String :=
  let text := (toString d.digits).toList
  let kept := (text.reverse.dropWhile (· == '0')).reverse
  let before : Int := text.length + d.exponent
  let size := kept.length
  if kept = [] then "0.0"
  else if style.least ≤ before ∧ before ≤ style.greatest then
    if before ≤ 0 then "0." ++ String.ofList (List.replicate (-before).toNat '0' ++ kept)
    else if before ≥ size then
      String.ofList (kept ++ List.replicate (before.toNat - size) '0') ++ ".0"
    else String.ofList (kept.take before.toNat) ++ "." ++ String.ofList (kept.drop before.toNat)
  else
    let point := if size = 1 then [] else ['.']
    let e := before - 1
    let exponent := if e < 0 then "-" ++ toString (-e).toNat else (if style.plusSign then "+" else "") ++ toString e.toNat
    String.ofList (kept.take 1 ++ point ++ kept.drop 1) ++ "e" ++ exponent

end SqfIndex.Decimal
