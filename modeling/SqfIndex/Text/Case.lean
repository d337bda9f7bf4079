import SqfIndex.Text.CaseTable

/-!
Lower-casing. `lower` follows the full mapping, in which a letter may become two and a capital sigma
depends on its surroundings; `asciiLower` touches the letters `A` to `Z` only.
-/

namespace SqfIndex.Text

/-- Whether the run has `n` among its members. -/
def CaseRun.covers (r : CaseRun) (n : Nat) : Bool :=
  r.first ≤ n && n ≤ r.last && (n - r.first) % r.step == 0

/-- Lower-case form of one character, without regard to its surroundings. -/
def lowerChar (c : Char) : List Char :=
  if c.toNat < 0x80 then [c.toLower]
  else if c.toNat = 0x130 then ['i', '\u0307']
  else
    match caseRuns.find? (·.covers c.toNat) with
    | some r => [Char.ofNat (c.toNat + r.shift).toNat]
    | none => [c]

/-- Whether the first character that is not case-ignorable is a cased letter. -/
def meetsCased (cs : List Char) : Bool :=
  match cs.dropWhile fun c => inRanges ignorableRanges c.toNat with
  | [] => false
  | c :: _ => inRanges casedRanges c.toNat

/-- Lower-cases the second text; the first is what stands before it, nearest character first.
A capital sigma that ends a word takes its final form. -/
def lowerAfter : List Char → List Char → List Char
  | _, [] => []
  | before, c :: rest =>
    (if c = 'Σ' then [if meetsCased before && !meetsCased rest then 'ς' else 'σ'] else lowerChar c) ++
      lowerAfter (c :: before) rest

/-- Full lower-casing. -/
def lower (cs : List Char) : List Char := lowerAfter [] cs

/-- Full lower-casing of a name. -/
def lowered (s : String) : String := String.ofList (lower s.toList)

/-- Lower-cases `A` to `Z` and leaves everything else. -/
def asciiLower (s : String) : String := String.ofList (s.toList.map Char.toLower)

/-- Equality up to the case of ASCII letters. -/
def sameIgnoringAsciiCase (s t : String) : Bool := asciiLower s == asciiLower t

end SqfIndex.Text
