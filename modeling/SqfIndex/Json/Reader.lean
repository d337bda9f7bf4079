import SqfIndex.Decimal.Range
import SqfIndex.Json.Value
import SqfIndex.Text.Hex
import SqfIndex.Text.Units

/-!
Reading JSON. A fault says what is wrong and how many bytes of the text are left where it shows.
-/

namespace SqfIndex.Json

inductive Fault
  | endInList
  | endInObject
  | endInString
  | endInValue
  | noColon
  | noListComma
  | noObjectComma
  | noIdent
  | noValue
  | badEscape
  | badNumber
  | outOfRange
  | controlCharacter
  | keyNotText
  | loneSurrogate
  | trailingComma
  | trailingCharacters
  | brokenEscape
  | tooDeep
deriving DecidableEq, Repr

def Fault.message : Fault → String
  | endInList => "EOF while parsing a list"
  | endInObject => "EOF while parsing an object"
  | endInString => "EOF while parsing a string"
  | endInValue => "EOF while parsing a value"
  | noColon => "expected `:`"
  | noListComma => "expected `,` or `]`"
  | noObjectComma => "expected `,` or `\x7d`"
  | noIdent => "expected ident"
  | noValue => "expected value"
  | badEscape => "invalid escape"
  | badNumber => "invalid number"
  | outOfRange => "number out of range"
  | controlCharacter => "control character (\\u0000-\\u001F) found while parsing a string"
  | keyNotText => "key must be a string"
  | loneSurrogate => "lone leading surrogate in hex escape"
  | trailingComma => "trailing comma"
  | trailingCharacters => "trailing characters"
  | brokenEscape => "unexpected end of hex escape"
  | tooDeep => "recursion limit exceeded"

/-- A fault, and how many bytes of the text are left after it. -/
structure Trouble where
  fault : Fault
  left : Nat
deriving DecidableEq, Repr

/-- What a reader gives: a result and the rest of the text. -/
abbrev Reading (α : Type) := Except Trouble (α × List Char)

/-- A fault that shows once the text up to `rest` is read. -/
def failAt {α : Type} (fault : Fault) (rest : List Char) : Reading α :=
  .error ⟨fault, Text.width rest⟩

/-- A fault that the next byte of `rest` shows. -/
def failOn {α : Type} (fault : Fault) (rest : List Char) : Reading α :=
  .error ⟨fault, Text.width rest - 1⟩

def isGap (c : Char) : Bool := c == ' ' || c == '\n' || c == '\t' || c == '\x0d'

def skipGap (cs : List Char) : List Char := cs.dropWhile isGap

/-- Reads the remaining letters of a word. -/
def readWord (v : Value) : List Char → List Char → Reading Value
  | [], cs => .ok (v, cs)
  | _ :: _, [] => failAt .endInValue []
  | w :: ws, c :: cs => if c = w then readWord v ws cs else failOn .noIdent (c :: cs)

/-- Reads four hexadecimal digits. -/
def readHex (cs : List Char) : Reading Nat :=
  if Text.width cs < 4 then failAt .endInString []
  else
    match cs with
    | a :: b :: c :: d :: rest =>
      match Text.hexValue? a, Text.hexValue? b, Text.hexValue? c, Text.hexValue? d with
      | some w, some x, some y, some z => .ok (((w * 16 + x) * 16 + y) * 16 + z, rest)
      | _, _, _, _ => .error ⟨.badEscape, Text.width cs - 4⟩
    | _ => .error ⟨.badEscape, Text.width cs - 4⟩

/-- Reads an escaped code point after its `u`; a surrogate must be followed by its partner. -/
def readCodePoint (cs : List Char) : Except Trouble (Char × List Char) := do
  let (high, rest) ← readHex cs
  if 0xDC00 ≤ high ∧ high ≤ 0xDFFF then failAt .loneSurrogate rest
  else if high < 0xD800 ∨ 0xDFFF < high then .ok (Char.ofNat high, rest)
  else
    match rest with
    | [] => failAt .endInString []
    | '\\' :: 'u' :: more =>
      let (low, rest) ← readHex more
      if low < 0xDC00 ∨ 0xDFFF < low then failAt .loneSurrogate rest
      else .ok (Char.ofNat ((high - 0xD800) * 0x400 + (low - 0xDC00) + 0x10000), rest)
    | ['\\'] => failAt .endInString []
    | '\\' :: more => failOn .brokenEscape more
    | _ => failOn .brokenEscape rest

/-- Reads what follows a backslash. -/
def readEscape : List Char → Reading Char
  | [] => failAt .endInString []
  | c :: rest =>
    match c with
    | '"' | '\\' | '/' => .ok (c, rest)
    | 'b' => .ok ('\x08', rest)
    | 'f' => .ok ('\x0c', rest)
    | 'n' => .ok ('\n', rest)
    | 'r' => .ok ('\x0d', rest)
    | 't' => .ok ('\t', rest)
    | 'u' => readCodePoint rest
    | _ => failOn .badEscape (c :: rest)

/-- Reads the rest of a string after its opening quote; `done` holds its characters, latest first. -/
def readText : Nat → List Char → List Char → Reading String
  | 0, _, cs => failAt .endInString cs
  | _ + 1, _, [] => failAt .endInString []
  | fuel + 1, done, c :: rest =>
    if c = '"' then .ok (String.ofList done.reverse, rest)
    else if c = '\\' then
      match readEscape rest with
      | .ok (e, rest) => readText fuel (e :: done) rest
      | .error trouble => .error trouble
    else if c.toNat < 0x20 then failAt .controlCharacter rest
    else readText fuel (c :: done) rest

/-- Exponents above it are not read to their end. -/
def exponentLimit : Nat := 0x7FFFFFFF

/-- Accepts a number that has been read up to `rest`, unless it is beyond the range of numbers. -/
def acceptNumber (d : Decimal.Digits) (rest : List Char) : Reading Unit :=
  if d.isBeyondRange then failAt .outOfRange rest else .ok ((), rest)

/-- Reads digits as long as they stay below `limit`; gives the digits that exceed it too. -/
def boundedDigits (limit : Nat) : Nat → List Char → Nat × List Char
  | n, [] => (n, [])
  | n, c :: cs => if n > limit then (n, c :: cs) else boundedDigits limit (10 * n + (c.toNat - 0x30)) cs

/-- Reads the exponent after its mark; `d` is what stands before it. -/
def readExponent (sign : Char) (d : Decimal.Digits) (cs : List Char) : Reading Unit :=
  let body := if sign = '+' ∨ sign = '-' then cs.drop 1 else cs
  match body with
  | [] => failAt .endInValue []
  | c :: rest =>
    if !c.isDigit then failOn .badNumber (c :: rest)
    else
      let digits := body.takeWhile Char.isDigit
      let after := body.dropWhile Char.isDigit
      let (value, unread) := boundedDigits exponentLimit 0 digits
      if value > exponentLimit then
        if sign = '-' ∨ d.digits = 0 then .ok ((), after) else failAt .outOfRange (unread ++ after)
      else acceptNumber (d.shift (if sign = '-' then -value else value)) after

/-- Reads an exponent, if one follows. -/
def readScale (d : Decimal.Digits) (cs : List Char) : Reading Unit :=
  match cs with
  | mark :: rest =>
    if mark = 'e' ∨ mark = 'E' then readExponent (rest.head?.getD ' ') d rest else acceptNumber d cs
  | [] => acceptNumber d []

/-- Reads a number without its sign. -/
def readMagnitude : List Char → Reading Unit
  | [] => failAt .endInValue []
  | c :: rest =>
    if !c.isDigit then failOn .badNumber (c :: rest)
    else if c = '0' ∧ rest.head?.any Char.isDigit then failOn .badNumber rest
    else
      let whole := c :: rest.takeWhile Char.isDigit
      match rest.dropWhile Char.isDigit with
      | '.' :: rest =>
        let after := rest.dropWhile Char.isDigit
        if rest.head?.any Char.isDigit then readScale (.ofParts whole (rest.takeWhile Char.isDigit)) after
        else if rest = [] then failOn .endInValue []
        else failOn .badNumber rest
      | rest => readScale (.ofParts whole []) rest

/-- Reads a number; what is written is kept. -/
def readNumber (cs : List Char) : Except Trouble (Value × List Char) := do
  let (_, rest) ← readMagnitude (if cs.head? = some '-' then cs.drop 1 else cs)
  .ok (.number (String.ofList (cs.take (cs.length - rest.length))), rest)

mutual

/-- Reads a value; `depth` bounds the nesting and `fuel` the number of steps. -/
def readValue (depth fuel : Nat) (cs : List Char) : Reading Value :=
  match fuel with
  | 0 => failOn .noValue cs
  | fuel + 1 =>
    match skipGap cs with
    | [] => failOn .endInValue []
    | 'n' :: rest => readWord .null ['u', 'l', 'l'] rest
    | 't' :: rest => readWord (.bool true) ['r', 'u', 'e'] rest
    | 'f' :: rest => readWord (.bool false) ['a', 'l', 's', 'e'] rest
    | '"' :: rest =>
      match readText (rest.length + 1) [] rest with
      | .ok (s, rest) => .ok (.text s, rest)
      | .error trouble => .error trouble
    | '[' :: rest =>
      if depth ≤ 1 then failOn .tooDeep ('[' :: rest)
      else readItems (depth - 1) fuel true [] rest
    | '{' :: rest =>
      if depth ≤ 1 then failOn .tooDeep ('{' :: rest)
      else readMembers (depth - 1) fuel true [] rest
    | c :: rest =>
      if c = '-' ∨ c.isDigit then readNumber (c :: rest) else failOn .noValue (c :: rest)

/-- Reads list items up to the closing bracket; `done` holds the items so far, latest first. -/
def readItems (depth fuel : Nat) (first : Bool) (done : List Value) (cs : List Char) : Reading Value :=
  match fuel with
  | 0 => failOn .noValue cs
  | fuel + 1 =>
    let item (cs : List Char) : Reading Value :=
      match readValue depth fuel cs with
      | .ok (v, rest) => readItems depth fuel false (v :: done) rest
      | .error trouble => .error trouble
    match skipGap cs with
    | [] => failOn .endInList []
    | c :: rest =>
      if c = ']' then .ok (.list done.reverse, rest)
      else if first then item (c :: rest)
      else if c = ',' then
        match skipGap rest with
        | [] => failOn .endInValue []
        | c :: rest => if c = ']' then failOn .trailingComma (c :: rest) else item (c :: rest)
      else failOn .noListComma (c :: rest)

/-- Reads object members up to the closing brace. -/
def readMembers (depth fuel : Nat) (first : Bool) (done : List (String × Value)) (cs : List Char) :
    Reading Value :=
  match fuel with
  | 0 => failOn .noValue cs
  | fuel + 1 =>
    let member (cs : List Char) : Reading Value :=
      match cs with
      | [] => failOn .endInValue []
      | '"' :: rest =>
        match readText (rest.length + 1) [] rest with
        | .error trouble => .error trouble
        | .ok (key, rest) =>
          match skipGap rest with
          | [] => failOn .endInObject []
          | ':' :: rest =>
            match readValue depth fuel rest with
            | .ok (v, rest) => readMembers depth fuel false (Value.setMember key v done) rest
            | .error trouble => .error trouble
          | rest => failOn .noColon rest
      | '}' :: rest => failOn .trailingComma ('}' :: rest)
      | cs => failOn .keyNotText cs
    match skipGap cs with
    | [] => failOn .endInObject []
    | '}' :: rest => .ok (.object done, rest)
    | c :: rest =>
      if first then member (c :: rest)
      else if c = ',' then member (skipGap rest)
      else failOn .noObjectComma (c :: rest)

end

/-- Where in a text a fault shows: line from one, column in bytes. -/
def placeOf (text : List Char) (left : Nat) : Nat × Nat :=
  let index := Text.width text - left
  let before := Text.upTo index text
  let line := before.reverse.takeWhile (· != '\n')
  (1 + before.count '\n', index - (Text.width before - Text.width line))

/-- Reads a whole text as one value; the error says what is wrong and where. -/
def parse (text : List Char) : Except String Value :=
  let outcome : Except Trouble Value :=
    match readValue 128 (2 * text.length + 2) text with
    | .error trouble => .error trouble
    | .ok (v, rest) =>
      match skipGap rest with
      | [] => .ok v
      | rest => .error ⟨.trailingCharacters, Text.width rest - 1⟩
  outcome.mapError fun trouble =>
    let (line, column) := placeOf text trouble.left
    trouble.fault.message ++ " at line " ++ toString line ++ " column " ++ toString column

end SqfIndex.Json
