/-!
UTF-8 bytes and their decoding. Bytes that are no character come out as gaps, one for each longest prefix of
a character that the text breaks off.
-/

namespace SqfIndex

/-- A byte string; where it stands for a text, its bytes are those of UTF-8. -/
abbrev Bytes := List UInt8

namespace Text

/-- For the first byte of a longer character: how many bytes follow, the bounds of the first of
them, and the bits the first byte carries. -/
def leadByte (b : Nat) : Option (Nat × Nat × Nat × Nat) :=
  if 0xC2 ≤ b ∧ b ≤ 0xDF then some (1, 0x80, 0xBF, b - 0xC0)
  else if b = 0xE0 then some (2, 0xA0, 0xBF, 0)
  else if b = 0xED then some (2, 0x80, 0x9F, 0xD)
  else if 0xE1 ≤ b ∧ b ≤ 0xEF then some (2, 0x80, 0xBF, b - 0xE0)
  else if b = 0xF0 then some (3, 0x90, 0xBF, 0)
  else if 0xF1 ≤ b ∧ b ≤ 0xF3 then some (3, 0x80, 0xBF, b - 0xF0)
  else if b = 0xF4 then some (3, 0x80, 0x8F, 4)
  else none

/-- Reads following bytes, the first of them within `lo` and `hi`; gives the code point, or nothing
if one is missing, and the bytes not read. -/
def followBytes : Nat → Nat → Nat → Nat → Bytes → Option Nat × Bytes
  | 0, _, _, acc, bytes => (some acc, bytes)
  | _ + 1, _, _, _, [] => (none, [])
  | k + 1, lo, hi, acc, b :: bytes =>
    if lo ≤ b.toNat ∧ b.toNat ≤ hi then followBytes k 0x80 0xBF (acc * 64 + b.toNat % 64) bytes
    else (none, b :: bytes)

theorem length_followBytes (k lo hi acc : Nat) (bytes : Bytes) :
    (followBytes k lo hi acc bytes).2.length ≤ bytes.length := by
  induction k generalizing lo hi acc bytes with
  | zero => simp [followBytes]
  | succ k ih =>
    cases bytes with
    | nil => simp [followBytes]
    | cons b bytes =>
      simp only [followBytes]
      split
      · exact Nat.le_succ_of_le (ih _ _ _ _)
      · simp

/-- The characters and gaps of a byte string. -/
def decode (bytes : Bytes) : List (Option Char) :=
  match bytes with
  | [] => []
  | b :: rest =>
    if b.toNat < 0x80 then some (Char.ofNat b.toNat) :: decode rest
    else
      match leadByte b.toNat with
      | none => none :: decode rest
      | some (k, lo, hi, acc) =>
        (followBytes k lo hi acc rest).1.map Char.ofNat :: decode (followBytes k lo hi acc rest).2
termination_by bytes.length
decreasing_by
  all_goals simp_wf
  all_goals have := length_followBytes k lo hi acc rest
  all_goals omega

/-- Reads bytes as text, writing the replacement character for each gap. -/
def decodeLossy (bytes : Bytes) : List Char := (decode bytes).map (·.getD '\ufffd')

/-- Reads bytes as text, if they have no gap. -/
def decode? (bytes : Bytes) : Option (List Char) := (decode bytes).mapM id

/-- Reads bytes as a string, writing the replacement character for each gap. -/
def shown (bytes : Bytes) : String := String.ofList (decodeLossy bytes)

/-- The bytes of a text. -/
def encode (cs : List Char) : Bytes := cs.flatMap String.utf8EncodeChar

end Text

end SqfIndex
