import SqfIndex.Script.Token
import SqfIndex.Script.Word
import SqfIndex.Text.Space

/-!
Splitting a script into tokens. `lexeme_append` says that a lexeme and what follows it are the text
it was read from, `lexeme_ne_nil` that it is not empty.
-/

namespace SqfIndex.Script

def isQuote (c : Char) : Bool := c == '"' || c == '\''

/-- Up to and with the end of a block comment, or everything if it is not closed; then the rest. -/
def closeComment : List Char → List Char × List Char
  | '*' :: '/' :: rest => (['*', '/'], rest)
  | c :: rest =>
    let tail := closeComment rest
    (c :: tail.1, tail.2)
  | [] => ([], [])

/-- Up to and with the closing quote, and the rest. A doubled quote does not close. -/
def closeQuote (q : Char) : List Char → Option (List Char × List Char)
  | [] => none
  | c :: rest =>
    if c = q then
      match rest with
      | [] => some ([c], [])
      | d :: more =>
        if d = q then (closeQuote q more).map fun (a, b) => (c :: d :: a, b)
        else some ([c], d :: more)
    else (closeQuote q rest).map fun (a, b) => (c :: a, b)

def isMark (c : Char) : Bool := ['(', ')', '[', ']', '{', '}', ';', ','].contains c

def isNumberChar (c : Char) : Bool := c.isAlphanum || c == '.'

/-- The operators of two characters. -/
def isPair (c d : Char) : Bool :=
  [('=', '='), ('!', '='), ('>', '='), ('<', '='), ('&', '&'), ('|', '|'), ('>', '>')].contains (c, d)

/-- Kind and text of the token at the front of `c :: rest`, and what follows it. A quote that is not
closed begins no token. -/
def lexeme (c : Char) (rest : List Char) : Option (Kind × List Char × List Char) :=
  if c = '/' ∧ rest.head? = some '/' then
    some (.comment, c :: rest.takeWhile (· != '\n'), rest.dropWhile (· != '\n'))
  else if c = '/' ∧ rest.head? = some '*' then
    let body := closeComment (rest.drop 1)
    some (.comment, c :: '*' :: body.1, body.2)
  else if isQuote c then (closeQuote c rest).map fun (a, b) => (.text, c :: a, b)
  else if c.isDigit ∨ (c = '$' ∧ rest ≠ []) then
    some (.number, c :: rest.takeWhile isNumberChar, rest.dropWhile isNumberChar)
  else if isWordStart c then
    some (.identifier, c :: rest.takeWhile isWordChar, rest.dropWhile isWordChar)
  else if isMark c then some (.mark c, [c], rest)
  else
    match rest with
    | d :: more => if isPair c d then some (.operator, [c, d], more) else some (.operator, [c], rest)
    | [] => some (.operator, [c], [])

theorem closeComment_append (cs : List Char) : (closeComment cs).1 ++ (closeComment cs).2 = cs := by
  fun_induction closeComment cs with
  | case1 => rfl
  | case2 c rest _ tail ih => simp [tail, ih]
  | case3 => rfl

theorem closeQuote_append {q : Char} {cs a b : List Char} (h : closeQuote q cs = some (a, b)) :
    a ++ b = cs := by
  fun_induction closeQuote q cs generalizing a b with
  | case1 => simp at h
  | case2 => simp_all
  | case3 more ih =>
    simp only [Option.map_eq_some_iff, Prod.exists, Prod.mk.injEq] at h
    obtain ⟨a', b', h, rfl, rfl⟩ := h
    simp [ih h]
  | case4 => simp_all; obtain ⟨rfl, rfl⟩ := h; rfl
  | case5 c rest hc ih =>
    simp only [Option.map_eq_some_iff, Prod.exists, Prod.mk.injEq] at h
    obtain ⟨a', b', h, rfl, rfl⟩ := h
    simp [ih h]

theorem lexeme_append {c : Char} {rest text after : List Char} {k : Kind}
    (h : lexeme c rest = some (k, text, after)) : text ++ after = c :: rest := by
  unfold lexeme at h
  split at h
  · simp only [Option.some.injEq, Prod.mk.injEq] at h
    obtain ⟨_, rfl, rfl⟩ := h
    simp [List.takeWhile_append_dropWhile]
  split at h
  · next hs =>
    simp only [Option.some.injEq, Prod.mk.injEq] at h
    obtain ⟨_, rfl, rfl⟩ := h
    cases rest with
    | nil => simp at hs
    | cons d more =>
      have hd : d = '*' := by simpa using hs.2
      simp [closeComment_append, hd]
  split at h
  · simp only [Option.map_eq_some_iff, Prod.exists, Prod.mk.injEq] at h
    obtain ⟨a, b, hq, _, rfl, rfl⟩ := h
    simp [closeQuote_append hq]
  split at h
  · simp only [Option.some.injEq, Prod.mk.injEq] at h
    obtain ⟨_, rfl, rfl⟩ := h
    simp [List.takeWhile_append_dropWhile]
  split at h
  · simp only [Option.some.injEq, Prod.mk.injEq] at h
    obtain ⟨_, rfl, rfl⟩ := h
    simp [List.takeWhile_append_dropWhile]
  split at h
  · simp only [Option.some.injEq, Prod.mk.injEq] at h
    obtain ⟨_, rfl, rfl⟩ := h
    rfl
  split at h
  · split at h <;> (simp only [Option.some.injEq, Prod.mk.injEq] at h; obtain ⟨_, rfl, rfl⟩ := h; rfl)
  · simp only [Option.some.injEq, Prod.mk.injEq] at h
    obtain ⟨_, rfl, rfl⟩ := h
    rfl

theorem lexeme_ne_nil {c : Char} {rest text after : List Char} {k : Kind}
    (h : lexeme c rest = some (k, text, after)) : text ≠ [] := by
  unfold lexeme at h
  repeat' split at h
  all_goals first
    | (simp only [Option.some.injEq, Prod.mk.injEq] at h; obtain ⟨_, rfl, _⟩ := h; simp)
    | (simp only [Option.map_eq_some_iff, Prod.exists, Prod.mk.injEq] at h
       obtain ⟨_, _, _, _, rfl, _⟩ := h
       simp)

theorem length_lexeme_lt {c : Char} {rest text after : List Char} {k : Kind}
    (h : lexeme c rest = some (k, text, after)) : after.length ≤ rest.length := by
  have h1 := congrArg List.length (lexeme_append h)
  have h2 := List.length_pos_iff.mpr (lexeme_ne_nil h)
  simp only [List.length_append, List.length_cons] at h1
  omega

/-- The tokens of a text that starts at offset `start`; the offset of a quote that is not closed. -/
def lexFrom (start : Nat) (cs : List Char) : Except Nat (List Token) :=
  match _cut : cs.dropWhile Text.isBlank with
  | [] => .ok []
  | c :: rest =>
    let gap := cs.takeWhile Text.isBlank
    let here := start + Text.width gap
    match _token : lexeme c rest with
    | none => .error here
    | some (kind, text, after) =>
      match lexFrom (here + Text.width text) after with
      | .ok tokens => .ok (⟨kind, gap, here, text⟩ :: tokens)
      | .error offset => .error offset
termination_by cs.length
decreasing_by
  have h1 := length_lexeme_lt _token
  have h2 := (List.dropWhile_sublist Text.isBlank (l := cs)).length_le
  simp only [_cut, List.length_cons] at h2
  omega

/-- The tokens of a script. -/
def lex (code : List Char) : Except Failure (List Token) :=
  (lexFrom 0 code).mapError fun offset => ⟨"Unterminated string literal", some offset⟩

end SqfIndex.Script
