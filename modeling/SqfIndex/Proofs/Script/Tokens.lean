import SqfIndex.Script.Lexer

/-!
# Tokens in the code

Every token stands in the code where it says, and an identifier goes as far as it can: `inText_of_mem_lex`.
-/

namespace SqfIndex.Script

open Text (width)

/-! ## Words -/

theorem isWordChar_of_isWordStart {c : Char} (h : isWordStart c = true) : isWordChar c = true := by
  simp only [isWordStart, isWordChar, Char.isAlphanum, Bool.or_eq_true] at h ⊢
  rcases h with h | h
  · exact Or.inl (Or.inl h)
  · exact Or.inr h

theorem isWordChar_of_mem {w : List Char} (h : isIdentifier w = true) {c : Char} (hc : c ∈ w) :
    isWordChar c = true := by
  cases w with
  | nil => cases hc
  | cons d w =>
      simp only [isIdentifier, Bool.and_eq_true, List.all_eq_true] at h
      rcases List.mem_cons.mp hc with rfl | hc
      · exact isWordChar_of_isWordStart h.1
      · exact h.2 c hc

theorem isWordChar_eq_false_of_isQuote {c : Char} (h : isQuote c = true) : isWordChar c = false := by
  simp only [isQuote, Bool.or_eq_true, beq_iff_eq] at h
  rcases h with rfl | rfl <;> decide

theorem isWordChar_head?_dropWhile {cs : List Char} {c : Char} (h : (cs.dropWhile isWordChar).head? = some c) :
    isWordChar c = false := by
  have hnot := List.head?_dropWhile_not isWordChar cs
  rw [h] at hnot
  exact hnot

theorem isIdentifier_of_append {as bs : List Char} (h : isIdentifier (as ++ bs) = true) (hne : as ≠ []) :
    isIdentifier as = true := by
  cases as with
  | nil => exact absurd rfl hne
  | cons a as =>
      simp only [List.cons_append, isIdentifier, List.all_append, Bool.and_eq_true] at h ⊢
      exact ⟨h.1, h.2.1⟩

/-! ## Tokens -/

/-- A token stands in `code`, which begins at offset `start`; an identifier is not cut short. -/
def Token.InText (t : Token) (start : Nat) (code : List Char) : Prop :=
  ∃ before after, code = before ++ t.text ++ after ∧ t.start = start + width before ∧
    (t.kind = .identifier → isIdentifier t.text = true ∧ ∀ c, after.head? = some c → isWordChar c = false)

theorem Token.InText.of_append {t : Token} {start : Nat} {code : List Char} (before : List Char)
    (h : t.InText (start + width before) code) : t.InText start (before ++ code) := by
  obtain ⟨before', after, rfl, hstart, hword⟩ := h
  exact ⟨before ++ before', after, by simp, by simp [hstart, Nat.add_assoc], hword⟩

theorem lexeme_identifier {c : Char} {rest text after : List Char}
    (h : lexeme c rest = some (.identifier, text, after)) :
    isWordStart c = true ∧ text = c :: rest.takeWhile isWordChar ∧ after = rest.dropWhile isWordChar := by
  unfold lexeme at h
  split at h
  · cases h
  split at h
  · cases h
  split at h
  · simp at h
  split at h
  · cases h
  split at h
  · next hc => cases h; exact ⟨hc, rfl, rfl⟩
  split at h
  · cases h
  split at h
  · split at h <;> cases h
  · cases h

theorem lexeme_inText {c : Char} {rest text after : List Char} {k : Kind} (gap : List Char) (start : Nat)
    (h : lexeme c rest = some (k, text, after)) :
    (Token.mk k gap start text).InText start (c :: rest) := by
  refine ⟨[], after, (lexeme_append h).symm, by simp, ?_⟩
  rintro rfl
  obtain ⟨hc, rfl, rfl⟩ := lexeme_identifier h
  constructor
  · simp only [isIdentifier, hc, List.all_takeWhile, Bool.and_self]
  · intro d hd
    exact isWordChar_head?_dropWhile hd

theorem inText_of_mem_lexFrom {start : Nat} {cs : List Char} {tokens : List Token} (h : lexFrom start cs = .ok tokens)
    {t : Token} (ht : t ∈ tokens) : t.InText start cs := by
  fun_induction lexFrom start cs generalizing tokens with
  | case1 => cases h; cases ht
  | case2 => cases h
  | case3 start cs c rest hcut gap here k word after htoken tokens' hrest =>
      rename_i ih
      cases h
      have hcs : cs = gap ++ (c :: rest) := by rw [← hcut, List.takeWhile_append_dropWhile]
      rw [hcs]
      refine .of_append gap ?_
      rcases List.mem_cons.mp ht with rfl | ht
      · exact lexeme_inText gap _ htoken
      · rw [← lexeme_append htoken]
        exact .of_append word (ih hrest ht)
  | case4 => cases h

theorem lex_eq_ok_iff {code : List Char} {tokens : List Token} :
    lex code = .ok tokens ↔ lexFrom 0 code = .ok tokens := by
  unfold lex
  cases lexFrom 0 code with
  | ok tokens' =>
      constructor
      · intro h
        cases h
        rfl
      · intro h
        cases h
        rfl
  | error offset =>
      constructor
      · intro h
        cases h
      · intro h
        cases h

/-- Every token of a script stands in it, at the offset it says. -/
theorem inText_of_mem_lex {code : List Char} {tokens : List Token} (h : lex code = .ok tokens) {t : Token}
    (ht : t ∈ tokens) : t.InText 0 code :=
  inText_of_mem_lexFrom (lex_eq_ok_iff.mp h) ht

theorem lexeme_of_mem_lexFrom {start : Nat} {cs : List Char} {tokens : List Token} (h : lexFrom start cs = .ok tokens)
    {t : Token} (ht : t ∈ tokens) : ∃ c rest after, lexeme c rest = some (t.kind, t.text, after) := by
  fun_induction lexFrom start cs generalizing tokens with
  | case1 => cases h; cases ht
  | case2 => cases h
  | case3 start cs c rest hcut gap here k word after htoken tokens' hrest =>
      rename_i ih
      cases h
      rcases List.mem_cons.mp ht with rfl | ht
      · exact ⟨c, rest, after, htoken⟩
      · exact ih hrest ht
  | case4 => cases h

end SqfIndex.Script
