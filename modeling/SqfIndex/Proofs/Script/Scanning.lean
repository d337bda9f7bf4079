import Mathlib.Data.List.TakeWhile
import SqfIndex.Script.Lexer

/-!
# Scanning a script

Reading a script takes one token after the other off its front, each with the blanks before it, until only blanks
are left or a quote that is never closed: `scans_of_ok`, `openQuoteAt_of_error`. A scan that has got somewhere goes
on from there: `lexFrom_of_scans`.
-/

namespace SqfIndex.Script

open Text (width isBlank)

/-! ## Open quotes -/

/-- No `q` closes what was opened by `q` before this text: each one in it is doubled. -/
inductive Unclosed (q : Char) : List Char → Prop
  | nil : Unclosed q []
  | other {c : Char} {cs : List Char} (hc : c ≠ q) (h : Unclosed q cs) : Unclosed q (c :: cs)
  | doubled {cs : List Char} (h : Unclosed q cs) : Unclosed q (q :: q :: cs)

theorem unclosed_of_closeQuote {q : Char} {cs : List Char} (h : closeQuote q cs = none) : Unclosed q cs := by
  fun_induction closeQuote q cs with
  | case1 => exact .nil
  | case2 => cases h
  | case3 more ih => exact .doubled (ih (Option.map_eq_none_iff.mp h))
  | case4 => cases h
  | case5 c rest hc ih => exact .other hc (ih (Option.map_eq_none_iff.mp h))

theorem closeQuote_other {q c : Char} (hc : c ≠ q) (rest : List Char) :
    closeQuote q (c :: rest) = (closeQuote q rest).map fun (a, b) => (c :: a, b) := by
  rw [closeQuote.eq_def]
  exact if_neg hc

theorem closeQuote_doubled (q : Char) (rest : List Char) :
    closeQuote q (q :: q :: rest) = (closeQuote q rest).map fun (a, b) => (q :: q :: a, b) := by
  rw [closeQuote.eq_def]
  simp only [↓reduceIte]

theorem closeQuote_closed {q : Char} {rest : List Char} (h : rest.head? ≠ some q) :
    closeQuote q (q :: rest) = some ([q], rest) := by
  unfold closeQuote
  cases rest with
  | nil => simp only [↓reduceIte]
  | cons d rest => simp only [↓reduceIte, show d ≠ q from fun hd => h (congrArg some hd)]

theorem Unclosed.closeQuote_eq {q : Char} {cs : List Char} (h : Unclosed q cs) : closeQuote q cs = none := by
  induction h with
  | nil => rfl
  | other hc _ ih => rw [closeQuote_other hc, ih, Option.map_none]
  | doubled _ ih => rw [closeQuote_doubled, ih, Option.map_none]

theorem ne_slash_of_isQuote {c : Char} (h : isQuote c = true) : c ≠ '/' := by
  rintro rfl
  exact absurd h (by decide)

theorem lexeme_of_isQuote {c : Char} (h : isQuote c = true) (rest : List Char) :
    lexeme c rest = (closeQuote c rest).map fun (a, b) => (.text, c :: a, b) := by
  simp only [lexeme, ne_slash_of_isQuote h, h, false_and, ↓reduceIte]

/-- Only a quote that is not closed begins no token. -/
theorem lexeme_eq_none_iff {c : Char} {rest : List Char} :
    lexeme c rest = none ↔ isQuote c = true ∧ Unclosed c rest := by
  constructor
  · intro h
    cases hquote : isQuote c with
    | false =>
        unfold lexeme at h
        simp only [hquote, Bool.false_eq_true, ↓reduceIte] at h
        repeat' split at h
        all_goals cases h
    | true =>
        rw [lexeme_of_isQuote hquote] at h
        exact ⟨rfl, unclosed_of_closeQuote (Option.map_eq_none_iff.mp h)⟩
  · rintro ⟨hquote, hopen⟩
    rw [lexeme_of_isQuote hquote, hopen.closeQuote_eq, Option.map_none]

/-! ## Scans -/

/-- From `start` on, a scan of a text takes these tokens off its front; then it stands at `here` and has `left` before
it. -/
inductive Scans : Nat → List Char → List Token → Nat → List Char → Prop
  | stay (start : Nat) (cs : List Char) : Scans start cs [] start cs
  | token {start here : Nat} {gap rest text after left : List Char} {c : Char} {kind : Kind} {tokens : List Token}
      (hgap : ∀ d ∈ gap, isBlank d = true) (hc : isBlank c = false) (hlexeme : lexeme c rest = some (kind, text, after))
      (hrest : Scans (start + width gap + width text) after tokens here left) :
      Scans start (gap ++ c :: rest) (⟨kind, gap, start + width gap, text⟩ :: tokens) here left

theorem cut_blanks {gap : List Char} (hgap : ∀ d ∈ gap, isBlank d = true) {c : Char} (hc : isBlank c = false)
    (rest : List Char) :
    (gap ++ c :: rest).takeWhile isBlank = gap ∧ (gap ++ c :: rest).dropWhile isBlank = c :: rest := by
  rw [List.takeWhile_append_of_pos hgap, List.dropWhile_append_of_pos hgap, List.takeWhile_cons_of_neg (by simp [hc]),
    List.dropWhile_cons_of_neg (by simp [hc]), List.append_nil]
  exact ⟨rfl, rfl⟩

theorem blank_takeWhile (cs : List Char) : ∀ d ∈ cs.takeWhile isBlank, isBlank d = true :=
  fun _ hd => List.mem_takeWhile_imp hd

theorem blank_of_dropWhile {cs : List Char} (h : cs.dropWhile isBlank = []) : ∀ d ∈ cs, isBlank d = true :=
  List.dropWhile_eq_nil_iff.mp h

theorem not_blank_of_dropWhile {cs rest : List Char} {c : Char} (h : cs.dropWhile isBlank = c :: rest) :
    isBlank c = false := by
  have hnot := List.head?_dropWhile_not isBlank cs
  rw [h] at hnot
  exact hnot

theorem lexFrom_of_blank (start : Nat) {cs : List Char} (h : ∀ d ∈ cs, isBlank d = true) : lexFrom start cs = .ok [] := by
  have hcut : cs.dropWhile isBlank = [] := List.dropWhile_eq_nil_iff.mpr h
  rw [lexFrom]
  split
  · rfl
  · next hcons => rw [hcut] at hcons; cases hcons

theorem lexFrom_of_lexeme_none (start : Nat) {gap rest : List Char} {c : Char} (hgap : ∀ d ∈ gap, isBlank d = true)
    (hc : isBlank c = false) (h : lexeme c rest = none) :
    lexFrom start (gap ++ c :: rest) = .error (start + width gap) := by
  obtain ⟨htake, hdrop⟩ := cut_blanks hgap hc rest
  rw [lexFrom]
  split
  · next hnil => rw [hdrop] at hnil; cases hnil
  · next hcons =>
    rw [hdrop] at hcons
    cases hcons
    split
    · rw [htake]
    · next hsome => rw [h] at hsome; cases hsome

theorem lexFrom_of_lexeme_some (start : Nat) {gap rest text after : List Char} {c : Char} {kind : Kind}
    (hgap : ∀ d ∈ gap, isBlank d = true) (hc : isBlank c = false) (h : lexeme c rest = some (kind, text, after)) :
    lexFrom start (gap ++ c :: rest) =
      (lexFrom (start + width gap + width text) after).map (⟨kind, gap, start + width gap, text⟩ :: ·) := by
  obtain ⟨htake, hdrop⟩ := cut_blanks hgap hc rest
  rw [lexFrom]
  split
  · next hnil => rw [hdrop] at hnil; cases hnil
  · next hcons =>
    rw [hdrop] at hcons
    cases hcons
    split
    · next hnone => rw [h] at hnone; cases hnone
    · next hsome =>
      rw [h] at hsome
      cases hsome
      simp only [htake]
      cases lexFrom (start + width gap + width text) after <;> rfl

/-- A scan that has got somewhere goes on from there. -/
theorem lexFrom_of_scans {start here : Nat} {cs left : List Char} {tokens : List Token}
    (h : Scans start cs tokens here left) : lexFrom start cs = (lexFrom here left).map (tokens ++ ·) := by
  induction h with
  | stay start cs => cases lexFrom start cs <;> rfl
  | @token start here gap rest text after left c kind tokens hgap hc hlexeme _ ih =>
      rw [lexFrom_of_lexeme_some start hgap hc hlexeme, ih]
      cases lexFrom here left <;> rfl

/-- The scan of a text comes to a quote at `offset` that is not closed. -/
def OpenQuoteAt (start : Nat) (cs : List Char) (offset : Nat) : Prop :=
  ∃ tokens here gap q rest, Scans start cs tokens here (gap ++ q :: rest) ∧ (∀ d ∈ gap, isBlank d = true) ∧
    isQuote q = true ∧ Unclosed q rest ∧ offset = here + width gap

theorem not_blank_of_isQuote {c : Char} (h : isQuote c = true) : isBlank c = false := by
  simp only [isQuote, Bool.or_eq_true, beq_iff_eq] at h
  rcases h with rfl | rfl <;> decide

theorem scans_of_ok {start : Nat} {cs : List Char} {tokens : List Token} (h : lexFrom start cs = .ok tokens) :
    ∃ here trailing, Scans start cs tokens here trailing ∧ ∀ d ∈ trailing, isBlank d = true := by
  fun_induction lexFrom start cs generalizing tokens with
  | case1 start cs hcut =>
      cases h
      exact ⟨start, cs, .stay start cs, blank_of_dropWhile hcut⟩
  | case2 => cases h
  | case3 start cs c rest hcut gap here k word after htoken tokens' hrest =>
      rename_i ih
      cases h
      have hcs : cs = gap ++ c :: rest := by rw [← hcut, List.takeWhile_append_dropWhile]
      obtain ⟨stop, trailing, hscans, htrailing⟩ := ih hrest
      refine ⟨stop, trailing, ?_, htrailing⟩
      rw [hcs]
      exact .token (blank_takeWhile cs) (not_blank_of_dropWhile hcut) htoken hscans
  | case4 => cases h

theorem openQuoteAt_of_error {start : Nat} {cs : List Char} {offset : Nat} (h : lexFrom start cs = .error offset) :
    OpenQuoteAt start cs offset := by
  fun_induction lexFrom start cs with
  | case1 => cases h
  | case2 start cs c rest hcut gap here hnone =>
      have hcs : cs = gap ++ c :: rest := by rw [← hcut, List.takeWhile_append_dropWhile]
      obtain ⟨hquote, hopen⟩ := lexeme_eq_none_iff.mp hnone
      exact ⟨[], start, gap, c, rest, hcs ▸ .stay start cs, blank_takeWhile cs, hquote, hopen, (Except.error.inj h).symm⟩
  | case3 => cases h
  | case4 start cs c rest hcut gap here k word after htoken offset' hrest =>
      rename_i ih
      cases h
      have hcs : cs = gap ++ c :: rest := by rw [← hcut, List.takeWhile_append_dropWhile]
      obtain ⟨tokens, stop, gap', q, rest', hscans, hfacts⟩ := ih hrest
      refine ⟨⟨k, gap, here, word⟩ :: tokens, stop, gap', q, rest', ?_, hfacts⟩
      rw [hcs]
      exact .token (blank_takeWhile cs) (not_blank_of_dropWhile hcut) htoken hscans

theorem lexFrom_eq_error_iff {start : Nat} {cs : List Char} {offset : Nat} :
    lexFrom start cs = .error offset ↔ OpenQuoteAt start cs offset := by
  constructor
  · exact openQuoteAt_of_error
  · rintro ⟨tokens, here, gap, q, rest, hscans, hgap, hquote, hopen, rfl⟩
    rw [lexFrom_of_scans hscans,
      lexFrom_of_lexeme_none here hgap (not_blank_of_isQuote hquote) (lexeme_eq_none_iff.mpr ⟨hquote, hopen⟩)]
    rfl

end SqfIndex.Script
