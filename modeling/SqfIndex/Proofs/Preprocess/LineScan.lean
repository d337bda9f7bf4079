import Mathlib.Data.List.Infix
import SqfIndex.Proofs.Preprocess.Refusals
import SqfIndex.Proofs.Preprocess.Substitution
import SqfIndex.Proofs.Script.Lossless

/-!
# The scan of a line

How a line of code is gone through to expand macros. Text that is `Quiet` is passed over, and so is a string, up to the quote
that closes it or to the end of the line.
-/

namespace SqfIndex

open Text (width isBlank)
open Script (isQuote isWordStart isWordChar isIdentifier words closeQuote)

/-! ## Words -/

namespace Script

theorem cut_append_of_mem {p : Char → Bool} {as bs : List Char} (h : as.dropWhile p ≠ [] ∨ ∀ c, bs.head? = some c → p c = false) :
    (as ++ bs).takeWhile p = as.takeWhile p ∧ (as ++ bs).dropWhile p = as.dropWhile p ++ bs := by
  induction as with
  | nil => exact cut_append [] (h.resolve_left (by simp))
  | cons a as ih =>
      cases ha : p a with
      | false => simp [ha]
      | true =>
          rw [List.dropWhile_cons_of_pos ha] at h
          simp [ha, ih h]

/-- Texts can be split apart where no word was begun. -/
theorem words_append_of_last {as : List Char} (h : ∀ c, as.getLast? = some c → isWordChar c = false) (bs : List Char) :
    words (as ++ bs) = words as ++ words bs := by
  fun_induction words as with
  | case1 => rfl
  | case2 c rest hc ih =>
      have hne : rest.dropWhile isWordChar ≠ [] := by
        intro hnil
        have hall := List.dropWhile_eq_nil_iff.mp hnil
        have hword : ∀ d ∈ c :: rest, isWordChar d = true :=
          List.forall_mem_cons.mpr ⟨isWordChar_of_isWordStart hc, hall⟩
        have hlast := h _ (List.getLast?_eq_getLast_of_ne_nil (List.cons_ne_nil c rest))
        rw [hword _ (List.getLast_mem _)] at hlast
        cases hlast
      obtain ⟨htake, hdrop⟩ := @cut_append_of_mem isWordChar rest bs (Or.inl hne)
      have hrest : ∀ d, (rest.dropWhile isWordChar).getLast? = some d → isWordChar d = false := by
        intro d hd
        refine h d ?_
        rw [← List.takeWhile_append_dropWhile (p := isWordChar) (l := rest), ← List.cons_append, List.getLast?_append, hd]
        rfl
      rw [List.cons_append, words_of_start hc, htake, hdrop, ih hrest, List.cons_append]
  | case3 c rest hc ih =>
      have hrest : ∀ d, rest.getLast? = some d → isWordChar d = false := by
        intro d hd
        refine h d ?_
        rw [List.getLast?_cons, hd]
        rfl
      rw [List.cons_append, words_of_other (by simpa using hc), ih hrest, List.cons_append]

end Script

namespace Preprocess

/-! ## Invocations on a line -/

/-- A macro of this name is in force. -/
abbrev Macros.Named (ms : Macros) (name : List Char) : Prop := (ms.find? name).isSome = true

/-- The invocations among fragments that begin at `offset`, each with its place. -/
def invoked : Nat → List Fragment → List (Nat × List Char)
  | _, [] => []
  | offset, .plain text :: fs => invoked (offset + width text) fs
  | offset, .invocation _ written _ :: fs => (offset, written) :: invoked (offset + width written) fs

variable {ms : Macros}

theorem invoked_plain (offset : Nat) (text : List Char) (fs : List Fragment) :
    invoked offset (.plain text :: fs) = invoked (offset + width text) fs := rfl

theorem fragments_of_other {c : Char} {rest : List Char} (hquote : isQuote c = false)
    (hslash : ¬(c = '/' ∧ rest.head? = some '/')) (hword : isWordStart c = false) :
    fragments ms (c :: rest) = .plain [c] :: fragments ms rest := by
  rw [fragments]
  simp [hquote, hslash, hword]

theorem isQuote_of_isWordStart {c : Char} (h : isWordStart c = true) : isQuote c = false := by
  cases hquote : isQuote c with
  | false => rfl
  | true =>
      have hword := Script.isWordChar_of_isWordStart h
      rw [Script.isWordChar_eq_false_of_isQuote hquote] at hword
      cases hword

theorem ne_slash_of_isWordStart {c : Char} (h : isWordStart c = true) : c ≠ '/' := by
  rintro rfl
  exact absurd h (by decide)

theorem fragments_of_unknown {c : Char} {rest : List Char} (hword : isWordStart c = true)
    (hnone : ms.find? (c :: rest.takeWhile isWordChar) = none) :
    fragments ms (c :: rest) = .plain (c :: rest.takeWhile isWordChar) :: fragments ms (rest.dropWhile isWordChar) := by
  rw [fragments, if_neg (by simp [isQuote_of_isWordStart hword]), if_neg (fun h => ne_slash_of_isWordStart hword h.1),
    if_pos hword]
  simp only
  split
  · next h => simp [hnone] at h
  · rfl

theorem fragments_of_known {c : Char} {rest : List Char} {m : Macro} (hword : isWordStart c = true)
    (hfind : ms.find? (c :: rest.takeWhile isWordChar) = some m) (hparams : m.params = none) :
    fragments ms (c :: rest) = .invocation m m.name m.body :: fragments ms (rest.dropWhile isWordChar) := by
  have hinvoke (after : List Char) : m.invoke? after = some ⟨m.body, m.name, after⟩ := by
    rw [Macro.invoke?, hparams]
  rw [fragments, if_neg (by simp [isQuote_of_isWordStart hword]), if_neg (fun h => ne_slash_of_isWordStart hword h.1),
    if_pos hword]
  simp only
  split
  · next h =>
    simp only [hfind, Option.bind_some, hinvoke, Option.map_some, Option.some.injEq, Prod.mk.injEq] at h
    obtain ⟨rfl, rfl⟩ := h
    rfl
  · next h => simp [hfind, hinvoke] at h

theorem fragments_of_open {q : Char} {rest : List Char} (hquote : isQuote q = true) (hopen : q ∉ rest) :
    fragments ms (q :: rest) = [.plain (q :: rest)] := by
  have hdrop : rest.dropWhile (· != q) = [] := by
    rw [List.dropWhile_eq_nil_iff]
    intro c hc
    simpa using fun he : c = q => hopen (he ▸ hc)
  rw [fragments, if_pos hquote]
  split
  · rfl
  · next h => rw [hdrop] at h; cases h

theorem fragments_of_closed {q : Char} {pre after : List Char} (hquote : isQuote q = true) (hpre : q ∉ pre) :
    fragments ms (q :: (pre ++ q :: after)) = .plain (q :: pre ++ [q]) :: fragments ms after := by
  have hpre' : ∀ c ∈ pre, (c != q) = true := fun c hc => by simpa using fun he : c = q => hpre (he ▸ hc)
  have htake : (pre ++ q :: after).takeWhile (· != q) = pre := by
    rw [List.takeWhile_append_of_pos hpre', List.takeWhile_cons_of_neg (by simp), List.append_nil]
  have hdrop : (pre ++ q :: after).dropWhile (· != q) = q :: after := by
    rw [List.dropWhile_append_of_pos hpre', List.dropWhile_cons_of_neg (by simp)]
  rw [fragments, if_pos hquote]
  split
  · next h => rw [hdrop] at h; cases h
  · next h =>
    rw [hdrop] at h
    cases h
    rw [htake]

theorem fragments_of_remark {rest : List Char} (h : rest.head? = some '/') :
    fragments ms ('/' :: rest) = [.plain ('/' :: rest)] := by
  rw [fragments, if_neg (by decide), if_pos ⟨rfl, h⟩]

/-! ## Text without a name -/

/-- Text that is gone through without coming upon a name in force. -/
structure Quiet (ms : Macros) (s rest : List Char) : Prop where
  quotes : ∀ c ∈ s, isQuote c = false
  slashes : ¬['/', '/'] <:+: s ++ rest.take 1
  names : ∀ w ∈ words s, isIdentifier w = true → ms.find? w = none
  ends : (∀ c ∈ s, isWordStart c = false) ∨ (∀ c, s.getLast? = some c → isWordChar c = false) ∨
    ∀ c, rest.head? = some c → isWordChar c = false

theorem mem_of_infix_take {s rest : List Char} (h : ['/', '/'] <:+: s ++ rest.take 1) : '/' ∈ s := by
  obtain ⟨before, after, h⟩ := h
  rw [List.append_assoc, List.cons_append, List.singleton_append] at h
  rcases split_append h.symm with ⟨mid, rfl⟩ | ⟨mid, -, hrest⟩
  · simp
  · have hlength := congrArg List.length hrest
    simp only [List.length_take, List.length_append, List.length_cons] at hlength
    omega

theorem notIdentifier_of_mem_words {s w : List Char} (h : ∀ c ∈ s, isWordStart c = false) (hw : w ∈ words s) :
    isIdentifier w = false := by
  rcases Script.mem_words_cases hw with hword | ⟨c, rfl, hc⟩
  · cases w with
    | nil => cases hword
    | cons c w =>
        have hmem : c ∈ s := by
          rw [← Script.flatten_words s]
          exact List.mem_flatten_of_mem hw List.mem_cons_self
        simp [isIdentifier, h c hmem]
  · simp [isIdentifier, hc]

/-- Blanks and most marks are quiet, whatever follows. -/
theorem quiet_of_forall {s : List Char} (h : ∀ c ∈ s, isQuote c = false ∧ isWordStart c = false ∧ c ≠ '/') (rest : List Char) :
    Quiet ms s rest where
  quotes := fun c hc => (h c hc).1
  slashes := fun hdouble => (h _ (mem_of_infix_take hdouble)).2.2 rfl
  names := by
    intro w hw hword
    rw [notIdentifier_of_mem_words (fun c hc => (h c hc).2.1) hw] at hword
    cases hword
  ends := Or.inl fun c hc => (h c hc).2.1

theorem Quiet.tail {a s rest : List Char} (h : Quiet ms (a ++ s) rest) (hwords : words s ⊆ words (a ++ s)) :
    Quiet ms s rest where
  quotes := fun c hc => h.quotes c (List.mem_append_right a hc)
  slashes := by
    intro hdouble
    refine h.slashes (hdouble.trans ?_)
    rw [List.append_assoc]
    exact (List.suffix_append a _).isInfix
  names := fun w hw => h.names w (hwords hw)
  ends := by
    refine h.ends.imp (fun hstart c hc => hstart c (List.mem_append_right a hc)) (Or.imp_left fun hlast c hc => hlast c ?_)
    rw [List.getLast?_append, hc]
    rfl

theorem Quiet.invoked_append {s rest : List Char} (h : Quiet ms s rest) (offset : Nat) :
    invoked offset (fragments ms (s ++ rest)) = invoked (offset + width s) (fragments ms rest) := by
  fun_induction words s generalizing offset with
  | case1 => rfl
  | case2 c s hc ih =>
      have hcut : (s ++ rest).takeWhile isWordChar = s.takeWhile isWordChar ∧
          (s ++ rest).dropWhile isWordChar = s.dropWhile isWordChar ++ rest := by
        refine Script.cut_append_of_mem (Decidable.or_iff_not_imp_left.mpr fun hnil => ?_)
        -- the text ends in a word, so that what follows it does not go on with one
        have hall := List.dropWhile_eq_nil_iff.mp (not_not.mp hnil)
        refine (h.ends.resolve_left fun hstart => ?_).resolve_left fun hlast => ?_
        · rw [hstart c List.mem_cons_self] at hc
          cases hc
        have hword : ∀ d ∈ c :: s, isWordChar d = true :=
          List.forall_mem_cons.mpr ⟨Script.isWordChar_of_isWordStart hc, hall⟩
        have hd := List.getLast?_eq_getLast_of_ne_nil (List.cons_ne_nil c s)
        have := hlast _ hd
        rw [hword _ (List.getLast_mem _)] at this
        cases this
      have hsplit : c :: s = (c :: s.takeWhile isWordChar) ++ s.dropWhile isWordChar := by simp
      have hwords : words (c :: s) = (c :: s.takeWhile isWordChar) :: words (s.dropWhile isWordChar) := Script.words_of_start hc s
      have hnone := h.names (c :: s.takeWhile isWordChar) (hwords ▸ List.mem_cons_self) (by simp [isIdentifier, hc])
      have hrest : Quiet ms (s.dropWhile isWordChar) rest := by
        rw [hsplit] at h
        refine h.tail ?_
        rw [← hsplit, hwords]
        exact List.subset_cons_self _ _
      rw [List.cons_append, fragments_of_unknown hc (by rw [hcut.1]; exact hnone), hcut.1, hcut.2, invoked_plain, ih hrest]
      congr 1
      have hwidth := congrArg width hsplit
      rw [Text.width_append] at hwidth
      omega
  | case3 c s hc ih =>
      have hc : isWordStart c = false := by simpa using hc
      have hslash : ¬(c = '/' ∧ (s ++ rest).head? = some '/') := by
        rintro ⟨rfl, hhead⟩
        refine h.slashes ?_
        cases s with
        | cons d s =>
            cases hhead
            exact ⟨[], s ++ rest.take 1, rfl⟩
        | nil =>
            cases rest with
            | nil => cases hhead
            | cons d rest =>
                cases hhead
                exact List.infix_refl _
      have hrest : Quiet ms s rest := by
        refine @Quiet.tail ms [c] s rest h ?_
        rw [List.singleton_append, Script.words_of_other hc]
        exact List.subset_cons_self _ _
      rw [List.cons_append, fragments_of_other (h.quotes c List.mem_cons_self) hslash hc, invoked_plain, ih hrest]
      congr 1
      simp [Nat.add_assoc]

theorem quiet_of_blank {s : List Char} (h : ∀ c ∈ s, isBlank c = true) (rest : List Char) : Quiet ms s rest := by
  refine quiet_of_forall (fun c hc => ?_) rest
  have hblank := h c hc
  simp only [isBlank, Bool.or_eq_true, beq_iff_eq] at hblank
  rcases hblank with (((rfl | rfl) | rfl) | rfl) | rfl <;> decide

theorem invoked_of_quiet {s : List Char} (h : Quiet ms s []) (offset : Nat) : invoked offset (fragments ms s) = [] := by
  have happend := h.invoked_append offset
  rwa [List.append_nil, show fragments ms [] = [] by rw [fragments]] at happend

/-! ## Strings -/

/-- A string is gone through up to the quote that closes it; quotes that are doubled close a string and open one. -/
theorem invoked_string {q : Char} (hquote : isQuote q = true) {cs a b : List Char} (hclose : closeQuote q cs = some (a, b))
    {pre : List Char} (hpre : q ∉ pre) (offset : Nat) :
    invoked offset (fragments ms (q :: (pre ++ cs))) = invoked (offset + width (q :: (pre ++ a))) (fragments ms b) := by
  fun_induction closeQuote q cs generalizing pre a b offset with
  | case1 => cases hclose
  | case2 =>
      cases hclose
      rw [fragments_of_closed hquote hpre, invoked_plain]
      rfl
  | case3 more ih =>
      obtain ⟨⟨a', b'⟩, hclose, hparts⟩ := Option.map_eq_some_iff.mp hclose
      cases hparts
      rw [fragments_of_closed hquote hpre, invoked_plain]
      have h := @ih _ _ hclose [] List.not_mem_nil (offset + width (q :: pre ++ [q]))
      rw [List.nil_append] at h
      rw [h]
      congr 1
      simp [Nat.add_assoc]
  | case4 d more hd =>
      cases hclose
      rw [fragments_of_closed hquote hpre, invoked_plain]
      rfl
  | case5 c rest hc ih =>
      obtain ⟨⟨a', b'⟩, hclose, hparts⟩ := Option.map_eq_some_iff.mp hclose
      cases hparts
      have h := @ih _ _ hclose (pre ++ [c]) (by simp [hpre, Ne.symm hc]) offset
      simpa using h

/-- A string that goes on after the line is gone through up to the end of the line. -/
theorem invoked_openString {q : Char} (hquote : isQuote q = true) {l post a b : List Char}
    (hclose : closeQuote q (l ++ post) = some (a, b)) (hfront : l <+: a) {pre : List Char} (hpre : q ∉ pre) (offset : Nat) :
    invoked offset (fragments ms (q :: (pre ++ l))) = [] := by
  fun_induction closeQuote q l generalizing pre a b offset with
  | case1 =>
      rw [List.append_nil, fragments_of_open hquote hpre]
      rfl
  | case2 =>
      rw [fragments_of_closed hquote hpre, invoked_plain, fragments]
      rfl
  | case3 more ih =>
      rw [List.cons_append, List.cons_append, Script.closeQuote_doubled] at hclose
      obtain ⟨⟨a', b'⟩, hclose, hparts⟩ := Option.map_eq_some_iff.mp hclose
      cases hparts
      rw [fragments_of_closed hquote hpre, invoked_plain]
      have hfront' : more <+: a' := by simpa using hfront
      exact @ih _ _ hclose hfront' [] List.not_mem_nil _
  | case4 d more hd =>
      rw [List.cons_append, Script.closeQuote_closed (by simpa using hd)] at hclose
      cases hclose
      simp at hfront
  | case5 c rest hc ih =>
      rw [List.cons_append, Script.closeQuote_other hc] at hclose
      obtain ⟨⟨a', b'⟩, hclose, hparts⟩ := Option.map_eq_some_iff.mp hclose
      cases hparts
      have h := @ih _ _ hclose (by simpa using hfront) (pre ++ [c]) (by simp [hpre, Ne.symm hc]) offset
      simpa using h

theorem closeQuote_within {q : Char} {l post a b after : List Char} (h : closeQuote q (l ++ post) = some (a, b))
    (hl : l = a ++ after) : closeQuote q l = some (a, after) := by
  fun_induction closeQuote q l generalizing a b with
  | case1 => exact absurd (List.append_eq_nil_iff.mp hl.symm).1 (Script.closeQuote_ne_nil h)
  | case2 =>
      obtain ⟨c, a, rfl⟩ := List.exists_cons_of_ne_nil (Script.closeQuote_ne_nil h)
      rw [List.cons_append, List.cons.injEq] at hl
      obtain ⟨rfl, hnil⟩ := hl
      obtain ⟨rfl, rfl⟩ := List.append_eq_nil_iff.mp hnil.symm
      rfl
  | case3 more ih =>
      rw [List.cons_append, List.cons_append, Script.closeQuote_doubled] at h
      obtain ⟨⟨a', b'⟩, h, hparts⟩ := Option.map_eq_some_iff.mp h
      cases hparts
      rw [ih h (by simpa using hl), Option.map_some]
  | case4 d more hd =>
      rw [List.cons_append, Script.closeQuote_closed (by simpa using hd)] at h
      cases h
      rw [List.singleton_append, List.cons.injEq] at hl
      rw [hl.2]
  | case5 c rest hc ih =>
      rw [List.cons_append, Script.closeQuote_other hc] at h
      obtain ⟨⟨a', b'⟩, h, hparts⟩ := Option.map_eq_some_iff.mp h
      cases hparts
      rw [ih h (by simpa using hl), Option.map_some]

end Preprocess

end SqfIndex
