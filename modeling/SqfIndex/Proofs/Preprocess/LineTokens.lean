import SqfIndex.Proofs.Preprocess.LineScan

/-!
# Names on a line and tokens

Two scans decide what is a name: one that goes through a line of code to expand macros, and one that splits the whole
code into tokens. The first knows quotes and `//`, but not block comments and numbers, and it begins anew with each line.
On a line where none of this shows, which is `Clear`, it comes upon the identifiers among the tokens: `invoked_line`.
-/

namespace SqfIndex.Preprocess

open Text (width isBlank)
open Script (isQuote isWordStart isWordChar isIdentifier words lexeme closeQuote Kind Token Scans)

variable {ms : Macros}

/-! ## Kinds of tokens -/

/-- How a token comes from the front of `c :: rest`. -/
inductive Lexed (c : Char) (rest : List Char) : Kind → List Char → List Char → Prop
  | remark (hc : c = '/') (hrest : rest.head? = some '/') :
      Lexed c rest .comment (c :: rest.takeWhile (· != '\n')) (rest.dropWhile (· != '\n'))
  | block {text after : List Char} (hopens : ['/', '*'] <+: text)
      (hends : after = [] ∨ text.getLast? = some '/') : Lexed c rest .comment text after
  | string {a b : List Char} (hquote : isQuote c = true) (hclose : closeQuote c rest = some (a, b)) : Lexed c rest .text (c :: a) b
  | number (hc : c.isDigit = true ∨ c = '$') :
      Lexed c rest .number (c :: rest.takeWhile Script.isNumberChar) (rest.dropWhile Script.isNumberChar)
  | identifier (hc : isWordStart c = true) : Lexed c rest .identifier (c :: rest.takeWhile isWordChar) (rest.dropWhile isWordChar)
  | symbol {kind : Kind} {text after : List Char} (hkind : kind ≠ .identifier) (hquote : isQuote c = false)
      (hword : isWordStart c = false) (hslash : ¬(c = '/' ∧ rest.head? = some '/'))
      (htext : text = [c] ∧ after = rest ∨ ∃ d, text = [c, d] ∧ Script.isPair c d = true) : Lexed c rest kind text after

theorem getLast?_closeComment (cs : List Char) :
    (Script.closeComment cs).2 = [] ∨ (Script.closeComment cs).1.getLast? = some '/' := by
  fun_induction Script.closeComment cs with
  | case1 => exact Or.inr rfl
  | case2 c rest _ tail ih =>
      refine ih.imp_right fun hlast => ?_
      rw [List.getLast?_cons, hlast]
      rfl
  | case3 => exact Or.inl rfl

theorem lexed_of_lexeme {c : Char} {rest text after : List Char} {kind : Kind} (h : lexeme c rest = some (kind, text, after)) :
    Lexed c rest kind text after := by
  unfold lexeme at h
  split at h
  · next hslash =>
    cases h
    exact .remark hslash.1 hslash.2
  next hslash =>
  split at h
  · next hstar =>
    cases h
    obtain ⟨rfl, hstar⟩ := hstar
    refine .block ⟨_, rfl⟩ ((getLast?_closeComment _).imp_right fun hlast => ?_)
    rw [List.getLast?_cons, List.getLast?_cons, hlast]
    rfl
  split at h
  · next hquote =>
    obtain ⟨⟨a, b⟩, hclose, hparts⟩ := Option.map_eq_some_iff.mp h
    cases hparts
    exact .string hquote hclose
  next hquote =>
  split at h
  · next hnumber =>
    cases h
    exact .number (hnumber.imp_right And.left)
  split at h
  · next hword =>
    cases h
    exact .identifier hword
  next hword =>
  have hquote : isQuote c = false := by simpa using hquote
  have hword : isWordStart c = false := by simpa using hword
  split at h
  · cases h
    exact .symbol (by simp) hquote hword hslash (Or.inl ⟨rfl, rfl⟩)
  cases rest with
  | nil =>
      cases h
      exact .symbol (by simp) hquote hword hslash (Or.inl ⟨rfl, rfl⟩)
  | cons d more =>
      simp only at h
      split at h
      · next hpair =>
        cases h
        exact .symbol (by simp) hquote hword hslash (Or.inr ⟨d, rfl, hpair⟩)
      · cases h
        exact .symbol (by simp) hquote hword hslash (Or.inl ⟨rfl, rfl⟩)

/-! ## Tokens that mislead -/

/-- A token that the scan of a line takes for something else, if `after` follows it and some words are `named`: a block
comment with a quote, with `//` or with such a word in it, and a number with a letter in which such a word stands, or
which such a word follows. -/
def Misleading (named : List Char → Prop) (t : Token) (after : List Char) : Prop :=
  (t.kind = .comment ∧ ['/', '*'] <+: t.text ∧
    ((∃ c ∈ t.text, isQuote c = true) ∨ ['/', '/'] <:+: t.text ++ after.take 1 ∨ ∃ w ∈ words t.text, named w)) ∨
  (t.kind = .number ∧ (∃ c ∈ t.text, isWordStart c = true) ∧
    ∃ w, (w ∈ words (t.text ++ after.takeWhile isWordChar) ∨ w = after.takeWhile isWordChar) ∧ named w)

theorem not_misleading {named : List Char → Prop} {t : Token} {after : List Char}
    (hcomment : t.kind = .comment → ['/', '*'].isPrefixOf t.text = false)
    (hnumber : t.kind = .number → t.text.any isWordStart = false) : ¬Misleading named t after := by
  rintro (⟨hkind, hopens, -⟩ | ⟨hkind, hletter, -⟩)
  · rw [List.isPrefixOf_iff_prefix.mpr hopens] at hcomment
    exact absurd (hcomment hkind) (by decide)
  · rw [List.any_eq_true.mpr hletter] at hnumber
    exact absurd (hnumber hkind) (by decide)

/-- The identifiers among tokens that begin before `stop` and are names in force. -/
def identifiersBefore (ms : Macros) (stop : Nat) (tokens : List Token) : List (Nat × List Char) :=
  (tokens.filter fun t => t.kind = .identifier ∧ t.start < stop ∧ ms.Named t.text).map fun t => (t.start, t.text)

theorem mem_identifiersBefore {stop p : Nat} {name : List Char} {tokens : List Token} :
    (p, name) ∈ identifiersBefore ms stop tokens ↔
      ms.Named name ∧ p < stop ∧ ∃ t ∈ tokens, t.kind = .identifier ∧ t.start = p ∧ t.text = name := by
  simp only [identifiersBefore, List.mem_map, List.mem_filter, decide_eq_true_eq, Prod.mk.injEq]
  constructor
  · rintro ⟨t, ⟨ht, hkind, hstop, hnamed⟩, rfl, rfl⟩
    exact ⟨hnamed, hstop, t, ht, hkind, rfl, rfl⟩
  · rintro ⟨hnamed, hstop, t, ht, hkind, rfl, rfl⟩
    exact ⟨t, ⟨ht, hkind, hstop, hnamed⟩, rfl, rfl⟩

theorem identifiersBefore_of_le {stop : Nat} {tokens : List Token} (h : ∀ t ∈ tokens, stop ≤ t.start) :
    identifiersBefore ms stop tokens = [] := by
  rw [identifiersBefore, List.map_eq_nil_iff, List.filter_eq_nil_iff]
  intro t ht
  have := h t ht
  simp only [decide_eq_true_eq]
  omega

theorem identifiersBefore_cons {stop : Nat} {t : Token} (h : t.start < stop) (tokens : List Token) :
    identifiersBefore ms stop (t :: tokens) =
      (if t.kind = .identifier ∧ ms.Named t.text then [(t.start, t.text)] else []) ++ identifiersBefore ms stop tokens := by
  by_cases hname : t.kind = .identifier ∧ ms.Named t.text
  · rw [if_pos hname]
    simp [identifiersBefore, h, hname.1, hname.2]
  · rw [if_neg hname]
    simp only [identifiersBefore, List.filter_cons, h, true_and, hname, decide_false, Bool.false_eq_true, if_false, List.nil_append]

/-! ## One token -/

section

variable {c : Char} {rest text after : List Char} {kind : Kind}

theorem quiet_of_symbol (hquote : isQuote c = false) (hword : isWordStart c = false)
    (hslash : ¬(c = '/' ∧ after.head? = some '/')) : Quiet ms [c] after where
  quotes := by simpa using hquote
  slashes := by
    intro hdouble
    have hc : '/' = c := List.mem_singleton.mp (mem_of_infix_take hdouble)
    refine hslash ⟨hc.symm, ?_⟩
    cases after with
    | nil => simpa using hdouble.length_le
    | cons d after =>
        have heq := hdouble.eq_of_length rfl
        simp only [List.take_succ_cons, List.take_zero, List.singleton_append, List.cons.injEq, and_true] at heq
        rw [heq.2]
        rfl
  names := by
    intro w hw hidentifier
    rw [notIdentifier_of_mem_words (by simpa using hword) hw] at hidentifier
    cases hidentifier
  ends := Or.inl (by simpa using hword)

theorem quiet_of_pair {d : Char} (h : Script.isPair c d = true) (after : List Char) : Quiet ms [c, d] after := by
  refine quiet_of_forall ?_ after
  simp only [Script.isPair, List.contains_iff_mem, List.mem_cons, List.not_mem_nil, or_false, Prod.mk.injEq] at h
  rcases h with ⟨rfl, rfl⟩ | ⟨rfl, rfl⟩ | ⟨rfl, rfl⟩ | ⟨rfl, rfl⟩ | ⟨rfl, rfl⟩ | ⟨rfl, rfl⟩ | ⟨rfl, rfl⟩ <;>
    exact List.forall_mem_cons.mpr ⟨by decide, List.forall_mem_singleton.mpr (by decide)⟩

/-- A block comment before `after` that does not mislead. -/
structure ClearBlock (ms : Macros) (t : Token) (after : List Char) : Prop where
  kind : t.kind = .comment
  opens : ['/', '*'] <+: t.text
  ends : after = [] ∨ t.text.getLast? = some '/'
  clear : ¬Misleading ms.Named t after

/-- A part of a clear block comment is quiet, if it does not cut a word. -/
theorem ClearBlock.quiet {t : Token} {a part b rest : List Char} (h : ClearBlock ms t after) (htext : t.text = a ++ (part ++ b))
    (ha : ∀ c, a.getLast? = some c → isWordChar c = false) (hpart : b = [] ∨ ∀ c, part.getLast? = some c → isWordChar c = false)
    (hrest : rest = [] ∨ b = [] ∧ rest.take 1 <+: after.take 1 ∧ ∀ c, part.getLast? = some c → isWordChar c = false) :
    Quiet ms part rest := by
  have hclear := h.clear
  simp only [Misleading, h.kind, h.opens, true_and, not_or, not_exists, not_and, reduceCtorEq, false_and, not_false_eq_true,
    and_true] at hclear
  obtain ⟨hquotes, hslashes, hnames⟩ := hclear
  have hwords : words part ⊆ words t.text := by
    rw [htext, Script.words_append_of_last ha]
    refine List.subset_append_of_subset_right _ ?_
    rcases hpart with rfl | hlast
    · rw [List.append_nil]
      exact List.Subset.refl _
    · rw [Script.words_append_of_last hlast]
      exact List.subset_append_left _ _
  constructor
  · intro c hc
    simpa using hquotes c (by simp [htext, hc])
  · intro hdouble
    refine hslashes (hdouble.trans ?_)
    rw [htext]
    rcases hrest with rfl | ⟨rfl, hnext, -⟩
    · exact ⟨a, b ++ after.take 1, by simp⟩
    · obtain ⟨more, hmore⟩ := hnext
      exact ⟨a, more, by simp [← hmore]⟩
  · intro w hw _
    simpa using hnames w (hwords hw)
  · rcases hrest with rfl | ⟨-, -, hlast⟩
    · exact Or.inr (Or.inr (by simp))
    · exact Or.inr (Or.inl hlast)

theorem isWordChar_of_getLast? {part : List Char} {d : Char} (hlast : part.getLast? = some d) (hd : isWordChar d = false) :
    ∀ c, part.getLast? = some c → isWordChar c = false := by
  intro c hc
  rw [hlast] at hc
  cases hc
  exact hd

/-- The end of the comment, with what follows it on the line. -/
theorem ClearBlock.quiet_end {t : Token} {x y l post : List Char} (h : ClearBlock ms t (l ++ post)) (htext : t.text = x ++ y)
    (hx : ∀ c, x.getLast? = some c → isWordChar c = false) (hy : y ≠ []) : Quiet ms y l := by
  refine h.quiet (b := []) (by simpa using htext) hx (Or.inl rfl) ?_
  rcases h.ends with hnil | hlast
  · exact Or.inl (List.append_eq_nil_iff.mp hnil).1
  · rw [htext, List.getLast?_append_of_ne_nil x hy] at hlast
    exact Or.inr ⟨rfl, List.IsPrefix.take (List.prefix_append l post) 1, isWordChar_of_getLast? hlast (by decide)⟩

/-- The part of the comment up to the end of a line. -/
theorem ClearBlock.quiet_line {t : Token} {x l more : List Char} (h : ClearBlock ms t after) (htext : t.text = x ++ (l ++ more))
    (hx : ∀ c, x.getLast? = some c → isWordChar c = false) (hl : l.getLast? = some '\n') : Quiet ms l [] :=
  h.quiet htext hx (Or.inr (isWordChar_of_getLast? hl (by decide))) (Or.inl rfl)

theorem ordinary_of_isWordChar {d : Char} (h : isWordChar d = true) : isQuote d = false ∧ d ≠ '/' ∧ d ≠ '\n' := by
  refine ⟨?_, ?_, ?_⟩
  · cases hquote : isQuote d with
    | false => rfl
    | true => rw [Script.isWordChar_eq_false_of_isQuote hquote] at h; cases h
  · rintro rfl
    exact absurd h (by decide)
  · rintro rfl
    exact absurd h (by decide)

theorem number_chars (hc : c.isDigit = true ∨ c = '$') :
    ∀ d ∈ c :: rest.takeWhile Script.isNumberChar, isQuote d = false ∧ d ≠ '/' ∧ d ≠ '\n' := by
  refine List.forall_mem_cons.mpr ⟨?_, fun d hd => ?_⟩
  · rcases hc with hdigit | rfl
    · exact ordinary_of_isWordChar (by simp [isWordChar, Char.isAlphanum, hdigit])
    · decide
  · have hnumber := List.mem_takeWhile_imp hd
    simp only [Script.isNumberChar, Bool.or_eq_true, beq_iff_eq] at hnumber
    rcases hnumber with halnum | rfl
    · exact ordinary_of_isWordChar (by simp [isWordChar, halnum])
    · decide

/-- The word that follows a number directly begins with an underscore. -/
theorem isIdentifier_after_number {word : List Char} (hhead : ∀ d, word.head? = some d → Script.isNumberChar d = false)
    (hword : ∀ d ∈ word, isWordChar d = true) (hne : word ≠ []) : isIdentifier word = true := by
  obtain ⟨d, word, rfl⟩ := List.exists_cons_of_ne_nil hne
  obtain ⟨hd, hrest⟩ := List.forall_mem_cons.mp hword
  have hnumber := hhead d rfl
  simp only [Script.isNumberChar, Bool.or_eq_false_iff] at hnumber
  have hunderscore : d = '_' := by simpa [isWordChar, hnumber.1] using hd
  subst hunderscore
  simpa [isIdentifier, isWordStart] using hrest

theorem quiet_of_words {s : List Char} (hchars : ∀ d ∈ s, isQuote d = false ∧ d ≠ '/' ∧ d ≠ '\n')
    (hnames : ∀ w ∈ words s, isIdentifier w = true → ms.find? w = none) {l : List Char}
    (hl : ∀ d, l.head? = some d → isWordChar d = false) : Quiet ms s l where
  quotes := fun d hd => (hchars d hd).1
  slashes := fun hdouble => (hchars _ (mem_of_infix_take hdouble)).2.1 rfl
  names := hnames
  ends := Or.inr (Or.inr hl)

/-- A number that does not mislead is gone through, digit by digit and word by word. -/
theorem invoked_number {gap l : List Char} {start : Nat} (hc : c.isDigit = true ∨ c = '$')
    (hclear : ¬Misleading ms.Named ⟨.number, gap, start, c :: rest.takeWhile Script.isNumberChar⟩
      (rest.dropWhile Script.isNumberChar))
    (hfollow : (rest.dropWhile Script.isNumberChar).takeWhile isWordChar = l.takeWhile isWordChar) (offset : Nat) :
    invoked offset (fragments ms (c :: rest.takeWhile Script.isNumberChar ++ l)) =
      invoked (offset + width (c :: rest.takeWhile Script.isNumberChar)) (fragments ms l) := by
  have hchars := @number_chars c rest hc
  by_cases hletter : ∃ d ∈ c :: rest.takeWhile Script.isNumberChar, isWordStart d = true
  · -- the scan goes on with the word that follows, and so it may begin anew after this word
    simp only [Misleading, hletter, reduceCtorEq, false_and, false_or, true_and, hfollow, not_exists, not_and,
      Option.not_isSome_iff_eq_none] at hclear
    have hfollows : ∀ d ∈ l.takeWhile isWordChar, isWordChar d = true := fun d hd => List.mem_takeWhile_imp hd
    have hstop : ∀ d, (l.dropWhile isWordChar).head? = some d → isWordChar d = false :=
      fun d => Script.isWordChar_head?_dropWhile
    have hboth : Quiet ms (c :: rest.takeWhile Script.isNumberChar ++ l.takeWhile isWordChar) (l.dropWhile isWordChar) := by
      refine quiet_of_words (fun d hd => ?_) (fun w hw _ => hclear w (Or.inl hw)) hstop
      rcases List.mem_append.mp hd with hd | hd
      · exact hchars d hd
      · exact ordinary_of_isWordChar (hfollows d hd)
    have hword : Quiet ms (l.takeWhile isWordChar) (l.dropWhile isWordChar) := by
      refine quiet_of_words (fun d hd => ordinary_of_isWordChar (hfollows d hd)) (fun w hw _ => hclear w (Or.inr ?_)) hstop
      by_cases hnil : l.takeWhile isWordChar = []
      · rw [hnil, words] at hw
        cases hw
      · rw [Script.words_of_isIdentifier (isIdentifier_after_number ?_ hfollows hnil)] at hw
        · exact List.mem_singleton.mp hw
        · intro d hd
          rw [← hfollow, List.head?_takeWhile, Option.filter_eq_some_iff] at hd
          have hnot := List.head?_dropWhile_not Script.isNumberChar rest
          rw [hd.1] at hnot
          exact hnot
    have hleft := hboth.invoked_append offset
    have hright := hword.invoked_append (offset + width (c :: rest.takeWhile Script.isNumberChar))
    rw [List.append_assoc, List.takeWhile_append_dropWhile, Text.width_append, ← Nat.add_assoc] at hleft
    rw [List.takeWhile_append_dropWhile] at hright
    rw [hleft, hright]
  · refine (quiet_of_forall (fun d hd => ⟨(hchars d hd).1, ?_, (hchars d hd).2.1⟩) l).invoked_append offset
    simpa using fun h => hletter ⟨d, hd, h⟩

theorem invoked_identifier {l : List Char} (hms : ∀ m ∈ ms, m.params = none) (hword : isIdentifier text = true)
    (hl : ∀ d, l.head? = some d → isWordChar d = false) (offset : Nat) :
    invoked offset (fragments ms (text ++ l)) =
      (if ms.Named text then [(offset, text)] else []) ++ invoked (offset + width text) (fragments ms l) := by
  cases text with
  | nil => cases hword
  | cons c text =>
      simp only [isIdentifier, Bool.and_eq_true, List.all_eq_true] at hword
      obtain ⟨htake, hdrop⟩ := Script.cut_append (p := isWordChar) text hl
      rw [List.takeWhile_eq_self_iff.mpr hword.2] at htake
      rw [List.dropWhile_eq_nil_iff.mpr hword.2, List.nil_append] at hdrop
      rw [List.cons_append]
      by_cases hnamed : ms.Named (c :: text)
      · obtain ⟨m, hfind⟩ := Option.isSome_iff_exists.mp hnamed
        obtain ⟨hmem, hname⟩ := Macros.find?_some hfind
        rw [fragments_of_known hword.1 (by rw [htake, hfind]) (hms m hmem), hdrop, hname, if_pos hnamed]
        rfl
      · have hfind : ms.find? (c :: text) = none := by simpa using hnamed
        rw [fragments_of_unknown hword.1 (by rw [htake, hfind]), invoked_plain, htake, hdrop, if_neg hnamed, List.nil_append]

end

/-! ## A whole line -/

/-- What is left of a line is a line again. -/
theorem isLine_tail {a l post : List Char} (h : Text.IsLine (a ++ l) post) : l = [] ∨ Text.IsLine l post := by
  by_cases hl : l = []
  · exact Or.inl hl
  · refine Or.inr ⟨hl, ?_, ?_⟩
    · have hwithin := h.within
      rw [List.dropLast_append_of_ne_nil hl] at hwithin
      exact fun hmem => hwithin (List.mem_append_right _ hmem)
    · have hends := h.ends
      rwa [List.getLast?_append_of_ne_nil _ hl] at hends

/-- Text without a line feed that the line has ends before what follows the line. -/
theorem isLine_within {a l post : List Char} (h : Text.IsLine (a ++ l) post) (ha : '\n' ∉ a) : post = [] ∨ '\n' ∈ l := by
  rcases h.ends with hend | hnil
  · have hmem := List.mem_of_getLast? hend
    exact Or.inr ((List.mem_append.mp hmem).resolve_left ha)
  · exact Or.inl hnil

variable {post : List Char}

/-- Nothing but the line feed is left of the line after `//`. -/
theorem blank_after_remark {text rest l : List Char} (hline : Text.IsLine (text ++ l) post)
    (hrest : l ++ post = rest.dropWhile (· != '\n')) : ∀ d ∈ l, isBlank d = true := by
  cases l with
  | nil => simp
  | cons d l =>
      have hd := List.head?_dropWhile_not (· != '\n') rest
      rw [← hrest] at hd
      have hfeed : d = '\n' := by simpa using hd
      subst hfeed
      have hwithin := ((isLine_tail hline).resolve_left (by simp)).within
      cases l with
      | nil => simp [isBlank]
      | cons e l => simp at hwithin

theorem takeWhile_after_number {c : Char} {rest l : List Char} (hc : c.isDigit = true ∨ c = '$')
    (hline : Text.IsLine (c :: rest.takeWhile Script.isNumberChar ++ l) post)
    (hrest : l ++ post = rest.dropWhile Script.isNumberChar) :
    (rest.dropWhile Script.isNumberChar).takeWhile isWordChar = l.takeWhile isWordChar := by
  rw [← hrest]
  refine (Script.cut_append_of_mem ?_).1
  rcases isLine_within hline (fun hmem => (number_chars hc _ hmem).2.2 rfl) with hnil | hmem
  · rw [hnil]
    exact Or.inr (by simp)
  · refine Or.inl fun hnil => ?_
    have hword := List.dropWhile_eq_nil_iff.mp hnil _ hmem
    exact absurd hword (by decide)

/-- A token that lies on the line as a whole. -/
theorem invoked_token {gap l rest text : List Char} {c : Char} {kind : Kind} {start : Nat}
    (hms : ∀ m ∈ ms, m.params = none) (hlexeme : lexeme c rest = some (kind, text, l ++ post))
    (hline : Text.IsLine (text ++ l) post)
    (hclear : ¬Misleading ms.Named ⟨kind, gap, start, text⟩ (l ++ post)) (offset : Nat) :
    invoked offset (fragments ms (text ++ l)) =
      (if kind = .identifier ∧ ms.Named text then [(offset, text)] else []) ++
        invoked (offset + width text) (fragments ms l) := by
  generalize hafter : l ++ post = after at hlexeme hclear
  have hhead {d : Char} (hd : l.head? = some d) : after.head? = some d := by rw [← hafter, List.head?_append, hd]; rfl
  cases lexed_of_lexeme hlexeme with
  | remark hc hrest =>
      subst hc
      have hslash : (rest.takeWhile (· != '\n') ++ l).head? = some '/' := by
        rw [List.head?_append, List.head?_takeWhile, hrest]
        rfl
      rw [List.cons_append, fragments_of_remark hslash, invoked_of_quiet (quiet_of_blank (blank_after_remark hline hafter) [])]
      simp [invoked]
  | block hopens hends =>
      have hblock : ClearBlock ms ⟨.comment, gap, start, text⟩ (l ++ post) := hafter ▸ ⟨rfl, hopens, hends, hclear⟩
      rw [(hblock.quiet_end (List.nil_append text).symm (by simp) (Script.lexeme_ne_nil hlexeme)).invoked_append]
      simp
  | string hquote hclose =>
      next a =>
      have hrest := Script.closeQuote_append hclose
      rw [← hafter, ← List.append_assoc] at hrest
      rw [← hrest] at hclose
      have h : invoked offset (fragments ms _) = _ := invoked_string hquote (closeQuote_within hclose rfl) List.not_mem_nil offset
      rw [List.nil_append, List.nil_append] at h
      rw [List.cons_append, h]
      simp
  | number hc =>
      rw [invoked_number hc hclear (takeWhile_after_number hc hline hafter)]
      simp
  | identifier hc =>
      have hword : isIdentifier (c :: rest.takeWhile isWordChar) = true := by simp [isIdentifier, hc]
      rw [invoked_identifier hms hword fun d hd => Script.isWordChar_head?_dropWhile (hhead hd)]
      simp
  | symbol hkind hquote hword hslash htext =>
      have hquiet : Quiet ms text l := by
        rcases htext with ⟨rfl, rfl⟩ | ⟨d, rfl, hpair⟩
        · exact quiet_of_symbol hquote hword fun h => hslash ⟨h.1, hhead h.2⟩
        · exact quiet_of_pair hpair l
      rw [hquiet.invoked_append]
      simp [hkind]

/-- Only a string or a block comment has a line feed. -/
theorem string_or_block {c : Char} {rest text after : List Char} {kind : Kind} (hc : isBlank c = false)
    (hlexeme : lexeme c rest = some (kind, text, after)) (hfeed : '\n' ∈ text) :
    (kind = .text ∧ isQuote c = true ∧ ∃ a, text = c :: a ∧ closeQuote c rest = some (a, after)) ∨
      (kind = .comment ∧ ['/', '*'] <+: text ∧ (after = [] ∨ text.getLast? = some '/')) := by
  have hne : '\n' ≠ c := by
    rintro rfl
    cases hc
  cases lexed_of_lexeme hlexeme with
  | remark _ _ => exact absurd (List.mem_takeWhile_imp ((List.mem_cons.mp hfeed).resolve_left hne)) (by simp)
  | block hopens hends => exact Or.inr ⟨rfl, hopens, hends⟩
  | string hquote hclose => exact Or.inl ⟨rfl, hquote, _, rfl, hclose⟩
  | number hnumber => exact absurd rfl (number_chars hnumber _ hfeed).2.2
  | identifier hword =>
      have hall : isIdentifier (c :: rest.takeWhile isWordChar) = true := by simp [isIdentifier, hword]
      exact absurd rfl (ordinary_of_isWordChar (Script.isWordChar_of_mem hall hfeed)).2.2
  | symbol _ _ _ _ hsymbol =>
      rcases hsymbol with ⟨rfl, -⟩ | ⟨d, rfl, hpair⟩
      · exact absurd (List.mem_singleton.mp hfeed) hne
      · have hd : '\n' = d := List.mem_singleton.mp ((List.mem_cons.mp hfeed).resolve_left hne)
        simp [Script.isPair, ← hd] at hpair

/-- A token that goes on after the line is a string or a block comment, and no name is come upon in it. -/
theorem invoked_crossing {gap l rest text more after : List Char} {c : Char} {kind : Kind} {start : Nat} (hc : isBlank c = false)
    (hlexeme : lexeme c rest = some (kind, text, after)) (htext : text = c :: l ++ more) (hmore : more ≠ [])
    (hline : Text.IsLine (c :: l) (more ++ after))
    (hclear : ¬Misleading ms.Named ⟨kind, gap, start, text⟩ after) (offset : Nat) :
    kind ≠ .identifier ∧ invoked offset (fragments ms (c :: l)) = [] := by
  have hlast : (c :: l).getLast? = some '\n' := hline.ends.resolve_right (by simp [hmore])
  have hfeed : '\n' ∈ text := htext ▸ List.mem_append_left _ (List.mem_of_getLast? hlast)
  have hrest := Script.lexeme_append hlexeme
  rcases string_or_block hc hlexeme hfeed with ⟨rfl, hquote, a, rfl, hclose⟩ | ⟨rfl, hopens, hends⟩
  · rw [List.cons_append, List.cons.injEq] at htext
    rw [htext.2, List.cons_append, List.cons.injEq, List.append_assoc] at hrest
    rw [← hrest.2] at hclose
    exact ⟨by simp, invoked_openString hquote hclose (htext.2 ▸ List.prefix_append l more) List.not_mem_nil offset⟩
  · have hblock : ClearBlock ms ⟨.comment, gap, start, text⟩ after := ⟨rfl, hopens, hends, hclear⟩
    exact ⟨by simp, invoked_of_quiet (hblock.quiet_line (x := []) htext (by simp) hlast) offset⟩

/-- Text that begins at `q` has these tokens, and the scan of its line from `start` to `stop` sees them as they are: no string
goes on from an earlier line, and no token that has a part on the line misleads. -/
structure Clear (named : List Char → Prop) (q : Nat) (cs : List Char) (tokens : List Token) (start stop : Nat) : Prop where
  strings : ∀ t ∈ tokens, t.kind = .text → start ≤ t.start ∨ t.stop ≤ start
  plain : ∀ t ∈ tokens, t.start < stop → start < t.stop → ∀ front back, cs = front ++ t.text ++ back →
    t.start = q + width front → ¬Misleading named t back

theorem Clear.token {named : List Char → Prop} {q start stop : Nat} {gap cs after : List Char} {t : Token} {tokens : List Token}
    (h : Clear named q (gap ++ cs) (t :: tokens) start stop) (htext : t.text ++ after = cs) (hplace : t.start = q + width gap) :
    (t.start < stop → start < t.stop → ¬Misleading named t after) ∧ Clear named t.stop after tokens start stop := by
  subst htext
  rw [← List.append_assoc] at h
  refine ⟨fun hstop hstart => h.plain t List.mem_cons_self hstop hstart gap after rfl hplace, ?_, ?_⟩
  · exact fun u hu => h.strings u (List.mem_cons_of_mem t hu)
  · intro u hu hstop hstart front back hafter hfront
    refine h.plain u (List.mem_cons_of_mem t hu) hstop hstart (gap ++ t.text ++ front) back ?_ ?_
    · rw [hafter]
      simp
    · rw [hfront, Token.stop, hplace, Text.width_append, Text.width_append]
      omega

theorem blank_append_cons {g gap l rest : List Char} {c : Char} (hg : ∀ d ∈ g, isBlank d = true) (hc : isBlank c = false)
    (h : g ++ l = gap ++ c :: rest) : ∃ gap', gap = g ++ gap' ∧ l = gap' ++ c :: rest := by
  rcases split_append h with ⟨more, rfl⟩ | h
  · have := hg c (by simp)
    rw [hc] at this
    cases this
  · exact h

/-- On a clear line that begins between tokens, the names that are come upon are the identifiers among its tokens. -/
theorem invoked_eq_identifiers {g l : List Char} {q here start stop : Nat} {tokens : List Token} {trailing : List Char}
    (hms : ∀ m ∈ ms, m.params = none) (hscans : Scans q (g ++ (l ++ post)) tokens here trailing)
    (htrailing : ∀ d ∈ trailing, isBlank d = true) (hg : ∀ d ∈ g, isBlank d = true) (hline : l = [] ∨ Text.IsLine l post)
    (hclear : Clear ms.Named q (g ++ (l ++ post)) tokens start stop) (hstart : start ≤ q + width g)
    (hstop : stop = q + width g + width l) :
    invoked (q + width g) (fragments ms l) = identifiersBefore ms stop tokens := by
  generalize hcs : g ++ (l ++ post) = cs at hscans hclear
  induction hscans generalizing g l with
  | stay q cs =>
      subst hcs
      exact invoked_of_quiet (quiet_of_blank (fun d hd => htrailing d (by simp [hd])) []) _
  | @token q here gap rest text after left c kind tokens hgap hc hlexeme hrest ih =>
      have htext := Script.lexeme_append hlexeme
      have hpositive : 0 < width text := Text.width_pos (Script.lexeme_ne_nil hlexeme)
      have hlater : ∀ t ∈ tokens, q + width gap + width text ≤ t.start := fun t ht => hrest.laid.1.start_le ht
      obtain ⟨hhead, htail⟩ := hclear.token htext rfl
      obtain ⟨gap, rfl, hl⟩ := blank_append_cons hg hc hcs
      rw [Token.stop] at htail
      rw [Text.width_append, ← Nat.add_assoc] at hlater ih hrest hhead htail ⊢
      have hgap : ∀ d ∈ gap, isBlank d = true := fun d hd => hgap d (List.mem_append_right g hd)
      by_cases hshort : width l ≤ width gap
      · -- the line is over before the token
        obtain ⟨mid, rfl, -⟩ := Text.exists_append_of_width_le hl hshort
        rw [invoked_of_quiet (quiet_of_blank (fun d hd => hgap d (List.mem_append_left _ hd)) [])]
        refine (identifiersBefore_of_le (List.forall_mem_cons.mpr ⟨by simp only; omega, fun t ht => ?_⟩)).symm
        have := hlater t ht
        omega
      obtain ⟨mid, rfl, hmid⟩ := Text.exists_append_of_width_le hl.symm (by omega)
      cases mid with
      | nil => simp at hshort
      | cons d l =>
      rw [List.cons_append, List.cons.injEq] at hmid
      obtain ⟨rfl, rfl⟩ := hmid
      have hbefore : q + width g + width gap < stop := by
        have := c.utf8Size_pos
        rw [hstop, Text.width_append, Text.width_cons]
        omega
      have hhead := hhead hbefore (by simp only [Token.stop]; omega)
      have hline := (isLine_tail (hline.resolve_left (by simp))).resolve_left (by simp)
      rw [← List.cons_append] at htext
      rw [(quiet_of_blank hgap _).invoked_append, identifiersBefore_cons hbefore]
      by_cases hfits : width text ≤ width (c :: l)
      · obtain ⟨l', hl', rfl⟩ := Text.exists_append_of_width_le htext hfits
        rw [hl'] at hline hstop ⊢
        have hnext := @ih [] l' htrailing (by simp) (isLine_tail hline) (Nat.le_trans hstart (by simp; omega))
          (by rw [hstop]; simp [Nat.add_assoc]) rfl htail
        rw [invoked_token hms hlexeme hline hhead, ← hnext]
        rfl
      · obtain ⟨more, hmore, rfl⟩ := Text.exists_append_of_width_le htext.symm (by omega)
        have hne : more ≠ [] := by
          rintro rfl
          rw [hmore, List.append_nil] at hfits
          exact hfits le_rfl
        obtain ⟨hkind, hnone⟩ := invoked_crossing hc hlexeme hmore hne hline hhead (q + width g + width gap)
        have hwidth : width text = width (c :: l) + width more := by rw [hmore, Text.width_append]
        rw [hnone, if_neg (fun h => hkind h.1), List.nil_append]
        refine (identifiersBefore_of_le fun t ht => ?_).symm
        have := hlater t ht
        rw [hstop, Text.width_append]
        omega

/-- A block comment that goes on from an earlier line is left without coming upon a name. -/
theorem invoked_after_block {x y l after trailing : List Char} {q here start stop : Nat} {t : Token} {tokens : List Token}
    (hms : ∀ m ∈ ms, m.params = none) (hblock : ClearBlock ms t after) (htext : t.text = x ++ y) (hy : y ≠ [])
    (hx : x.getLast? = some '\n') (hscans : Scans q after tokens here trailing) (htrailing : ∀ d ∈ trailing, isBlank d = true)
    (hline : Text.IsLine l post) (hcs : y ++ after = l ++ post) (hclear : Clear ms.Named q after tokens start stop)
    (hstart : start + width y = q) (hstop : stop = start + width l) :
    invoked start (fragments ms l) = identifiersBefore ms stop tokens := by
  have hlater : ∀ u ∈ tokens, q ≤ u.start := fun u hu => hscans.laid.1.start_le hu
  have hfeed := isWordChar_of_getLast? hx (by decide)
  by_cases hfits : width y ≤ width l
  · obtain ⟨l, rfl, rfl⟩ := Text.exists_append_of_width_le hcs hfits
    have h := invoked_eq_identifiers (g := []) hms hscans htrailing (by simp) (isLine_tail hline) hclear (by simp; omega)
      (by rw [hstop, ← hstart]; simp [Nat.add_assoc])
    rw [(hblock.quiet_end htext hfeed hy).invoked_append, hstart]
    exact h
  · obtain ⟨more, rfl, rfl⟩ := Text.exists_append_of_width_le hcs.symm (by omega)
    have hmore : more ≠ [] := by
      rintro rfl
      simp at hfits
    have hlast : l.getLast? = some '\n' := hline.ends.resolve_right (by simp [hmore])
    rw [invoked_of_quiet (hblock.quiet_line htext hfeed hlast)]
    refine (identifiersBefore_of_le fun u hu => ?_).symm
    have := hlater u hu
    rw [Text.width_append] at hstart
    omega

/-- On a clear line, the names that are come upon are the identifiers among its tokens. -/
theorem invoked_line {pre l : List Char} {q here start stop : Nat} {tokens : List Token} {trailing : List Char}
    (hms : ∀ m ∈ ms, m.params = none) (hscans : Scans q (pre ++ (l ++ post)) tokens here trailing)
    (htrailing : ∀ d ∈ trailing, isBlank d = true) (hpre : pre = [] ∨ pre.getLast? = some '\n') (hline : Text.IsLine l post)
    (hclear : Clear ms.Named q (pre ++ (l ++ post)) tokens start stop) (hstart : start = q + width pre)
    (hstop : stop = start + width l) :
    invoked start (fragments ms l) = identifiersBefore ms stop (tokens.filter (start ≤ ·.start)) := by
  generalize hcs : pre ++ (l ++ post) = cs at hscans hclear
  induction hscans generalizing pre with
  | stay q cs =>
      subst hcs
      exact invoked_of_quiet (quiet_of_blank (fun d hd => htrailing d (by simp [hd])) []) _
  | @token q here gap rest text after left c kind tokens hgap hc hlexeme hrest ih =>
      have htext := Script.lexeme_append hlexeme
      have hpositive : 0 < width text := Text.width_pos (Script.lexeme_ne_nil hlexeme)
      have hlater : ∀ t ∈ tokens, q + width gap + width text ≤ t.start := fun t ht => hrest.laid.1.start_le ht
      by_cases hshort : width pre ≤ width gap
      · -- the line begins before the token
        obtain ⟨mid, rfl, -⟩ := Text.exists_append_of_width_le hcs hshort
        have hall : ∀ t ∈ (⟨kind, pre ++ mid, q + width (pre ++ mid), text⟩ : Token) :: tokens, start ≤ t.start := by
          refine List.forall_mem_cons.mpr ⟨by simp only; omega, fun t ht => ?_⟩
          have := hlater t ht
          omega
        rw [List.filter_eq_self.mpr (by simpa using hall), hstart]
        have hscans := Scans.token hgap hc hlexeme hrest
        rw [← hcs] at hscans hclear
        exact invoked_eq_identifiers hms hscans htrailing (fun d hd => hgap d (List.mem_append_left _ hd)) (Or.inr hline) hclear
          (Nat.le_of_eq hstart) (by rw [hstop, hstart])
      have hskip : ¬start ≤ q + width gap := by omega
      rw [List.filter_cons_of_neg (by simpa using hskip)]
      obtain ⟨x, rfl, hx⟩ := Text.exists_append_of_width_le hcs.symm (by omega)
      obtain ⟨hhead, htail⟩ := hclear.token htext rfl
      rw [← htext] at hx
      by_cases hpast : width text ≤ width x
      · -- the line begins after the token
        obtain ⟨pre, rfl, hafter⟩ := Text.exists_append_of_width_le hx hpast
        refine ih htrailing ?_ ?_ hafter.symm htail
        · rcases hpre with hnil | hlast
          · simp [hnil] at hshort
          · by_cases hne : pre = []
            · exact Or.inl hne
            · rw [← List.append_assoc, List.getLast?_append_of_ne_nil _ hne] at hlast
              exact Or.inr hlast
        · rw [hstart]
          simp [Nat.add_assoc]
      · -- the token goes on from an earlier line
        obtain ⟨y, rfl, hy⟩ := Text.exists_append_of_width_le hx.symm (by omega)
        have hyne : y ≠ [] := by
          rintro rfl
          simp at hpast
        have hxne : x ≠ [] := by
          rintro rfl
          simp at hshort
        have hxlast : x.getLast? = some '\n' := by
          have hlast := hpre.resolve_left (by simp [hxne])
          rwa [List.getLast?_append_of_ne_nil _ hxne] at hlast
        have hwidth : start + width y = q + width gap + width (x ++ y) := by
          rw [hstart, Text.width_append, Text.width_append]
          omega
        have hinside : start < q + width gap + width (x ++ y) := by
          have := Text.width_pos hyne
          omega
        have hfeed : '\n' ∈ x ++ y := List.mem_append_left y (List.mem_of_getLast? hxlast)
        rcases string_or_block hc hlexeme hfeed with ⟨rfl, -, -⟩ | ⟨rfl, hopens, hends⟩
        · have hstring := hclear.strings _ List.mem_cons_self rfl
          simp only [Token.stop] at hstring
          omega
        rw [List.filter_eq_self.mpr fun t ht => by simpa using Nat.le_of_lt (Nat.lt_of_lt_of_le hinside (hlater t ht))]
        have hl := Text.width_pos hline.ne_nil
        have hblock : ClearBlock ms ⟨.comment, gap, q + width gap, x ++ y⟩ after :=
          ⟨rfl, hopens, hends, hhead (by simp only; omega) hinside⟩
        exact invoked_after_block hms hblock rfl hyne hxlast hrest htrailing hline hy.symm htail hwidth hstop

end SqfIndex.Preprocess
