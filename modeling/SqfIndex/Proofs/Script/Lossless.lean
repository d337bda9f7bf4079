import SqfIndex.Proofs.Script.Scanning
import SqfIndex.Proofs.Script.Tokens
import SqfIndex.Proofs.Text.Standing

/-!
# Nothing is lost in tokens

Tokens and the blanks between them are the script (`Scans.laid`), so that each byte is in one token or is that of a
blank, and what stands before a quote that is never closed can be read on its own (`Scans.before`): `lex_lossless`.
-/

namespace SqfIndex.Script

open Text (width encode isBlank StandsAt)

/-! ## Reading what stands before a quote -/

section

variable {q : Char} {more : List Char}

theorem nil_of_append_eq_cons {as bs : List Char} (h : as ++ (bs ++ q :: more) = q :: more) : as = [] := by
  have hlength := congrArg List.length h
  simp only [List.length_append, List.length_cons] at hlength
  exact List.length_eq_zero_iff.mp (by omega)

theorem cut_before {p : Char → Bool} {cs after : List Char} (h : (cs ++ q :: more).dropWhile p = after ++ q :: more) :
    cs.takeWhile p = (cs ++ q :: more).takeWhile p ∧ cs.dropWhile p = after := by
  induction cs with
  | nil =>
      cases hq : p q with
      | false =>
          rw [List.nil_append, List.dropWhile_cons_of_neg (by simp [hq])] at h
          have hafter : after = [] := by simpa using h
          simp [hq, hafter]
      | true =>
          rw [List.nil_append, List.dropWhile_cons_of_pos hq] at h
          have hle := (List.dropWhile_sublist p (l := more)).length_le
          rw [h] at hle
          simp only [List.length_append, List.length_cons] at hle
          omega
  | cons c cs ih =>
      cases hc : p c with
      | false =>
          rw [List.cons_append, List.dropWhile_cons_of_neg (by simp [hc]), ← List.cons_append] at h
          obtain rfl := List.append_cancel_right h
          simp [hc]
      | true =>
          rw [List.cons_append, List.dropWhile_cons_of_pos hc] at h
          simpa [hc] using ih h

theorem run_before {p : Char → Bool} {k kind : Kind} {c : Char} (cs : List Char) {text after : List Char}
    (h : some (k, c :: (cs ++ q :: more).takeWhile p, (cs ++ q :: more).dropWhile p) = some (kind, text, after ++ q :: more)) :
    some (k, c :: cs.takeWhile p, cs.dropWhile p) = some (kind, text, after) := by
  simp only [Option.some.injEq, Prod.mk.injEq] at h ⊢
  obtain ⟨hkind, htext, hdrop⟩ := h
  obtain ⟨htake, hrest⟩ := cut_before hdrop
  exact ⟨hkind, htake ▸ htext, hrest⟩

theorem closeComment_cons {c : Char} {rest : List Char} (h : c = '*' → rest.head? ≠ some '/') :
    closeComment (c :: rest) = (c :: (closeComment rest).1, (closeComment rest).2) := by
  rw [closeComment]
  rintro rest' rfl rfl
  exact h rfl rfl

theorem closeComment_ne_nil (c : Char) (cs : List Char) : (closeComment (c :: cs)).1 ≠ [] := by
  unfold closeComment
  split <;> simp_all

theorem closeComment_before (hq : q ≠ '/') {cs a after : List Char}
    (h : closeComment (cs ++ q :: more) = (a, after ++ q :: more)) : closeComment cs = (a, after) := by
  induction cs generalizing a with
  | nil =>
      have happend := closeComment_append (q :: more)
      rw [List.nil_append] at h
      rw [h] at happend
      exact absurd (nil_of_append_eq_cons happend) (h ▸ closeComment_ne_nil q more)
  | cons c cs ih =>
      by_cases hclose : c = '*' ∧ (cs ++ q :: more).head? = some '/'
      · obtain ⟨rfl, hhead⟩ := hclose
        cases cs with
        | nil => exact absurd (Option.some.inj hhead) hq
        | cons d cs =>
            obtain rfl : d = '/' := Option.some.inj hhead
            obtain ⟨rfl, hafter⟩ := Prod.mk.inj h
            rw [List.append_cancel_right hafter]
            rfl
      · have hwhole : c = '*' → (cs ++ q :: more).head? ≠ some '/' := fun hc hhead => hclose ⟨hc, hhead⟩
        have hpart : c = '*' → cs.head? ≠ some '/' := by
          intro hc hhead
          exact hwhole hc (by rw [List.head?_append, hhead]; rfl)
        rw [List.cons_append, closeComment_cons hwhole] at h
        obtain ⟨rfl, hafter⟩ := Prod.mk.inj h
        rw [closeComment_cons hpart, ih (Prod.ext rfl hafter)]

theorem closeQuote_ne_nil {c : Char} {cs a b : List Char} (h : closeQuote c cs = some (a, b)) : a ≠ [] := by
  fun_cases closeQuote c cs with
  | case1 => cases h
  | case2 =>
      rw [closeQuote_closed (by simp)] at h
      cases h
      exact List.cons_ne_nil _ _
  | case3 rest =>
      rw [closeQuote_doubled, Option.map_eq_some_iff] at h
      obtain ⟨_, -, hparts⟩ := h
      cases hparts
      exact List.cons_ne_nil _ _
  | case4 d rest hd =>
      rw [closeQuote_closed (by simpa using hd)] at h
      cases h
      exact List.cons_ne_nil _ _
  | case5 d rest hd =>
      rw [closeQuote_other hd, Option.map_eq_some_iff] at h
      obtain ⟨_, -, hparts⟩ := h
      cases hparts
      exact List.cons_ne_nil _ _

theorem closeQuote_before {c : Char} {cs a after : List Char}
    (h : closeQuote c (cs ++ q :: more) = some (a, after ++ q :: more)) : closeQuote c cs = some (a, after) := by
  fun_induction closeQuote c cs generalizing a with
  | case1 =>
      exact absurd (nil_of_append_eq_cons (closeQuote_append h)) (closeQuote_ne_nil h)
  | case2 =>
      by_cases hq : q = c
      · -- two quotes would not close, so that nothing is left from the second on
        subst hq
        rw [List.singleton_append, closeQuote_doubled, Option.map_eq_some_iff] at h
        obtain ⟨⟨a', b⟩, hclose, hparts⟩ := h
        obtain ⟨rfl, rfl⟩ := Prod.mk.inj hparts
        have hlength := congrArg List.length (closeQuote_append hclose)
        simp only [List.length_append, List.length_cons] at hlength
        omega
      · rw [List.singleton_append, closeQuote_closed (by simpa using hq)] at h
        obtain ⟨rfl, hafter⟩ := Prod.mk.inj (Option.some.inj h)
        have hnil : after = [] := by simpa using hafter
        rw [hnil]
  | case3 rest ih =>
      rw [List.cons_append, List.cons_append, closeQuote_doubled, Option.map_eq_some_iff] at h
      obtain ⟨⟨a', b⟩, hclose, hparts⟩ := h
      obtain ⟨rfl, rfl⟩ := Prod.mk.inj hparts
      rw [ih hclose, Option.map_some]
  | case4 d rest hd =>
      rw [List.cons_append, closeQuote_closed (by simpa using hd)] at h
      obtain ⟨rfl, hafter⟩ := Prod.mk.inj (Option.some.inj h)
      rw [List.append_cancel_right hafter]
  | case5 d rest hd ih =>
      rw [List.cons_append, closeQuote_other hd, Option.map_eq_some_iff] at h
      obtain ⟨⟨a', b⟩, hclose, hparts⟩ := h
      obtain ⟨rfl, rfl⟩ := Prod.mk.inj hparts
      rw [ih hclose, Option.map_some]

theorem lexeme_alone {c : Char} (hc : isQuote c = false) : ∃ kind, lexeme c [] = some (kind, [c], []) := by
  unfold lexeme
  simp only [List.head?_nil, reduceCtorEq, and_false, ↓reduceIte, hc, Bool.false_eq_true, List.takeWhile_nil,
    List.dropWhile_nil]
  split
  · exact ⟨_, rfl⟩
  split
  · exact ⟨_, rfl⟩
  split
  · exact ⟨_, rfl⟩
  · exact ⟨_, rfl⟩

/-- If a character follows before the quote, the same branch is taken. -/
theorem lexeme_cons_before (hq : isQuote q = true) {c d : Char} (hc : isQuote c = false) {rest text after : List Char}
    {kind : Kind} (h : lexeme c (d :: rest ++ q :: more) = some (kind, text, after ++ q :: more)) :
    lexeme c (d :: rest) = some (kind, text, after) := by
  unfold lexeme at h ⊢
  simp only [List.cons_append, List.head?_cons, List.drop_succ_cons, List.drop_zero, ne_eq, reduceCtorEq,
    not_false_eq_true, and_true, hc, Bool.false_eq_true, ↓reduceIte] at h ⊢
  by_cases hline : c = '/' ∧ some d = some '/'
  · rw [if_pos hline] at h ⊢
    exact run_before (d :: rest) h
  rw [if_neg hline] at h ⊢
  by_cases hblock : c = '/' ∧ some d = some '*'
  · -- a comment that goes on to the end of the text would not stop before the quote
    rw [if_pos hblock] at h ⊢
    simp only [Option.some.injEq, Prod.mk.injEq] at h
    obtain ⟨rfl, rfl, hafter⟩ := h
    rw [closeComment_before (ne_slash_of_isQuote hq) (Prod.ext rfl hafter)]
  rw [if_neg hblock] at h ⊢
  by_cases hnumber : c.isDigit = true ∨ c = '$'
  · rw [if_pos hnumber] at h ⊢
    exact run_before (d :: rest) h
  rw [if_neg hnumber] at h ⊢
  by_cases hword : isWordStart c = true
  · rw [if_pos hword] at h ⊢
    exact run_before (d :: rest) h
  rw [if_neg hword] at h ⊢
  by_cases hmark : isMark c = true
  · rw [if_pos hmark] at h ⊢
    simp only [Option.some.injEq, Prod.mk.injEq, ← List.cons_append] at h
    obtain ⟨rfl, rfl, hafter⟩ := h
    rw [List.append_cancel_right hafter]
  rw [if_neg hmark] at h ⊢
  by_cases hpair : isPair c d = true
  · rw [if_pos hpair] at h ⊢
    simp only [Option.some.injEq, Prod.mk.injEq] at h
    obtain ⟨rfl, rfl, hafter⟩ := h
    rw [List.append_cancel_right hafter]
  · rw [if_neg hpair] at h ⊢
    simp only [Option.some.injEq, Prod.mk.injEq, ← List.cons_append] at h
    obtain ⟨rfl, rfl, hafter⟩ := h
    rw [List.append_cancel_right hafter]

/-- A token before a quote is read the same way if the text ends at the quote; only its kind may be another. -/
theorem lexeme_before (hq : isQuote q = true) {c : Char} {rest text after : List Char} {kind : Kind}
    (h : lexeme c (rest ++ q :: more) = some (kind, text, after ++ q :: more)) :
    ∃ kind', lexeme c rest = some (kind', text, after) := by
  cases hc : isQuote c with
  | true =>
      rw [lexeme_of_isQuote hc, Option.map_eq_some_iff] at h
      obtain ⟨⟨a, b⟩, hclose, hparts⟩ := h
      cases hparts
      exact ⟨.text, by rw [lexeme_of_isQuote hc, closeQuote_before hclose, Option.map_some]⟩
  | false =>
      cases rest with
      | cons d rest => exact ⟨kind, lexeme_cons_before hq hc h⟩
      | nil =>
          have happend := lexeme_append h
          obtain ⟨d, text', rfl⟩ := List.exists_cons_of_ne_nil (lexeme_ne_nil h)
          rw [List.cons_append, List.cons.injEq] at happend
          obtain ⟨rfl, htext⟩ := happend
          obtain rfl := nil_of_append_eq_cons htext
          have hafter : after = [] := by simpa using htext
          rw [hafter]
          exact lexeme_alone hc

/-- A scan that comes to a quote can be made of the text before the quote. -/
theorem Scans.before {start here : Nat} {cs left : List Char} {tokens : List Token} (h : Scans start cs tokens here left)
    (hq : isQuote q = true) {gap : List Char} (hleft : left = gap ++ q :: more) :
    ∃ front tokens', cs = front ++ q :: more ∧ Scans start front tokens' here gap ∧
      tokens'.map Token.span = tokens.map Token.span := by
  induction h with
  | stay start cs => exact ⟨gap, [], hleft, .stay start gap, rfl⟩
  | @token start here gap' rest text after left c kind tokens hgap hc hlexeme _ ih =>
      obtain ⟨front, tokens', rfl, hscans, hspans⟩ := ih hleft
      have happend := lexeme_append hlexeme
      obtain ⟨d, text', rfl⟩ := List.exists_cons_of_ne_nil (lexeme_ne_nil hlexeme)
      rw [List.cons_append, List.cons.injEq, ← List.append_assoc] at happend
      obtain ⟨rfl, rfl⟩ := happend
      obtain ⟨kind', hlexeme'⟩ := lexeme_before hq hlexeme
      refine ⟨gap' ++ d :: (text' ++ front), ⟨kind', gap', start + width gap', d :: text'⟩ :: tokens', by simp,
        .token hgap hc hlexeme' hscans, ?_⟩
      rw [List.map_cons, List.map_cons, hspans]
      rfl

end

/-! ## Where tokens lie -/

/-- The bytes of blanks: space, tab, line feed, form feed and carriage return. -/
def blankBytes : List UInt8 := [0x20, 0x09, 0x0A, 0x0C, 0x0D]

theorem mem_blankBytes {gap : List Char} (h : ∀ d ∈ gap, isBlank d = true) {b : UInt8} (hb : b ∈ encode gap) :
    b ∈ blankBytes := by
  obtain ⟨d, hd, hb⟩ := List.mem_flatMap.mp hb
  have hblank := h d hd
  simp only [isBlank, Bool.or_eq_true, beq_iff_eq] at hblank
  rcases hblank with (((rfl | rfl) | rfl) | rfl) | rfl
  all_goals
    rw [List.mem_singleton.mp hb]
    decide

/-- The byte `i` of the code is one of the token's. -/
def Token.Covers (t : Token) (i : Nat) : Prop := t.start ≤ i ∧ i < t.stop

/-- The tokens with the blanks before each of them. -/
def written (tokens : List Token) : List Char := tokens.flatMap fun t => t.gap ++ t.text

/-- Tokens lie one after the other from `start` on, each after its blanks. -/
def Laid : Nat → List Token → Prop
  | _, [] => True
  | start, t :: tokens =>
    (∀ d ∈ t.gap, isBlank d = true) ∧ t.start = start + width t.gap ∧ t.text ≠ [] ∧ Laid t.stop tokens

theorem Scans.laid {start here : Nat} {cs left : List Char} {tokens : List Token} (h : Scans start cs tokens here left) :
    Laid start tokens ∧ cs = written tokens ++ left ∧ here = start + width (written tokens) := by
  induction h with
  | stay start cs => exact ⟨trivial, rfl, rfl⟩
  | @token start here gap rest text after left c kind tokens hgap hc hlexeme _ ih =>
      obtain ⟨hlaid, rfl, rfl⟩ := ih
      refine ⟨⟨hgap, rfl, lexeme_ne_nil hlexeme, hlaid⟩, ?_, ?_⟩
      · rw [← lexeme_append hlexeme]
        simp [written]
      · simp [written, Nat.add_assoc]

variable {start : Nat} {tokens : List Token}

theorem Laid.start_le (h : Laid start tokens) {t : Token} (ht : t ∈ tokens) : start ≤ t.start := by
  induction tokens generalizing start with
  | nil => cases ht
  | cons t' tokens ih =>
      obtain ⟨-, hstart, -, hrest⟩ := h
      rcases List.mem_cons.mp ht with rfl | ht
      · omega
      · have := ih hrest ht
        simp only [Token.stop] at this
        omega

theorem Laid.token (h : Laid start tokens) {t : Token} (ht : t ∈ tokens) :
    (∀ d ∈ t.gap, isBlank d = true) ∧ t.start < t.stop := by
  induction tokens generalizing start with
  | nil => cases ht
  | cons t' tokens ih =>
      obtain ⟨hgap, -, htext, hrest⟩ := h
      rcases List.mem_cons.mp ht with rfl | ht
      · exact ⟨hgap, Nat.lt_add_of_pos_right (Text.width_pos htext)⟩
      · exact ih hrest ht

theorem Laid.ordered (h : Laid start tokens) : tokens.Pairwise fun t t' => t.stop ≤ t'.start := by
  induction tokens generalizing start with
  | nil => exact List.Pairwise.nil
  | cons t tokens ih =>
      obtain ⟨-, -, -, hrest⟩ := h
      exact List.pairwise_cons.mpr ⟨fun t' ht' => hrest.start_le ht', ih hrest⟩

/-- No byte is in two tokens. -/
theorem Laid.unique (h : Laid start tokens) {t t' : Token} (ht : t ∈ tokens) (ht' : t' ∈ tokens) {i : Nat}
    (hi : t.Covers i) (hi' : t'.Covers i) : t = t' := by
  induction tokens generalizing start with
  | nil => cases ht
  | cons t₀ tokens ih =>
      obtain ⟨-, -, -, hrest⟩ := h
      have hlater {u : Token} (hu : u ∈ tokens) : t₀.stop ≤ u.start := hrest.start_le hu
      simp only [Token.Covers] at hi hi'
      rcases List.mem_cons.mp ht with rfl | hmem
      · rcases List.mem_cons.mp ht' with rfl | hmem'
        · rfl
        · have := hlater hmem'
          omega
      · rcases List.mem_cons.mp ht' with rfl | hmem'
        · have := hlater hmem
          omega
        · exact ih hrest hmem hmem'

theorem Laid.nodup (h : Laid start tokens) : tokens.Nodup := by
  refine h.ordered.imp_of_mem ?_
  rintro t t' ht - hle rfl
  have hlt := (h.token ht).2
  omega

/-- A byte is in a token or is that of a blank. -/
theorem Laid.byte (h : Laid start tokens) {trailing : List Char} (htrailing : ∀ d ∈ trailing, isBlank d = true) {i : Nat}
    (hi : i < width (written tokens ++ trailing)) :
    (∃ t ∈ tokens, t.Covers (start + i)) ∨ ∃ b ∈ blankBytes, (encode (written tokens ++ trailing))[i]? = some b := by
  induction tokens generalizing start i with
  | nil =>
      obtain ⟨b, hb⟩ : ∃ b, (encode trailing)[i]? = some b :=
        ⟨_, List.getElem?_eq_getElem (by simpa [written] using hi)⟩
      exact Or.inr ⟨b, mem_blankBytes htrailing (List.mem_of_getElem? hb), hb⟩
  | cons t tokens ih =>
      obtain ⟨hgap, hstart, -, hrest⟩ := h
      have hwritten : written (t :: tokens) ++ trailing = t.gap ++ (t.text ++ (written tokens ++ trailing)) := by
        simp [written]
      rw [hwritten] at hi ⊢
      simp only [Text.width_append] at hi
      by_cases hbefore : i < width t.gap
      · obtain ⟨b, hb⟩ : ∃ b, (encode t.gap)[i]? = some b := ⟨_, List.getElem?_eq_getElem (by simpa using hbefore)⟩
        refine Or.inr ⟨b, mem_blankBytes hgap (List.mem_of_getElem? hb), ?_⟩
        rw [Text.encode_append, List.getElem?_append_left (by simpa using hbefore), hb]
      · by_cases hin : i < width t.gap + width t.text
        · exact Or.inl ⟨t, List.mem_cons_self, by simp only [Token.Covers, Token.stop]; omega⟩
        · -- the byte is further on, in what follows the token
          obtain ⟨j, rfl⟩ := Nat.exists_eq_add_of_le (Nat.le_of_not_lt hin)
          have hj : j < width (written tokens ++ trailing) := by
            rw [Text.width_append]
            omega
          have hat : start + (width t.gap + width t.text + j) = t.stop + j := by
            simp only [Token.stop]
            omega
          rw [hat, Text.encode_append, Text.encode_append, ← List.append_assoc,
            List.getElem?_append_right (by simp), List.length_append, Text.length_encode, Text.length_encode,
            Nat.add_sub_cancel_left]
          rcases ih hrest hj with ⟨u, hu, hcovers⟩ | hblank
          · exact Or.inl ⟨u, List.mem_cons_of_mem t hu, hcovers⟩
          · exact Or.inr hblank

theorem laid_of_lex {code : List Char} (h : lex code = .ok tokens) : Laid 0 tokens := by
  obtain ⟨here, trailing, hscans, -⟩ := scans_of_ok (lex_eq_ok_iff.mp h)
  exact hscans.laid.1

theorem lex_eq_error_iff {code : List Char} {failure : Failure} :
    lex code = .error failure ↔
      ∃ offset, failure = ⟨"Unterminated string literal", some offset⟩ ∧ lexFrom 0 code = .error offset := by
  rw [lex]
  cases lexFrom 0 code with
  | ok tokens => simp [Except.mapError]
  | error offset => simp [Except.mapError, eq_comm]

/-- If a script falls into tokens, then these stand in it one after the other, none is empty, they are the script
together with the blanks before them and after the last one, and each byte is in exactly one token or else that of
a blank. It does not exactly if the scan comes to a quote that is never closed; the failure tells where, and the
text before it falls into tokens. -/
theorem lex_lossless (code : List Char) :
    (∀ tokens, lex code = .ok tokens →
      (∀ t ∈ tokens, t.start < t.stop ∧ t.stop ≤ width code ∧ StandsAt code t.start t.text) ∧
      tokens.Pairwise (fun t t' => t.stop ≤ t'.start) ∧
      (∃ trailing, code = (tokens.flatMap fun t => t.gap ++ t.text) ++ trailing ∧ (∀ d ∈ trailing, isBlank d = true) ∧
        ∀ t ∈ tokens, ∀ d ∈ t.gap, isBlank d = true) ∧
      ∀ i < width code, (∃! t, t ∈ tokens ∧ t.Covers i) ∨
        (∀ t ∈ tokens, ¬t.Covers i) ∧ ∃ b ∈ blankBytes, (encode code)[i]? = some b) ∧
    (∀ failure, lex code = .error failure ↔
      ∃ offset, failure = ⟨"Unterminated string literal", some offset⟩ ∧ OpenQuoteAt 0 code offset) ∧
    ∀ offset, OpenQuoteAt 0 code offset →
      ∃ before after tokens, code = before ++ after ∧ width before = offset ∧ lex before = .ok tokens := by
  refine ⟨?_, ?_, ?_⟩
  · intro tokens h
    obtain ⟨here, trailing, hscans, htrailing⟩ := scans_of_ok (lex_eq_ok_iff.mp h)
    obtain ⟨hlaid, hcode, -⟩ := hscans.laid
    have hstands : ∀ t ∈ tokens, StandsAt code t.start t.text := by
      intro t ht
      obtain ⟨before, after, hsplit, hstart, -⟩ := inText_of_mem_lex h ht
      exact ⟨before, after, hsplit, by rw [hstart, Nat.zero_add]⟩
    refine ⟨fun t ht => ⟨(hlaid.token ht).2, (hstands t ht).bound, hstands t ht⟩, hlaid.ordered,
      ⟨trailing, hcode, htrailing, fun t ht => (hlaid.token ht).1⟩, ?_⟩
    intro i hi
    by_cases hcovered : ∃ t ∈ tokens, t.Covers i
    · obtain ⟨t, ht, hcovers⟩ := hcovered
      exact Or.inl ⟨t, ⟨ht, hcovers⟩, fun u hu => hlaid.unique hu.1 ht hu.2 hcovers⟩
    · refine Or.inr ⟨fun t ht hcovers => hcovered ⟨t, ht, hcovers⟩, ?_⟩
      rw [hcode] at hi ⊢
      exact (hlaid.byte htrailing hi).resolve_left (by simpa using hcovered)
  · intro failure
    simp only [lex_eq_error_iff, lexFrom_eq_error_iff]
  · rintro offset ⟨tokens, here, gap, q, rest, hscans, hgap, hquote, -, rfl⟩
    obtain ⟨front, tokens', hcode, hfront, -⟩ := hscans.before hquote rfl
    refine ⟨front, q :: rest, tokens', hcode, ?_, ?_⟩
    · obtain ⟨-, rfl, rfl⟩ := hfront.laid
      simp
    · rw [lex_eq_ok_iff, lexFrom_of_scans hfront, lexFrom_of_blank here hgap]
      simp [Except.map]

end SqfIndex.Script
