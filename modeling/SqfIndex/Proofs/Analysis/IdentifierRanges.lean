import SqfIndex.Proofs.Position.LineIndex
import SqfIndex.Proofs.Position.Mapper
import SqfIndex.Proofs.Preprocess.Placement
import SqfIndex.Proofs.Preprocess.Words

/-!
# Ranges of identifiers that are written in a file

An identifier of the code that begins in copied text lies in one copied piece. Both its ends have
places in the file of that piece, and so its range is exact: `identifier_ranges_exact`.
-/

namespace SqfIndex.Preprocess

open Text (width)

/-! ## What follows a word -/

theorem Follows.head? {f : Path} {stop : Nat} {ps : List Piece} (h : Follows f stop ps) {c : Char}
    (hc : (codeOf ps).head? = some c) : Script.isWordChar c = false := by
  cases ps with
  | nil => cases hc
  | cons p ps =>
      cases p with
      | copied g offset part =>
          obtain ⟨_, _, d, rest, rfl, hd⟩ := h
          cases hc
          exact hd
      | separator g offset => cases hc; decide
      | expanded => exact h.elim
      | directive => exact h.elim

/-- The end of a piece that is followed properly has its place right after the piece. -/
theorem Follows.resolve? {f : Path} {offset : Nat} {part : List Char} {after : List Piece} (before : List Piece)
    (h : Follows f (offset + width part) after) (hpart : part ≠ []) :
    SameAnswer ((ofPieces (before ++ .copied f offset part :: after)).map.resolve? (width (codeOf before) + width part))
      (some (f, offset + width part)) := by
  -- the end of the piece is the start of the next one
  have hnext (q : Piece) (after' : List Piece) (hq : 0 < q.size) :
      SameAnswer ((ofPieces (before ++ .copied f offset part :: q :: after')).map.resolve?
        (width (codeOf before) + width part)) (some (q.origin 0)) := by
    have hr := resolve?_piece (before ++ [.copied f offset part]) after' q (i := 0) hq (Nat.zero_le _) (Or.inr hq)
    simpa [Piece.code] using hr
  cases after with
  | nil => exact resolve?_piece before [] (.copied f offset part) (Text.width_pos hpart) (Nat.le_refl _) (Or.inl rfl)
  | cons q after =>
      cases q with
      | copied g o next =>
          obtain ⟨rfl, rfl, c, rest, rfl, _⟩ := h
          exact hnext _ after (Text.width_pos (List.cons_ne_nil c rest))
      | separator g o =>
          obtain ⟨rfl, rfl⟩ := h
          exact hnext _ after Nat.one_pos
      | expanded => exact h.elim
      | directive => exact h.elim

/-! ## Identifiers in pieces -/

/-- An identifier that begins in a copied piece ends in it, if words are closed. -/
theorem Closed.identifier {before after : List Piece} {f : Path} {offset : Nat} {part w front back : List Char}
    (h : Closed (before ++ .copied f offset part :: after)) (hw : Script.isIdentifier w = true)
    (hcode : codeOf (before ++ .copied f offset part :: after) = front ++ w ++ back)
    (hle : width (codeOf before) ≤ width front) (hlt : width front < width (codeOf before) + width part) :
    ∃ inner rest, part = inner ++ w ++ rest ∧ front = codeOf before ++ inner := by
  rw [codeOf_append, codeOf_cons, List.append_assoc] at hcode
  obtain ⟨inner, rfl, hfront⟩ := Text.exists_append_of_width_le hcode hle
  rw [Text.width_append] at hlt
  obtain ⟨tail, hpart, htail⟩ := Text.exists_append_of_width_le hfront.symm (by simp only [Piece.code]; omega)
  simp only [Piece.code] at hpart
  subst hpart
  have hne : tail ≠ [] := by
    rintro rfl
    simp at hlt
  rcases List.append_eq_append_iff.mp htail with ⟨rest, rfl, _⟩ | ⟨rest, rfl, hafter⟩
  · exact ⟨inner, rest, by simp, rfl⟩
  · cases rest with
    | nil => exact ⟨inner, [], by simp, rfl⟩
    | cons c rest =>
        -- the piece would end within the word
        have hend : EndsInWord (inner ++ tail) := ⟨tail, List.suffix_append _ _, Script.isIdentifier_of_append hw hne⟩
        have hover := (h.follows hend).head? (c := c) (by rw [hafter]; rfl)
        rw [Script.isWordChar_of_mem hw (by simp)] at hover
        cases hover

/-- Both ends of an identifier in a copied piece have their places in the file of the piece. -/
theorem Closed.resolve?_identifier {before after : List Piece} {f : Path} {offset : Nat} {inner w rest : List Char}
    (h : Closed (before ++ .copied f offset (inner ++ w ++ rest) :: after)) (hw : Script.isIdentifier w = true) :
    SameAnswer ((ofPieces (before ++ .copied f offset (inner ++ w ++ rest) :: after)).map.resolve?
      (width (codeOf before) + width inner)) (some (f, offset + width inner)) ∧
    SameAnswer ((ofPieces (before ++ .copied f offset (inner ++ w ++ rest) :: after)).map.resolve?
      (width (codeOf before) + width inner + width w)) (some (f, offset + width inner + width w)) := by
  have hpos : 0 < width w := Text.width_pos (by rintro rfl; cases hw)
  have hsize : (Piece.copied f offset (inner ++ w ++ rest)).size = width inner + width w + width rest := by
    simp [Piece.size, Nat.add_assoc]
  constructor
  · exact resolve?_piece before after _ (by omega) (by omega) (Or.inr (by omega))
  · by_cases hrest : rest = []
    · subst hrest
      have hend : EndsInWord (inner ++ w ++ []) := ⟨w, by simp, hw⟩
      have hr := (h.follows hend).resolve? before hend.ne_nil
      simpa [Nat.add_assoc] using hr
    · have := Text.width_pos hrest
      have hr := resolve?_piece before after (.copied f offset (inner ++ w ++ rest)) (i := width inner + width w)
        (by omega) (by omega) (Or.inr (by omega))
      simpa only [Piece.origin, Nat.add_assoc] using hr

/-! ## Ranges -/

/-- Every file has one text, for includes and for the reader alike, however its path is written. -/
structure FixedTexts (r : Resolver) (read : Reader) (file : Path) (text : List Char) : Prop where
  document : Consistent r file text
  others : ∀ {path f t}, path.same f = true → f.same file = false → r.load f = .ok t → read path = .ok t

section

variable {r : Resolver} {read : Reader} {file f : Path} {text : List Char}

theorem FixedTexts.readsFrom (h : FixedTexts r read file text) :
    Mapper.ReadsFrom (textOf r file text) read file text where
  document := by
    intro f t hsame ht
    rw [textOf, if_pos hsame] at ht
    cases ht; rfl
  others := by
    intro path f t hsame hother ht
    rw [textOf, hother, if_neg Bool.false_ne_true] at ht
    cases hload : r.load f with
    | error e => rw [hload] at ht; cases ht
    | ok t' =>
        rw [hload] at ht
        cases ht
        exact h.others hsame hother hload

/-- A span both ends of which have places in one file has the range that counting in the file gives. -/
theorem lookupSpan_of_resolve? (h : FixedTexts r read file text) {map : SourceMap} {front part back : List Char}
    {span : Span} (hsource : textOf r file text f = some (front ++ part ++ back))
    (hstart : SameAnswer (map.resolve? span.start) (some (f, width front)))
    (hstop : SameAnswer (map.resolve? span.stop) (some (f, width front + width part))) (paths : List Path) :
    ∃ g, g.same f = true ∧
      (Frame.lookupSpan { map, base := file } read ((Mapper.preload {} file text).loadAll read paths) span).1 =
        (g, ⟨Position.after front, Position.after (front ++ part)⟩) := by
  obtain ⟨g, hg, hsame⟩ := hstart.exists_some
  obtain ⟨g', hg', hsame'⟩ := hstop.exists_some
  have hfaithful := ((Mapper.Faithful.preload h.readsFrom).loadAll h.readsFrom paths).loadAll h.readsFrom [g, g']
  have hkept {p : Path} (hp : p ∈ [g, g']) := @Mapper.isSome_lines?_loadAll read
    ((Mapper.preload {} file text).loadAll read paths) [g, g'] p (Or.inl hp)
  refine ⟨g, hsame, ?_⟩
  have hbetween := LineIndex.position_between (front ++ part) back
  have hbetween' := LineIndex.position_between front (part ++ back)
  rw [Text.width_append] at hbetween
  rw [← List.append_assoc] at hbetween'
  simp only [Frame.lookupSpan, Frame.placeSpan, Frame.place, Frame.filesOf, Frame.target, hg, hg', Option.getD_some]
  rw [hfaithful.position (hkept (by simp)) hsame hsource, hfaithful.position (hkept (by simp)) hsame' hsource,
    hbetween, hbetween']

/-- An identifier whose first byte is copied from a file stands there as a whole, at the place that the
source map gives for its start; its end has the place after it, and its range is that of its text in
the file. -/
theorem identifier_ranges_exact (h : FixedTexts r read file text) {tokens : List Script.Token}
    (hlex : Script.lex (preprocess r file text).code = .ok tokens) {t : Script.Token} (ht : t ∈ tokens)
    (hkind : t.kind = .identifier) {start offset : Nat} {part : List Char}
    (hcopied : Covers (pieces r file text) t.start start (.copied f offset part)) (paths : List Path) :
    ∃ front back, textOf r file text f = some (front ++ t.text ++ back) ∧
      width front = offset + (t.start - start) ∧
      (∀ p, t.start ≤ p → p < t.stop → Covers (pieces r file text) p start (.copied f offset part)) ∧
      SameAnswer ((preprocess r file text).map.resolve? t.start) (some (f, width front)) ∧
      SameAnswer ((preprocess r file text).map.resolve? t.stop) (some (f, width front + width t.text)) ∧
      ∃ g, g.same f = true ∧
        (Frame.lookupSpan { map := (preprocess r file text).map, base := file } read
            ((Mapper.preload {} file text).loadAll read paths) t.span).1 =
          (g, ⟨Position.after front, Position.after (front ++ t.text)⟩) := by
  obtain ⟨codeFront, codeBack, hcode, hstart, hword⟩ := Script.inText_of_mem_lex hlex ht
  obtain ⟨hword, _⟩ := hword hkind
  rw [Nat.zero_add] at hstart
  obtain ⟨before, after, hpieces, rfl⟩ := mem_placed_iff.mp hcopied.mem
  have hle := hcopied.le
  have hlt := hcopied.lt
  have hclosed := closed_pieces r file text
  rw [hpieces] at hclosed
  have hcode' : codeOf (before ++ .copied f offset part :: after) = codeFront ++ t.text ++ codeBack := hpieces ▸ hcode
  rw [hstart] at hle hlt
  obtain ⟨inner, rest, rfl, rfl⟩ := hclosed.identifier hword hcode' hle hlt
  -- the piece stands in its file, and the identifier in the piece
  obtain ⟨depth, source, hr, hin⟩ := (traced_law r file text).pieces (.copied f offset (inner ++ t.text ++ rest))
    (by simp [hpieces])
  obtain ⟨front, back, hsource, hoffset⟩ := hin.standsAt.trans ⟨inner, rest, rfl, rfl⟩
  have htext : textOf r file text f = some (front ++ t.text ++ back) := hsource ▸ hr.textOf h.document
  rw [Text.width_append] at hstart
  obtain ⟨hresolve, hresolve'⟩ := hclosed.resolve?_identifier hword
  rw [hoffset, ← hstart] at hresolve hresolve'
  rw [← hpieces] at hresolve hresolve'
  refine ⟨front, back, htext, by omega, ?_, hresolve, hresolve', lookupSpan_of_resolve? h htext hresolve hresolve' paths⟩
  intro p hp hp'
  refine ⟨hcopied.mem, by omega, ?_⟩
  simp only [Piece.size, Text.width_append, Script.Token.stop] at hp' ⊢
  omega

end

/-! ## A sample -/

/-- Reads the one file that the sample includes. -/
def sampleReader : Reader := fun path => if path.same (.ofText "lib") then .ok "v".toList else .error .notFound

theorem sample_fixedTexts : FixedTexts sampleResolver sampleReader (.ofText "main") sampleText where
  document := sample_consistent
  others := by
    intro path f t hsame _ hload
    cases hf : f.same (.ofText "lib") with
    | false => simp [sampleResolver, hf] at hload
    | true =>
        simp only [sampleResolver, hf, ↓reduceIte] at hload
        cases hload
        simp [sampleReader, Path.same_trans hsame hf]

def sampleTokens : List Script.Token :=
  (Script.lex (preprocess sampleResolver (.ofText "main") sampleText).code).toOption.getD []

/-- The identifier that the sample includes. -/
def sampleToken : Script.Token :=
  ⟨.identifier, (preprocess sampleResolver (.ofText "main") sampleText).code.takeWhile Text.isBlank, 27, ['v']⟩

theorem sample_identifier_range :
    sampleToken ∈ sampleTokens ∧ ∃ front back, textOf sampleResolver (.ofText "main") sampleText (.ofText "lib") =
        some (front ++ ['v'] ++ back) ∧
      width front = 0 + (27 - 27) ∧
      (∀ p, 27 ≤ p → p < 28 →
        Covers (pieces sampleResolver (.ofText "main") sampleText) p 27 (.copied (.ofText "lib") 0 ['v'])) ∧
      SameAnswer ((preprocess sampleResolver (.ofText "main") sampleText).map.resolve? 27)
        (some (.ofText "lib", width front)) ∧
      SameAnswer ((preprocess sampleResolver (.ofText "main") sampleText).map.resolve? 28)
        (some (.ofText "lib", width front + width ['v'])) ∧
      ∃ g, g.same (.ofText "lib") = true ∧
        (Frame.lookupSpan { map := (preprocess sampleResolver (.ofText "main") sampleText).map, base := .ofText "main" }
            sampleReader ((Mapper.preload {} (.ofText "main") sampleText).loadAll sampleReader []) sampleToken.span).1 =
          (g, ⟨Position.after front, Position.after (front ++ ['v'])⟩) :=
  have ht : sampleToken ∈ sampleTokens := by decide +kernel
  ⟨ht, @identifier_ranges_exact _ _ _ (.ofText "lib") _ sample_fixedTexts sampleTokens (by decide +kernel) sampleToken ht
    rfl 27 0 ['v'] ⟨by decide +kernel, by decide +kernel, by decide +kernel⟩ []⟩

end SqfIndex.Preprocess
