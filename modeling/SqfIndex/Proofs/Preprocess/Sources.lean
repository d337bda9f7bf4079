import SqfIndex.Proofs.Analysis.IdentifierRanges
import SqfIndex.Proofs.Preprocess.Provenance

/-!
# What a document writes itself

Code is made of the lines of the document, in which macros are expanded, and of what its directives bring in.
An identifier of the code begins in text that a line has as it is (`Written`), in what an invocation on a line
turned into (`Invoked`) or in the code of an included file (`Included`): `source_of_identifier`. One that the
document writes itself, on a line or in the body of a macro, has both its ends where it stands:
`OwnWord.located`. Whatever an include of the document by itself may bring in does not matter here.
-/

namespace SqfIndex.Preprocess

open Text (width StandsAt)

/-! ## Chunk by chunk -/

/-- How one chunk is worked off. -/
def chunkWork (r : Resolver) (enter : Option (Path → List Char → Work)) (f : Path) (offset : Nat) : Chunk → Work
  | .code text => line f offset text
  | .directive text => directive r enter f offset text

theorem chunkwise_cons (r : Resolver) (enter : Option (Path → List Char → Work)) (f : Path) (offset : Nat) (c : Chunk)
    (cs : List Chunk) :
    chunkwise r enter f offset (c :: cs) =
      (chunkWork r enter f offset c).andThen (chunkwise r enter f (offset + width c.text) cs) := by
  cases c <;> rfl

theorem chunkwise_append (r : Resolver) (enter : Option (Path → List Char → Work)) (f : Path) (offset : Nat)
    (before after : List Chunk) :
    chunkwise r enter f offset (before ++ after) =
      (chunkwise r enter f offset before).andThen (chunkwise r enter f (offset + width (before.flatMap Chunk.text)) after) := by
  induction before generalizing offset with
  | nil => funext ms; simp [chunkwise, Work.andThen]
  | cons c before ih =>
      funext ms
      rw [List.cons_append, chunkwise_cons, ih, chunkwise_cons]
      simp [Work.andThen, Nat.add_assoc]

theorem split_append {α : Type} {as bs xs ys : List α} {a : α} (h : as ++ bs = xs ++ a :: ys) :
    (∃ rest, as = xs ++ a :: rest) ∨ ∃ rest, xs = as ++ rest ∧ bs = rest ++ a :: ys := by
  rcases List.append_eq_append_iff.mp h with ⟨rest, hxs, hbs⟩ | ⟨rest, has, hys⟩
  · exact Or.inr ⟨rest, hxs, hbs⟩
  · cases rest with
    | nil => exact Or.inr ⟨[], by simpa using has.symm, by simpa using hys.symm⟩
    | cons b rest =>
        cases hys
        exact Or.inl ⟨rest, has⟩

/-- Every piece comes from one of the chunks. -/
theorem exists_chunk_of_piece {r : Resolver} {enter : Option (Path → List Char → Work)} {f : Path} {offset : Nat}
    {cs : List Chunk} {ms : Macros} {xs ys : List Piece} {q : Piece}
    (h : (chunkwise r enter f offset cs ms).1 = xs ++ q :: ys) :
    ∃ before c after front back, cs = before ++ c :: after ∧
      xs = (chunkwise r enter f offset before ms).1 ++ front ∧
      (chunkWork r enter f (offset + width (before.flatMap Chunk.text)) c (chunkwise r enter f offset before ms).2).1 =
        front ++ q :: back := by
  induction cs using List.reverseRecOn generalizing xs ys with
  | nil => simp [chunkwise] at h
  | append_singleton cs c ih =>
      rw [chunkwise_append, chunkwise_cons] at h
      simp only [Work.andThen, chunkwise, List.append_nil] at h
      rcases split_append h with ⟨rest, hbefore⟩ | ⟨rest, hxs, hlast⟩
      · obtain ⟨before, c', after, front, back, rfl, hxs, hwork⟩ := ih hbefore
        exact ⟨before, c', after ++ [c], front, back, by simp, hxs, hwork⟩
      · exact ⟨cs, c, [], rest, ys, rfl, hxs, hlast⟩

/-! ## Sources -/

section

variable (r : Resolver) (file : Path) (text : List Char)

/-- What the first chunks of the document become, and the macros in force after them. -/
def worked (before : List Chunk) : List Piece × Macros :=
  chunkwise r (some (work r (depthLimit - 1))) file 0 before []

/-- The piece begins at `start` of the code, on a line of the document. -/
def OnLine (start : Nat) (q : Piece) : Prop :=
  ∃ before code after front back, chunks text = before ++ .code code :: after ∧
    piecesOf file (width (before.flatMap Chunk.text)) (fragments (worked r file before).2 code) = front ++ q :: back ∧
    start = width (codeOf ((worked r file before).1 ++ front))

/-- Byte `p` of the code stands on a line of the document as it is. -/
def Written (p : Nat) : Prop :=
  ∃ start offset part, OnLine r file text start (.copied file offset part) ∧ start ≤ p ∧ p < start + width part

/-- Byte `p` of the code lies in what an invocation on a line of the document turned into. -/
def Invoked (p : Nat) : Prop :=
  ∃ start offset written m part, OnLine r file text start (.expanded file offset written m part) ∧
    start ≤ p ∧ p < start + width part

/-- Byte `p` of the code lies in the code of a text that a directive of the document includes. -/
def Included (p : Nat) : Prop :=
  ∃ before d after requested path t, chunks text = before ++ .directive d :: after ∧
    readCommand file (width (before.flatMap Chunk.text)) d = .fetch requested ∧
    fetch r true file requested = .ok (path, t) ∧
    let start := width (codeOf (worked r file before).1) + width d +
      width (codeOf (leadIn file (width (before.flatMap Chunk.text)) d))
    start ≤ p ∧ p < start + width (codeOf (work r (depthLimit - 1) path t (worked r file before).2).1)

/-- The bytes from `p` to `stop` of the code lie within what an invocation on a line of the document turned into,
and more of it follows. The macro has no parameters, and a directive of the document defines it with a body on
one line. -/
def InBody (p stop : Nat) : Prop :=
  ∃ start offset written m part c d record body, OnLine r file text start (.expanded file offset written m part) ∧
    start ≤ p ∧ stop < start + width part ∧ m.params = none ∧ HasChunk text c (.directive d) ∧
    readCommand file c d = .define m record ∧ StandsAt text m.offset body ∧ width body = m.extent ∧ '\n' ∉ body ∧
    body.getLast? ≠ some '\\'

/-- The document itself has the word, on a line or in the body of a macro. -/
def OwnWord (t : Script.Token) : Prop := Written r file text t.start ∨ InBody r file text t.start t.stop

end

variable {r : Resolver} {file : Path} {text : List Char} {p start : Nat} {q : Piece}

theorem pieces_eq (r : Resolver) (file : Path) (text : List Char) : pieces r file text = (worked r file (chunks text)).1 := rfl

theorem OnLine.covers (h : OnLine r file text start q) (hle : start ≤ p) (hlt : p < start + q.size) :
    Covers (pieces r file text) p start q := by
  obtain ⟨before, code, after, front, back, hchunks, hline, rfl⟩ := h
  refine ⟨mem_placed_iff.mpr ⟨(worked r file before).1 ++ front, ?_, ?_, rfl⟩, hle, hlt⟩
  · exact back ++ (chunkwise r (some (work r (depthLimit - 1))) file
      (width (before.flatMap Chunk.text) + width code) after (worked r file before).2).1
  · rw [pieces_eq, hchunks, worked, chunkwise_append, chunkwise_cons]
    simp only [Work.andThen, chunkWork, line, Nat.zero_add, Chunk.text]
    rw [show chunkwise r (some (work r (depthLimit - 1))) file 0 before [] = worked r file before from rfl, hline]
    simp

theorem isSeparator_of_mem_leadIn {f : Path} {offset : Nat} {d : List Char} (h : q ∈ leadIn f offset d) : q.kind = .separator := by
  unfold leadIn at h
  split at h
  · cases h
  · rw [List.mem_singleton.mp h]
    rfl

theorem isSeparator_of_mem_leadOut {f : Path} {t : List Char} (h : q ∈ leadOut f t) : q.kind = .separator := by
  unfold leadOut at h
  split at h
  · cases h
  · rw [List.mem_singleton.mp h]
    rfl

/-- A piece on a line is text of it or what an invocation turned into. -/
theorem OnLine.source (h : OnLine r file text start q) (hle : start ≤ p) (hlt : p < start + q.size) :
    Written r file text p ∨ Invoked r file text p := by
  obtain ⟨before, code, after, front, back, hchunks, hline, hstart⟩ := h
  have hmem : q ∈ piecesOf file (width (before.flatMap Chunk.text)) (fragments (worked r file before).2 code) := by
    rw [hline]
    simp
  obtain ⟨_, fragment, _, -, rfl⟩ := exists_fragment_of_mem_piecesOf hmem
  cases fragment with
  | plain part => exact Or.inl ⟨start, _, part, ⟨before, code, after, front, back, hchunks, hline, hstart⟩, hle, hlt⟩
  | invocation m written part =>
      exact Or.inr ⟨start, _, written, m, part, ⟨before, code, after, front, back, hchunks, hline, hstart⟩, hle, hlt⟩

/-- A piece that a directive leaves is blank, or it lies in the code of the included text. -/
theorem source_of_directive {before after : List Chunk} {d : List Char} {front back : List Piece}
    (hchunks : chunks text = before ++ .directive d :: after)
    (hwork : (directive r (some (work r (depthLimit - 1))) file (width (before.flatMap Chunk.text)) d
      (worked r file before).2).1 = front ++ q :: back)
    (hle : width (codeOf ((worked r file before).1 ++ front)) ≤ p)
    (hlt : p < width (codeOf ((worked r file before).1 ++ front)) + q.size) :
    (q.kind = .blanked ∨ q.kind = .separator) ∨ Included r file text p := by
  rcases directive_cases r (some (work r (depthLimit - 1))) file (width (before.flatMap Chunk.text)) d
      (worked r file before).2 with hsingle | ⟨enter, requested, path, t, henter, hread, hfetch, hentered⟩
  · rw [hsingle] at hwork
    have hq : q ∈ front ++ q :: back := by simp
    rw [← hwork] at hq
    rw [List.mem_singleton.mp hq]
    exact Or.inl (Or.inl rfl)
  · cases henter
    rw [hentered] at hwork
    rcases split_append hwork with ⟨rest, hbefore⟩ | ⟨rest, -, hlast⟩
    · rcases split_append hbefore with ⟨rest, hlead⟩ | ⟨inner, rfl, hinside⟩
      · have hq : q ∈ front ++ q :: rest := by simp
        rw [← hlead] at hq
        rcases List.mem_cons.mp hq with rfl | hq
        · exact Or.inl (Or.inl rfl)
        · exact Or.inl (Or.inr (isSeparator_of_mem_leadIn hq))
      · refine Or.inr ⟨before, d, after, requested, path, t, hchunks, hread, hfetch, ?_⟩
        have hwidth : width (codeOf (work r (depthLimit - 1) path t (worked r file before).2).1) =
            width (codeOf inner) + q.size + width (codeOf rest) := by
          rw [hinside]
          simp [q.width_code, Nat.add_assoc]
        simp only [List.cons_append, codeOf_append, codeOf_cons, Text.width_append, Piece.code, width_blank] at hle hlt
        constructor
        · omega
        · omega
    · have hq : q ∈ rest ++ q :: back := by simp
      rw [← hlast] at hq
      exact Or.inl (Or.inr (isSeparator_of_mem_leadOut hq))

/-- A byte that is not blank has one of the three sources. -/
theorem source_of_covers (h : Covers (pieces r file text) p start q) :
    (q.kind = .blanked ∨ q.kind = .separator) ∨
      Written r file text p ∨ Invoked r file text p ∨ Included r file text p := by
  obtain ⟨xs, ys, hpieces, rfl⟩ := mem_placed_iff.mp h.mem
  obtain ⟨before, c, after, front, back, hchunks, hxs, hwork⟩ := exists_chunk_of_piece hpieces
  rw [Nat.zero_add] at hwork
  have hstart : width (codeOf xs) = width (codeOf ((worked r file before).1 ++ front)) := by rw [hxs]; rfl
  have hle := h.le
  have hlt := h.lt
  cases c with
  | code line =>
      have honline : OnLine r file text (width (codeOf xs)) q := ⟨before, line, after, front, back, hchunks, hwork, hstart⟩
      rcases honline.source hle hlt with h | h
      · exact Or.inr (Or.inl h)
      · exact Or.inr (Or.inr (Or.inl h))
  | directive d =>
      rw [hstart] at hle hlt
      rcases source_of_directive hchunks hwork hle hlt with h | h
      · exact Or.inl h
      · exact Or.inr (Or.inr (Or.inr h))

/-! ## Identifiers -/

theorem mem_blank {c : Char} {t : List Char} (h : c ∈ blank t) : c = '\n' ∨ c = ' ' := by
  obtain ⟨d, -, hc⟩ := List.mem_flatMap.mp h
  split at hc
  · exact Or.inl (List.mem_singleton.mp hc)
  · exact Or.inr (List.eq_of_mem_replicate hc)

theorem isWordStart_of_mem_code {c : Char} (hc : c ∈ q.code) (hq : q.kind = .blanked ∨ q.kind = .separator) :
    Script.isWordStart c = false := by
  have hblank : c = '\n' ∨ c = ' ' := by
    cases q with
    | copied => simp [Piece.kind] at hq
    | expanded => simp [Piece.kind] at hq
    | directive f offset d effect => exact mem_blank hc
    | separator f offset => exact Or.inl (List.mem_singleton.mp hc)
  rcases hblank with rfl | rfl <;> decide

/-- What begins within a piece begins with a character of it. -/
theorem head_mem_code {before after : List Piece} {c : Char} {front back : List Char}
    (hcode : codeOf (before ++ q :: after) = front ++ c :: back) (hle : width (codeOf before) ≤ width front)
    (hlt : width front < width (codeOf before) + q.size) : c ∈ q.code := by
  rw [codeOf_append, codeOf_cons] at hcode
  obtain ⟨inner, rfl, hrest⟩ := Text.exists_append_of_width_le hcode hle
  rw [Text.width_append] at hlt
  rcases split_append hrest with ⟨rest, hq⟩ | ⟨rest, hinner, -⟩
  · simp [hq]
  · rw [hinner, Text.width_append, q.width_code] at hlt
    omega

theorem exists_covering_identifier {tokens : List Script.Token}
    (hlex : Script.lex (preprocess r file text).code = .ok tokens) {t : Script.Token} (ht : t ∈ tokens)
    (hkind : t.kind = .identifier) :
    ∃ start q c, Covers (pieces r file text) t.start start q ∧ c ∈ q.code ∧ Script.isWordStart c = true := by
  obtain ⟨front, back, hcode, hstart, hword⟩ := Script.inText_of_mem_lex hlex ht
  rw [Nat.zero_add] at hstart
  have hword := (hword hkind).1
  cases htext : t.text with
  | nil => rw [htext] at hword; cases hword
  | cons c rest =>
      rw [htext] at hcode hword
      have hcode' : codeOf (pieces r file text) = front ++ c :: (rest ++ back) := by
        rw [show codeOf (pieces r file text) = (preprocess r file text).code from rfl, hcode]
        simp
      have hlt : t.start < width (codeOf (pieces r file text)) := by
        have := c.utf8Size_pos
        rw [hcode', hstart, Text.width_append, Text.width_cons]
        omega
      obtain ⟨start, q, hq⟩ := exists_covering hlt
      obtain ⟨before, after, hpieces, rfl⟩ := mem_placed_iff.mp hq.mem
      refine ⟨_, q, c, hq, head_mem_code (hpieces ▸ hcode') (hstart ▸ hq.le) (hstart ▸ hq.lt), ?_⟩
      simp only [Script.isIdentifier, Bool.and_eq_true] at hword
      exact hword.1

theorem source_of_identifier {tokens : List Script.Token} (hlex : Script.lex (preprocess r file text).code = .ok tokens)
    {t : Script.Token} (ht : t ∈ tokens) (hkind : t.kind = .identifier) :
    Written r file text t.start ∨ Invoked r file text t.start ∨ Included r file text t.start := by
  obtain ⟨start, q, c, hq, hmem, hword⟩ := exists_covering_identifier hlex ht hkind
  rcases source_of_covers hq with hblank | h
  · -- a word does not begin with a blank
    rw [isWordStart_of_mem_code hmem hblank] at hword
    cases hword
  · exact h

theorem resolve?_identifier {tokens : List Script.Token} (hlex : Script.lex (preprocess r file text).code = .ok tokens)
    {t : Script.Token} (ht : t ∈ tokens) (hkind : t.kind = .identifier) :
    ∃ f o, (preprocess r file text).map.resolve? t.start = some (f, o) := by
  obtain ⟨start, q, c, hq, -, -⟩ := exists_covering_identifier hlex ht hkind
  obtain ⟨f, hf, -⟩ := hq.resolve?.exists_some
  exact ⟨f, _, hf⟩

/-! ## Words of the document itself -/

theorem OnLine.standsAt {f : Path} {offset : Nat} {part : List Char} (h : OnLine r file text start (.copied f offset part)) :
    StandsAt text offset part := by
  obtain ⟨before, code, after, front, back, hchunks, hline, -⟩ := h
  have hmem : Piece.copied f offset part ∈
      piecesOf file (width (before.flatMap Chunk.text)) (fragments (worked r file before).2 code) := by
    rw [hline]
    simp
  obtain ⟨earlier, fragment, later, hfragments, hpiece⟩ := exists_fragment_of_mem_piecesOf hmem
  cases fragment with
  | invocation m written part => cases hpiece
  | plain part =>
      cases hpiece
      have hcode : StandsAt code (width (earlier.flatMap Fragment.written)) part := by
        refine ⟨earlier.flatMap Fragment.written, later.flatMap Fragment.written, ?_, rfl⟩
        rw [← flatMap_written_fragments (worked r file before).2 code, hfragments]
        simp [Fragment.written]
      have hchunk : HasChunk text (width (before.flatMap Chunk.text)) (.code code) := ⟨before, after, hchunks, rfl⟩
      exact hchunk.standsAt.trans hcode

/-- The word stands in the document, and the source map leads both its ends there. -/
def Located (r : Resolver) (file : Path) (text : List Char) (t : Script.Token) : Prop :=
  ∃ front back, text = front ++ t.text ++ back ∧
    SameAnswer ((preprocess r file text).map.resolve? t.start) (some (file, width front)) ∧
    SameAnswer ((preprocess r file text).map.resolve? t.stop) (some (file, width front + width t.text))

section

variable {tokens : List Script.Token} {t : Script.Token}

theorem Written.located (hlex : Script.lex (preprocess r file text).code = .ok tokens) (ht : t ∈ tokens)
    (hkind : t.kind = .identifier) (h : Written r file text t.start) : Located r file text t := by
  obtain ⟨codeFront, codeBack, hcode, hstart, hword⟩ := Script.inText_of_mem_lex hlex ht
  have hword := (hword hkind).1
  rw [Nat.zero_add] at hstart
  obtain ⟨start, offset, part, honline, hle, hlt⟩ := h
  obtain ⟨before, after, hpieces, rfl⟩ := mem_placed_iff.mp (honline.covers hle hlt).mem
  have hclosed := closed_pieces r file text
  rw [hpieces] at hclosed
  have hcode' : codeOf (before ++ .copied file offset part :: after) = codeFront ++ t.text ++ codeBack := hpieces ▸ hcode
  rw [hstart] at hle hlt
  -- the word ends in the piece in which it begins
  obtain ⟨inner, rest, rfl, rfl⟩ := hclosed.identifier hword hcode' hle hlt
  obtain ⟨front, back, htext, hoffset⟩ := honline.standsAt.trans ⟨inner, rest, rfl, rfl⟩
  obtain ⟨hresolve, hresolve'⟩ := hclosed.resolve?_identifier hword
  rw [Text.width_append] at hstart
  rw [hoffset, ← hstart, ← hpieces] at hresolve hresolve'
  exact ⟨front, back, htext, hresolve, hresolve'⟩

/-- What an invocation of a macro without parameters turns into is the body on its one line. -/
theorem part_eq_body {offset : Nat} {written part body : List Char} {m : Macro} {c : Nat} {d : List Char} {record : MacroRecord}
    (htraced : (Piece.expanded file offset written m part).Traced r file text) (hparams : m.params = none)
    (hchunk : HasChunk text c (.directive d)) (hread : readCommand file c d = .define m record)
    (hbody : StandsAt text m.offset body) (hextent : width body = m.extent) (hline : '\n' ∉ body)
    (hslash : body.getLast? ≠ some '\\') : part = body := by
  obtain ⟨-, -, after, i, hinvoke, rfl⟩ := htraced
  obtain ⟨inner, body', hinner, hoffset, hextent', hjoin, hspace⟩ := body_of_readCommand hread
  have hsame : body = body' := hbody.unique (hoffset ▸ hchunk.standsAt.trans hinner) (hextent.trans hextent')
  subst hsame
  rw [Macro.expansion_of_params_none hparams hinvoke, hjoin, joinBody_of_oneLine hline hslash hspace]

theorem InBody.located (hlex : Script.lex (preprocess r file text).code = .ok tokens) (ht : t ∈ tokens)
    (h : InBody r file text t.start t.stop) : Located r file text t := by
  obtain ⟨codeFront, codeBack, hcode, hstart, -⟩ := Script.inText_of_mem_lex hlex ht
  rw [Nat.zero_add] at hstart
  obtain ⟨start, offset, written, m, part, c, d, record, body, honline, hle, hstop, hparams, hchunk, hread, hbody, hextent,
    hline, hslash⟩ := h
  have hwithin : t.stop = t.start + width t.text := rfl
  have hcovers := honline.covers (p := t.start) hle (by simp only [Piece.size]; omega)
  have hcovers' := honline.covers (p := t.stop) (by omega) hstop
  have hpart := part_eq_body (traced_of_covers hcovers) hparams hchunk hread hbody hextent hline hslash
  subst hpart
  obtain ⟨before, after, hpieces, rfl⟩ := mem_placed_iff.mp hcovers.mem
  have hcode' : codeOf before ++ (part ++ codeOf after) = codeFront ++ (t.text ++ codeBack) := by
    have : codeOf (pieces r file text) = codeFront ++ t.text ++ codeBack := hcode
    rw [hpieces] at this
    simpa [Piece.code] using this
  -- the word lies in the body as a whole
  obtain ⟨inner, rfl, hrest⟩ := Text.exists_append_of_width_le hcode' (by omega)
  rw [Text.width_append] at hstart
  rw [← List.append_assoc] at hrest
  obtain ⟨rest, rfl, -⟩ := Text.exists_append_of_width_le hrest.symm (by rw [Text.width_append]; omega)
  obtain ⟨front, back, htext, hoffset⟩ := hbody.trans ⟨inner, rest, rfl, rfl⟩
  have hfile : m.file = file := file_of_readCommand hread
  simp only [Text.width_append] at hextent
  have hfirst : t.start - width (codeOf before) = width inner := by omega
  have hlast : t.stop - width (codeOf before) = width inner + width t.text := by omega
  have hresolve := hcovers.resolve?
  have hresolve' := hcovers'.resolve?
  rw [Piece.origin, hfile, hfirst, Nat.min_eq_left (by omega), hoffset] at hresolve
  rw [Piece.origin, hfile, hlast, Nat.min_eq_left (by omega), ← Nat.add_assoc, hoffset] at hresolve'
  exact ⟨front, back, htext, hresolve, hresolve'⟩

theorem OwnWord.located (hlex : Script.lex (preprocess r file text).code = .ok tokens) (ht : t ∈ tokens)
    (hkind : t.kind = .identifier) (h : OwnWord r file text t) : Located r file text t := by
  rcases h with h | h
  · exact h.located hlex ht hkind
  · exact h.located hlex ht

end

end SqfIndex.Preprocess
