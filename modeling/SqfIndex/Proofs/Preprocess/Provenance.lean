import SqfIndex.Proofs.Preprocess.Placement
import SqfIndex.Proofs.Preprocess.Trace
import SqfIndex.Proofs.Text.Ends

/-!
# Where every byte of the code comes from

Each byte of preprocessed code is copied from a line of code, blanked from a directive, part of the
expansion of a macro, or a line feed put around an include, and the source map gives its place:
`byte_provenance`.
-/

namespace SqfIndex.Preprocess

open Text (width encode StandsAt)

/-! ## Bodies of macros -/

theorem trimEnd_prefix (cs : List Char) : Text.trimEnd cs <+: cs := by
  have h := List.dropWhile_suffix (p := Text.isSpace) (l := cs.reverse)
  simpa [Text.trimEnd, Text.dropEndWhile] using List.reverse_prefix.mpr h

theorem lines_of_notMem {cs : List Char} (h : '\n' ∉ cs) (hne : cs ≠ []) : Text.lines cs = [cs] := by
  have hraw : Text.rawLines cs = [cs] := by
    induction cs with
    | nil => exact absurd rfl hne
    | cons c cs ih =>
        have hc : c ≠ '\n' := fun he => h (he ▸ List.mem_cons_self)
        cases cs with
        | nil => simp [Text.rawLines, hc]
        | cons d cs =>
            have := ih (fun hm => h (List.mem_cons_of_mem _ hm)) (by simp)
            rw [Text.rawLines, this]
            simp [hc]
  have hchomp : Text.chomp cs = cs := by
    unfold Text.chomp
    split
    · next hr => exact absurd (List.mem_reverse.mp (hr ▸ List.mem_cons_self)) h
    · next hr => exact absurd (List.mem_reverse.mp (hr ▸ List.mem_cons_self)) h
    · rfl
  simp [Text.lines, hraw, hchomp]

/-- A body on one line that does not end in a backslash is put in as it is written. -/
theorem joinBody_of_oneLine {body : List Char} (h : '\n' ∉ body) (hslash : body.getLast? ≠ some '\\')
    (hspace : ∀ c, body.getLast? = some c → Text.isSpace c = false) : joinBody body = body := by
  have htrim : Text.trimEnd body = body := Text.dropEndWhile_of_getLast? hspace
  have hdrop : Text.dropEndWhile (· == '\\') body = body := by
    refine Text.dropEndWhile_of_getLast? ?_
    intro c hc
    have : c ≠ '\\' := fun he => hslash (he ▸ hc)
    simpa using this
  by_cases hne : body = []
  · subst hne; rfl
  · simp [joinBody, lines_of_notMem h hne, htrim, hdrop, Text.joinWith]

theorem splitParams_suffix (cs : List Char) : (splitParams cs).2 <:+ cs := by
  unfold splitParams
  split
  · split
    · exact (List.drop_suffix _ _).trans ((List.dropWhile_suffix _).trans (List.suffix_cons _ _))
    · exact List.suffix_refl _
  · exact List.suffix_refl _

/-- The body of a macro stands in its directive, and where the macro says. -/
theorem body_of_readCommand {f : Path} {offset : Nat} {d : List Char} {m : Macro} {record : MacroRecord}
    (h : readCommand f offset d = .define m record) :
    ∃ inner body, StandsAt d inner body ∧ m.offset = offset + inner ∧ m.extent = width body ∧
      m.body = joinBody body ∧ ∀ c, body.getLast? = some c → Text.isSpace c = false := by
  obtain ⟨args, h, hargs⟩ := readCommand_define h
  unfold readDefine at h
  simp only at h
  split at h
  · cases h
  · cases h
    generalize hsplit : splitParams ((Text.trimStart args).drop (Script.leadingWord (Text.trimStart args)).length) = parts
    have hparts : parts.2 <:+ d := by
      rw [← hsplit]
      exact (splitParams_suffix _).trans ((List.drop_suffix _ _).trans ((List.dropWhile_suffix _).trans hargs))
    obtain ⟨before, hd⟩ := (List.dropWhile_suffix Text.isSpace).trans hparts
    obtain ⟨after, hafter⟩ := trimEnd_prefix (Text.trimStart parts.2)
    refine ⟨width before, Text.trimEnd (Text.trimStart parts.2), ⟨before, after, ?_, rfl⟩, ?_, rfl, rfl,
      fun c => Text.getLast?_dropEndWhile⟩
    · rw [List.append_assoc, hafter]
      exact hd.symm
    · have hwidth := congrArg width hd
      rw [Text.width_append] at hwidth
      simp only [Text.trimStart] at hwidth ⊢
      omega

/-! ## Origins -/

/-- The ways in which a byte gets into the code. -/
inductive Origin
  | copied
  | blanked
  | expanded
  | separator
deriving DecidableEq, Repr

def Piece.kind : Piece → Origin
  | copied .. => .copied
  | expanded .. => .expanded
  | directive .. => .blanked
  | separator .. => .separator

section

variable (r : Resolver) (file : Path) (text : List Char)

/-- `f` is a file that is worked off for the document, and `t` is its text. -/
def Processed (f : Path) (t : List Char) : Prop :=
  (∃ depth, Reached r file text depth f t) ∧ textOf r file text f = some t

/-- The byte of the code at an offset. -/
def codeByte? (p : Nat) : Option UInt8 := (encode (preprocess r file text).code)[p]?

/-- The byte at `p` is copied from byte `o` of `f`, which lies in a line of code. -/
def IsCopied (p : Nat) (f : Path) (o : Nat) : Prop :=
  ∃ start offset part t c line, Covers (pieces r file text) p start (.copied f offset part) ∧
    o = offset + (p - start) ∧ Processed r file text f t ∧
    HasChunk t c (.code line) ∧ c ≤ o ∧ o < c + width line ∧ o < width t ∧
    codeByte? r file text p = (encode t)[o]?

/-- The byte at `p` is blanked from byte `o` of `f`, which lies in a directive. -/
def IsBlanked (p : Nat) (f : Path) (o : Nat) : Prop :=
  ∃ start c d effect t, Covers (pieces r file text) p start (.directive f c d effect) ∧
    o = c + (p - start) ∧ Processed r file text f t ∧
    HasChunk t c (.directive d) ∧ c ≤ o ∧ o < c + width d ∧ o < width t ∧
    codeByte? r file text p = ((encode t)[o]?).map blankByte

/-- The byte at `p` lies in what an invocation turned into, and `o` in the body of the macro. A body on
one line, of a macro without parameters, is put in byte by byte. -/
def IsExpanded (p : Nat) (f : Path) (o : Nat) : Prop :=
  ∃ start g offset written m part t body,
    Covers (pieces r file text) p start (.expanded g offset written m part) ∧
    f = m.file ∧ o = m.offset + min (p - start) m.extent ∧ Processed r file text f t ∧
    Defined r file text m ∧ StandsAt t m.offset body ∧ width body = m.extent ∧ m.offset + m.extent ≤ width t ∧
    (m.params = none → '\n' ∉ body → body.getLast? ≠ some '\\' → codeByte? r file text p = (encode t)[o]?)

/-- The byte at `p` is a line feed put before an included text, at the end of the directive that asks for
it, or after an included text, at its end. -/
def IsSeparator (p : Nat) (f : Path) (o : Nat) : Prop :=
  ∃ t, Covers (pieces r file text) p p (.separator f o) ∧ Processed r file text f t ∧
    codeByte? r file text p = some 0x0A ∧
    ((∃ c d requested, HasChunk t c (.directive d) ∧ readCommand f c d = .fetch requested ∧ o = c + width d) ∨
      (∃ depth, Reached r file text (depth + 1) f t) ∧ o = width t)

/-- What it means for the byte at `p` to have an origin, at byte `o` of `f`. -/
def HasOrigin (p : Nat) (f : Path) (o : Nat) : Origin → Prop
  | .copied => IsCopied r file text p f o
  | .blanked => IsBlanked r file text p f o
  | .expanded => IsExpanded r file text p f o
  | .separator => IsSeparator r file text p f o

end

section

variable {r : Resolver} {file : Path} {text : List Char} {p start : Nat}

theorem HasOrigin.covers {f : Path} {o : Nat} {k : Origin} (h : HasOrigin r file text p f o k) :
    ∃ start q, Covers (pieces r file text) p start q ∧ q.kind = k := by
  cases k with
  | copied => obtain ⟨start, _, _, _, _, _, hc, _⟩ := h; exact ⟨start, _, hc, rfl⟩
  | blanked => obtain ⟨start, _, _, _, _, hc, _⟩ := h; exact ⟨start, _, hc, rfl⟩
  | expanded => obtain ⟨start, _, _, _, _, _, _, _, hc, _⟩ := h; exact ⟨start, _, hc, rfl⟩
  | separator => obtain ⟨_, hc, _⟩ := h; exact ⟨p, _, hc, rfl⟩

theorem traced_of_covers {q : Piece} (hq : Covers (pieces r file text) p start q) : q.Traced r file text := by
  obtain ⟨before, after, hsplit, _⟩ := mem_placed_iff.mp hq.mem
  exact (traced_law r file text).pieces q (by simp [hsplit])

theorem codeByte?_of_covers {q : Piece} (hq : Covers (pieces r file text) p start q) :
    codeByte? r file text p = (encode q.code)[p - start]? := hq.byte

theorem Covers.isCopied {f : Path} {offset : Nat} {part : List Char} (h : Consistent r file text)
    (hq : Covers (pieces r file text) p start (.copied f offset part)) :
    IsCopied r file text p f (offset + (p - start)) := by
  obtain ⟨depth, t, hr, c, inner, line, hchunk, hline, rfl⟩ := traced_of_covers hq
  have hlt : p - start < width part := by have := hq.le; have := hq.lt; simp only [Piece.size] at this; omega
  have hbound := hline.bound
  have hwhole := hchunk.standsAt.bound
  have hbyte := (hchunk.standsAt.trans hline).byte hlt
  simp only [Chunk.text] at hwhole
  refine ⟨start, _, part, t, c, line, hq, rfl, ⟨⟨depth, hr⟩, hr.textOf h⟩, hchunk, by omega, by omega, by omega, ?_⟩
  rw [codeByte?_of_covers hq]
  exact hbyte.symm

theorem Covers.isBlanked {f : Path} {c : Nat} {d : List Char} {effect : Effect} (h : Consistent r file text)
    (hq : Covers (pieces r file text) p start (.directive f c d effect)) :
    IsBlanked r file text p f (c + (p - start)) := by
  obtain ⟨depth, t, hr, hchunk⟩ := traced_of_covers hq
  have hlt : p - start < width d := by have := hq.le; have := hq.lt; simp only [Piece.size] at this; omega
  have hwhole := hchunk.standsAt.bound
  have hbyte := hchunk.standsAt.byte hlt
  simp only [Chunk.text] at hwhole hbyte
  refine ⟨start, c, d, effect, t, hq, rfl, ⟨⟨depth, hr⟩, hr.textOf h⟩, hchunk, by omega, by omega, by omega, ?_⟩
  rw [codeByte?_of_covers hq, hbyte]
  simp only [Piece.code, encode_blank, List.getElem?_map]

theorem Covers.isExpanded {g : Path} {offset : Nat} {written part : List Char} {m : Macro}
    (h : Consistent r file text) (hq : Covers (pieces r file text) p start (.expanded g offset written m part)) :
    IsExpanded r file text p m.file (m.offset + min (p - start) m.extent) := by
  obtain ⟨_, hdef, after, i, hi, rfl⟩ := traced_of_covers hq
  have hdef' := hdef
  obtain ⟨depth, t, c, d, record, hr, hchunk, hread⟩ := hdef'
  obtain ⟨inner, body, hbody, hoffset, hextent, hjoin, hspace⟩ := body_of_readCommand hread
  have hstands : StandsAt t m.offset body := hoffset ▸ hchunk.standsAt.trans hbody
  refine ⟨start, g, offset, written, m, i.expansion, t, body, hq, rfl, rfl, ⟨⟨depth, hr⟩, hr.textOf h⟩, hdef, hstands,
    hextent.symm, hextent ▸ hstands.bound, ?_⟩
  intro hparams hline hslash
  -- what is put in is the body as it stands in the file
  have hcode : i.expansion = body := by
    rw [Macro.expansion_of_params_none hparams hi, hjoin, joinBody_of_oneLine hline hslash hspace]
  have hlt : p - start < width body := by
    have := hq.le
    have := hq.lt
    simp only [Piece.size, hcode] at this
    omega
  rw [codeByte?_of_covers hq, Nat.min_eq_left (by omega), hstands.byte hlt]
  simp only [Piece.code, hcode]

theorem Covers.isSeparator {f : Path} {o : Nat} (h : Consistent r file text)
    (hq : Covers (pieces r file text) p start (.separator f o)) : IsSeparator r file text p f o := by
  have hp : p = start := by have := hq.le; have := hq.lt; simp only [Piece.size] at this; omega
  subst hp
  have hbyte : codeByte? r file text p = some 0x0A := by
    rw [codeByte?_of_covers hq, Nat.sub_self]
    rfl
  rcases traced_of_covers hq with ⟨depth, t, c, d, requested, hr, hchunk, hread, ho⟩ | ⟨depth, t, hr, ho⟩
  · exact ⟨t, hq, ⟨⟨depth, hr⟩, hr.textOf h⟩, hbyte, Or.inl ⟨c, d, requested, hchunk, hread, ho⟩⟩
  · exact ⟨t, hq, ⟨⟨depth + 1, hr⟩, hr.textOf h⟩, hbyte, Or.inr ⟨⟨depth, hr⟩, ho⟩⟩

/-- The place that the piece of a byte gives is an origin of the kind of the piece. -/
theorem Covers.hasOrigin {q : Piece} (h : Consistent r file text) (hq : Covers (pieces r file text) p start q) :
    HasOrigin r file text p (q.origin (p - start)).1 (q.origin (p - start)).2 q.kind := by
  cases q with
  | copied f offset part => exact hq.isCopied h
  | expanded g offset written m part => exact hq.isExpanded h
  | directive f offset d effect => exact hq.isBlanked h
  | separator f offset => exact hq.isSeparator h

/-- Every byte of the code has a place in the source map, and exactly one origin there. -/
theorem byte_provenance (h : Consistent r file text) (hp : p < width (preprocess r file text).code) :
    ∃ f o, SameAnswer ((preprocess r file text).map.resolve? p) (some (f, o)) ∧
      ∃! k, HasOrigin r file text p f o k := by
  obtain ⟨start, q, hq⟩ := exists_covering hp
  refine ⟨_, _, hq.resolve?, q.kind, hq.hasOrigin h, ?_⟩
  intro k hk
  obtain ⟨start', q', hq', rfl⟩ := hk.covers
  rw [(hq.unique hq').2]

theorem sample_byte_provenance :
    29 < width (preprocess sampleResolver (.ofText "main") sampleText).code ∧
      ∃ f o, SameAnswer ((preprocess sampleResolver (.ofText "main") sampleText).map.resolve? 29) (some (f, o)) ∧
        ∃! k, HasOrigin sampleResolver (.ofText "main") sampleText 29 f o k :=
  ⟨by decide +kernel, byte_provenance sample_consistent (by decide +kernel)⟩

end

end SqfIndex.Preprocess
