import SqfIndex.Proofs.Position.Counting
import SqfIndex.Proofs.Preprocess.Includes
import SqfIndex.Proofs.Preprocess.Refusals
import SqfIndex.Proofs.Preprocess.Seams
import SqfIndex.Proofs.Preprocess.Substitution
import SqfIndex.Proofs.Workspace.Signatures

/-!
# Lines of the code and lines of the text

What an invocation turns into lies on one line: bodies of macros are joined to one line, and arguments are read from one.
If nothing is included, the pieces of a document are written one after the other in its text, and each has as many line
feeds in the code as in the text. So whatever stands in the code stands on the line of the text that it comes from:
`lines_kept`.
-/

namespace SqfIndex

open Text (width encode StandsAt)

/-! ## Line feeds before a place -/

namespace Text

/-- The line feeds among the first bytes of a text. -/
def feedsBefore (text : List Char) (n : Nat) : Nat := ((encode text).take n).count 0x0A

theorem feedsBefore_append (front rest : List Char) (n : Nat) :
    feedsBefore (front ++ rest) (width front + n) = front.count '\n' + feedsBefore rest n := by
  rw [feedsBefore, encode_append, ← length_encode front, List.take_length_add_append, List.count_append, count_encode]
  rfl

theorem feedsBefore_of_le {part : List Char} {n : Nat} (h : n ≤ width part) (rest : List Char) :
    feedsBefore (part ++ rest) n = feedsBefore part n := by
  rw [feedsBefore, encode_append, List.take_append_of_le_length (by rwa [length_encode])]
  rfl

theorem feedsBefore_of_notMem {part : List Char} (h : '\n' ∉ part) (n : Nat) : feedsBefore part n = 0 := by
  have hcount : (encode part).count 0x0A = 0 := by rw [count_encode, List.count_eq_zero.mpr h]
  exact Nat.le_zero.mp (hcount ▸ (List.take_sublist n (encode part)).count_le 0x0A)

end Text

theorem Script.notMem_lineFeed {w : List Char} (h : isIdentifier w = true) : '\n' ∉ w := by
  intro hmem
  have hword := isWordChar_of_mem h hmem
  revert hword
  decide

namespace Preprocess

/-! ## Bodies -/

theorem dropEndWhile_subset (p : Char → Bool) (cs : List Char) : Text.dropEndWhile p cs ⊆ cs := by
  obtain ⟨after, hafter, -⟩ := Text.exists_dropEndWhile_parts p cs
  intro c hc
  rw [hafter]
  exact List.mem_append_left _ hc

theorem notMem_chomp {l rest : List Char} (h : Text.IsLine l rest) : '\n' ∉ Text.chomp l := by
  obtain ⟨front, c, rfl⟩ : ∃ front c, l = front ++ [c] := ⟨_, _, (List.dropLast_append_getLast h.ne_nil).symm⟩
  have hfront : '\n' ∉ front := by simpa using h.within
  unfold Text.chomp
  rw [List.reverse_append, List.reverse_singleton, List.singleton_append]
  split
  · next hrest =>
    rw [List.cons.injEq, List.reverse_eq_cons_iff] at hrest
    exact fun hmem => hfront (hrest.2 ▸ List.mem_append_left _ hmem)
  · next hrest =>
    rw [List.cons.injEq] at hrest
    rwa [← hrest.2, List.reverse_reverse]
  · next hother =>
    have hc : c ≠ '\n' := by
      rintro rfl
      exact hother _ rfl
    simpa [hfront] using Ne.symm hc

theorem mem_joinWith {sep : List Char} {ps : List (List Char)} {c : Char} (h : c ∈ Text.joinWith sep ps) :
    c ∈ sep ∨ ∃ p ∈ ps, c ∈ p := by
  obtain ⟨part, hpart, hc⟩ := List.mem_flatten.mp h
  induction ps with
  | nil => cases hpart
  | cons p ps ih =>
      cases ps with
      | nil => exact Or.inr ⟨part, hpart, hc⟩
      | cons q ps =>
          rw [List.intersperse_cons_cons, List.mem_cons, List.mem_cons] at hpart
          rcases hpart with rfl | rfl | hpart
          · exact Or.inr ⟨part, List.mem_cons_self, hc⟩
          · exact Or.inl hc
          · refine (ih (List.mem_flatten_of_mem hpart hc) hpart).imp_right ?_
            rintro ⟨p', hp', hc⟩
            exact ⟨p', List.mem_cons_of_mem _ hp', hc⟩

theorem notMem_joinBody (body : List Char) : '\n' ∉ joinBody body := by
  intro hmem
  rcases mem_joinWith hmem with hmem | ⟨part, hpart, hmem⟩
  · cases List.mem_singleton.mp hmem
  · rw [Text.lines, List.map_map] at hpart
    obtain ⟨l, hl, rfl⟩ := List.mem_map.mp hpart
    obtain ⟨before, after, hsplit⟩ := List.append_of_mem hl
    obtain ⟨hline, -⟩ := Text.isLine_of_rawLines (Text.rawLines_split hsplit).2
    exact notMem_chomp hline (dropEndWhile_subset _ _ (dropEndWhile_subset _ _ (dropEndWhile_subset _ _ hmem)))

/-! ## Invocations -/

theorem mem_replaceWord {name arg text : List Char} {c : Char} (h : c ∈ replaceWord name arg text) : c ∈ text ∨ c ∈ arg := by
  obtain ⟨w, hw, hc⟩ := List.mem_flatMap.mp h
  split at hc
  · exact Or.inr hc
  · left
    rw [← Script.flatten_words text]
    exact List.mem_flatten_of_mem hw hc

theorem dropPasteMarks_subset (cs : List Char) : dropPasteMarks cs ⊆ cs := by
  fun_induction dropPasteMarks cs with
  | case1 rest ih => exact fun c hc => List.mem_cons_of_mem _ (List.mem_cons_of_mem _ (ih hc))
  | case2 c rest _ ih => exact List.cons_subset_cons c ih
  | case3 => exact List.Subset.refl _

theorem mem_putIn {pairs : List (List Char × List Char)} {text : List Char} {c : Char} (h : c ∈ putIn pairs text) :
    c ∈ text ∨ ∃ pair ∈ pairs, c ∈ pair.2 := by
  induction pairs generalizing text with
  | nil => exact Or.inl h
  | cons pair pairs ih =>
      rcases ih h with hc | ⟨later, hlater, hc⟩
      · exact (mem_replaceWord hc).imp_right fun hc => ⟨pair, List.mem_cons_self, hc⟩
      · exact Or.inr ⟨later, List.mem_cons_of_mem pair hlater, hc⟩

/-- What is put in for parameters comes from the body and from the arguments. -/
theorem mem_substitute {params args : List (List Char)} {body : List Char} {c : Char} (h : c ∈ substitute params args body) :
    c ∈ body ∨ ∃ a ∈ args, c ∈ a := by
  rw [substitute_eq] at h
  rcases mem_putIn (dropPasteMarks_subset _ h) with hc | ⟨pair, hpair, hc⟩
  · exact Or.inl hc
  · obtain ⟨a, ha, htrim⟩ := List.mem_map.mp (List.of_mem_zip hpair).2
    rw [← htrim] at hc
    exact Or.inr ⟨a, ha, (List.dropWhile_sublist _).subset (dropEndWhile_subset _ _ hc)⟩

theorem consFirst_subset {c : Char} {args : List (List Char)} {used : List Char} (h : ∀ a ∈ args, a ⊆ used) :
    ∀ a ∈ consFirst c args, a ⊆ c :: used := by
  cases args with
  | nil => simp [consFirst]
  | cons t ts =>
      obtain ⟨ht, hts⟩ := List.forall_mem_cons.mp h
      exact List.forall_mem_cons.mpr ⟨List.cons_subset_cons c ht, fun a ha => List.subset_cons_of_subset c (hts a ha)⟩

/-- Arguments are read up to a bracket that closes the list. -/
theorem readArguments_closed {depth : Nat} {cs after : List Char} {args : List (List Char)}
    (h : readArguments depth cs = some (args, after)) :
    ∃ used c, cs = used ++ c :: after ∧ closes c = true ∧ ∀ a ∈ args, a ⊆ used := by
  fun_induction readArguments depth cs generalizing args after with
  | case1 => cases h
  | case2 depth c rest hopens ih =>
      simp only [Option.map_eq_some_iff, Prod.exists, Prod.mk.injEq] at h
      obtain ⟨args, _, h, rfl, rfl⟩ := h
      obtain ⟨used, close, rfl, hclose, hargs⟩ := ih h
      refine ⟨c :: used, close, rfl, hclose, ?_⟩
      split
      · exact fun a ha => List.subset_cons_of_subset c (hargs a ha)
      · exact consFirst_subset hargs
  | case3 depth c rest hopens hcloses hdepth =>
      cases h
      exact ⟨[], c, rfl, hcloses, by simp⟩
  | case4 depth c rest hopens hcloses hdepth ih | case6 depth c rest hopens hcloses hcomma ih =>
      simp only [Option.map_eq_some_iff, Prod.exists, Prod.mk.injEq] at h
      obtain ⟨args, _, h, rfl, rfl⟩ := h
      obtain ⟨used, close, rfl, hclose, hargs⟩ := ih h
      exact ⟨c :: used, close, rfl, hclose, consFirst_subset hargs⟩
  | case5 depth c rest hopens hcloses hcomma ih =>
      simp only [Option.map_eq_some_iff, Prod.exists, Prod.mk.injEq] at h
      obtain ⟨args, _, h, rfl, rfl⟩ := h
      obtain ⟨used, close, rfl, hclose, hargs⟩ := ih h
      refine ⟨c :: used, close, rfl, hclose, List.forall_mem_cons.mpr ⟨by simp, ?_⟩⟩
      exact fun a ha => List.subset_cons_of_subset c (hargs a ha)

/-- A macro has no line feed in its name and in its body. -/
def Macro.OneLine (m : Macro) : Prop := '\n' ∉ m.name ∧ '\n' ∉ m.body

theorem oneLine_of_readCommand {f : Path} {offset : Nat} {d : List Char} {m : Macro} {record : MacroRecord}
    (h : readCommand f offset d = .define m record) : m.OneLine := by
  obtain ⟨args, h, -⟩ := readCommand_define h
  unfold readDefine at h
  simp only at h
  split at h
  · cases h
  · next hword =>
    cases h
    exact ⟨Script.notMem_lineFeed (Script.isIdentifier_leadingWord hword), notMem_joinBody _⟩

/-- An invocation within a line has no line feed, and neither has what it turns into. -/
theorem oneLine_of_invoke? {m : Macro} (hm : m.OneLine) {after : List Char} {i : Invocation} (hi : m.invoke? after = some i)
    {front back : List Char} (hline : '\n' ∉ (front ++ i.written ++ back).dropLast) :
    '\n' ∉ i.written ∧ '\n' ∉ i.expansion := by
  unfold Macro.invoke? at hi
  split at hi
  · cases hi
    exact hm
  · next params =>
    split at hi
    · obtain ⟨⟨args, rest⟩, hargs, rfl⟩ := Option.map_eq_some_iff.mp hi
      obtain ⟨used, close, rfl, hclose, hused⟩ := readArguments_closed hargs
      have htake : (used ++ close :: rest).take ((used ++ close :: rest).length - rest.length) = used ++ [close] := by
        rw [List.append_cons, List.length_append, Nat.add_sub_cancel, List.take_left]
      simp only [htake] at hline ⊢
      have hbefore : '\n' ∉ used := by
        intro hmem
        refine hline ?_
        rw [show front ++ (m.name ++ (used ++ [close])) ++ back = front ++ m.name ++ used ++ close :: back by simp,
          List.dropLast_append_of_ne_nil (List.cons_ne_nil _ _)]
        simp [hmem]
      have hfeed : '\n' ≠ close := by
        rintro rfl
        exact absurd hclose (by decide)
      constructor
      · simp [hm.1, hbefore, hfeed]
      · intro hmem
        rcases mem_substitute hmem with hmem | ⟨a, ha, hmem⟩
        · exact hm.2 hmem
        · exact hbefore (hused a ha hmem)
    · cases hi

/-- A chunk of code is one line. -/
theorem isLine_of_chunks {t line : List Char} {before after : List Chunk} (h : chunks t = before ++ .code line :: after) :
    Text.IsLine line (after.flatMap Chunk.text) := by
  obtain ⟨front, l, back, hlines, -, hback⟩ := chunksFrom_split h (Or.inl rfl)
  obtain ⟨hline, -⟩ := Text.isLine_of_rawLines (Text.rawLines_split hlines).2
  rw [chunksFrom] at hback
  split at hback
  · split at hback
    · obtain ⟨tail, rest, hbegun⟩ := chunksFrom_begun back
      rw [hbegun] at hback
      cases hback
    · cases hback
  · cases hback
    rwa [flatMap_text_chunksFrom]

/-! ## Pieces -/

theorem count_blankByte (bs : List UInt8) : (bs.map blankByte).count 0x0A = bs.count 0x0A := by
  induction bs with
  | nil => rfl
  | cons b bs ih =>
      rw [List.map_cons, List.count_cons, ih, List.count_cons, blankByte]
      by_cases hb : b = 0x0A <;> simp [hb]

theorem count_blank (t : List Char) : (blank t).count '\n' = t.count '\n' := by
  rw [← Text.count_encode, encode_blank, count_blankByte, Text.count_encode]

theorem feedsBefore_blank (t : List Char) (n : Nat) : Text.feedsBefore (blank t) n = Text.feedsBefore t n := by
  rw [Text.feedsBefore, encode_blank, ← List.map_take, count_blankByte]
  rfl

/-- A piece has as many line feeds in the code as it has where it is written; an invocation has none. -/
def Piece.KeepsFeeds (p : Piece) : Prop :=
  p.kind = .separator ∨ p.code.count '\n' = p.written.count '\n' ∧ (p.kind = .expanded → '\n' ∉ p.code)

theorem feeds_law (r : Resolver) (file : Path) (text : List Char) : PieceLaw r file text Macro.OneLine Piece.KeepsFeeds where
  code := by
    intro depth f t offset line ms _ hchunk hms p hp
    obtain ⟨before, g, after, hsplit, rfl⟩ := exists_fragment_of_mem_piecesOf hp
    cases g with
    | plain part => exact Or.inr ⟨rfl, by simp [Fragment.piece, Piece.kind]⟩
    | invocation m written expansion =>
        obtain ⟨hm, -, rest, i, hi, rfl, rfl⟩ := valid_of_mem_fragments ms line (.invocation m written expansion) (by simp [hsplit])
        obtain ⟨chunksBefore, chunksAfter, hchunks, -⟩ := hchunk
        have hline := (isLine_of_chunks hchunks).within
        rw [← flatMap_written_fragments ms line, hsplit, List.flatMap_append, List.flatMap_cons, ← List.append_assoc] at hline
        obtain ⟨hwritten, hexpansion⟩ := oneLine_of_invoke? (hms m hm) hi hline
        refine Or.inr ⟨?_, fun _ => hexpansion⟩
        exact (List.count_eq_zero.mpr hexpansion).trans (List.count_eq_zero.mpr hwritten).symm
  directive := by
    intro depth f t offset d _ _
    exact Or.inr ⟨count_blank d, by simp [Piece.kind]⟩
  define := by
    intro depth f t offset d m record _ _ h
    exact oneLine_of_readCommand h
  leadIn := by simp [Piece.KeepsFeeds, Piece.kind]
  leadOut := by simp [Piece.KeepsFeeds, Piece.kind]

/-! ## Pieces without includes -/

/-- Pieces that are written in `f` one after the other, from `base` on. -/
def Consecutive (f : Path) : Nat → List Piece → Prop
  | _, [] => True
  | base, p :: ps => (p.kind ≠ .separator ∧ p.file = f ∧ p.offset = base) ∧ Consecutive f (base + width p.written) ps

theorem consecutive_append {f : Path} {base : Nat} {ps qs : List Piece} :
    Consecutive f base (ps ++ qs) ↔
      Consecutive f base ps ∧ Consecutive f (base + width (ps.flatMap Piece.written)) qs := by
  induction ps generalizing base with
  | nil => simp [Consecutive]
  | cons p ps ih => simp [Consecutive, ih, and_assoc, Nat.add_assoc]

theorem consecutive_piecesOf (f : Path) (base : Nat) (fs : List Fragment) :
    Consecutive f base (piecesOf f base fs) ∧ (piecesOf f base fs).flatMap Piece.written = fs.flatMap Fragment.written := by
  induction fs generalizing base with
  | nil => exact ⟨trivial, rfl⟩
  | cons g fs ih =>
      have hpiece : (g.piece f base).kind ≠ .separator ∧ (g.piece f base).file = f ∧ (g.piece f base).offset = base ∧
          (g.piece f base).written = g.written := by
        cases g <;> simp [Fragment.piece, Piece.kind, Piece.file, Piece.offset, Piece.written, Fragment.written]
      obtain ⟨hkind, hfile, hoffset, hwritten⟩ := hpiece
      rw [piecesOf_cons, Consecutive, List.flatMap_cons, List.flatMap_cons, hwritten, (ih _).2]
      exact ⟨⟨⟨hkind, hfile, hoffset⟩, (ih _).1⟩, rfl⟩

/-- Where no include is followed, chunks become pieces that are written as the chunks are. -/
theorem consecutive_chunkwise {r : Resolver} {enter : Option (Path → List Char → Work)} {f : Path} {base : Nat}
    {cs : List Chunk} {ms : Macros}
    (h : ∀ p ∈ (chunkwise r enter f base cs ms).1, ∀ requested path, p.effect ≠ .included requested path) :
    Consecutive f base (chunkwise r enter f base cs ms).1 ∧
      (chunkwise r enter f base cs ms).1.flatMap Piece.written = cs.flatMap Chunk.text := by
  induction cs generalizing base ms with
  | nil => exact ⟨trivial, rfl⟩
  | cons c cs ih =>
      rw [chunkwise_cons] at h ⊢
      simp only [Work.andThen, List.mem_append, or_imp, forall_and] at h ⊢
      obtain ⟨hfirst, hrest⟩ := h
      have hchunk : Consecutive f base (chunkWork r enter f base c ms).1 ∧
          (chunkWork r enter f base c ms).1.flatMap Piece.written = c.text := by
        cases c with
        | code line =>
            obtain ⟨hpieces, hwritten⟩ := consecutive_piecesOf f base (fragments ms line)
            exact ⟨hpieces, hwritten.trans (flatMap_written_fragments ms line)⟩
        | directive d =>
            rcases directive_cases r enter f base d ms with hsingle | ⟨work, requested, path, t, rfl, hcmd, hfetch, hentered⟩
            · simp [chunkWork, hsingle, Consecutive, Piece.kind, Piece.file, Piece.offset, Piece.written, Chunk.text]
            · refine absurd ?_ (hfirst (.directive f base d (effectOf r true f base d)) ?_ (String.ofList requested) path)
              · simp [Piece.effect, effectOf, hcmd, hfetch]
              · simp [chunkWork, hentered]
      obtain ⟨hconsecutive, hwritten⟩ := ih hrest
      rw [consecutive_append, hchunk.2, List.flatMap_append, hchunk.2, hwritten]
      exact ⟨⟨hchunk.1, hconsecutive⟩, rfl⟩

section

variable {r : Resolver} {file : Path} {text : List Char}

theorem consecutive_pieces (h : (preprocess r file text).includes = []) :
    Consecutive file 0 (pieces r file text) ∧ (pieces r file text).flatMap Piece.written = text := by
  have hnone : ∀ p ∈ pieces r file text, ∀ requested path, p.effect ≠ .included requested path := by
    intro p hp requested path heffect
    obtain ⟨i, hi, -⟩ := mem_includes hp heffect
    rw [h] at hi
    cases hi
  obtain ⟨hpieces, hwritten⟩ := consecutive_chunkwise hnone
  exact ⟨hpieces, hwritten.trans (flatMap_text_chunks text)⟩

theorem Consecutive.kind {f : Path} {base : Nat} {ps : List Piece} (h : Consecutive f base ps) :
    ∀ p ∈ ps, p.kind ≠ .separator := by
  induction ps generalizing base with
  | nil => simp
  | cons p ps ih => exact List.forall_mem_cons.mpr ⟨h.1.1, ih h.2⟩

theorem count_codeOf {ps : List Piece} (hfeeds : ∀ p ∈ ps, p.KeepsFeeds) (hkind : ∀ p ∈ ps, p.kind ≠ .separator) :
    (codeOf ps).count '\n' = (ps.flatMap Piece.written).count '\n' := by
  induction ps with
  | nil => rfl
  | cons p ps ih =>
      obtain ⟨hp, hps⟩ := List.forall_mem_cons.mp hfeeds
      obtain ⟨hkind, hkinds⟩ := List.forall_mem_cons.mp hkind
      rw [codeOf_cons, List.count_append, List.flatMap_cons, List.count_append, ih hps hkinds, (hp.resolve_left hkind).1]

/-- How far into what is written a byte of the code of a piece lies; all of an expansion lies at its invocation. -/
def Piece.inner (p : Piece) (i : Nat) : Nat := if p.kind = .expanded then 0 else i

theorem Piece.KeepsFeeds.feedsBefore {q : Piece} (h : q.KeepsFeeds) (hkind : q.kind ≠ .separator) {i : Nat} (hi : i < q.size)
    (rest rest' : List Char) : Text.feedsBefore (q.code ++ rest) i = Text.feedsBefore (q.written ++ rest') (q.inner i) := by
  rw [Text.feedsBefore_of_le (by rw [q.width_code]; omega)]
  cases q with
  | copied f offset part => exact (Text.feedsBefore_of_le (Nat.le_of_lt hi) rest').symm
  | directive f offset d effect =>
      exact (feedsBefore_blank d i).trans (Text.feedsBefore_of_le (Nat.le_of_lt hi) rest').symm
  | expanded f offset written m part => exact Text.feedsBefore_of_notMem ((h.resolve_left hkind).2 rfl) i
  | separator => exact absurd rfl hkind

/-- If no include of a document is followed, code and text have the same lines. No expansion has a line feed, the code
has as many as the text, and as many stand before any byte of the code as before its place in the text. This is what
the source map says of a byte that is copied or blanked, and where the macro is invoked if the byte belongs to an
expansion. -/
theorem lines_kept (r : Resolver) (file : Path) (text : List Char) (h : (preprocess r file text).includes = []) :
    (∀ q ∈ pieces r file text, q.kind = .expanded → '\n' ∉ q.code) ∧
    (preprocess r file text).code.count '\n' = text.count '\n' ∧
    ∀ p < width (preprocess r file text).code, ∃ start q place, Covers (pieces r file text) p start q ∧
      Text.feedsBefore (preprocess r file text).code p = Text.feedsBefore text place ∧
      ((q.kind = .copied ∨ q.kind = .blanked) ∧
          SameAnswer ((preprocess r file text).map.resolve? p) (some (file, place)) ∨
        q.kind = .expanded ∧ place = q.offset ∧ StandsAt text place q.written) := by
  obtain ⟨hconsecutive, hwritten⟩ := consecutive_pieces h
  have hfeeds := (feeds_law r file text).pieces
  have hkind := hconsecutive.kind
  refine ⟨fun q hq => ((hfeeds q hq).resolve_left (hkind q hq)).2, ?_, ?_⟩
  · have hcount := count_codeOf hfeeds hkind
    rwa [hwritten] at hcount
  · intro p hp
    obtain ⟨start, q, hq⟩ := exists_covering hp
    have hle := hq.le
    have hlt := hq.lt
    have hresolve := hq.resolve?
    obtain ⟨before, after, hpieces, rfl⟩ := mem_placed_iff.mp hq.mem
    rw [hpieces] at hconsecutive hwritten hfeeds
    obtain ⟨hbefore, ⟨hqkind, hfile, hoffset⟩, -⟩ := consecutive_append.mp hconsecutive
    rw [Nat.zero_add] at hoffset
    obtain ⟨i, rfl⟩ := Nat.exists_eq_add_of_le hle
    rw [Nat.add_sub_cancel_left] at hresolve
    rw [List.flatMap_append, List.flatMap_cons] at hwritten
    have hcode : (preprocess r file text).code = codeOf before ++ (q.code ++ codeOf after) := by
      rw [← codeOf_cons, ← codeOf_append, ← hpieces]
      rfl
    have hcount : (codeOf before).count '\n' = (before.flatMap Piece.written).count '\n' :=
      count_codeOf (fun p hp => hfeeds p (List.mem_append_left _ hp)) hbefore.kind
    have hi : i < q.size := by omega
    have hpart := (hfeeds q (by simp)).feedsBefore hqkind hi (codeOf after) (after.flatMap Piece.written)
    refine ⟨_, q, q.offset + q.inner i, hq, ?_, ?_⟩
    · rw [hcode, Text.feedsBefore_append, hcount, hpart, ← hwritten, hoffset, Text.feedsBefore_append]
    · cases q with
      | copied f offset part => exact Or.inl ⟨Or.inl rfl, hfile ▸ hresolve⟩
      | directive f offset d effect => exact Or.inl ⟨Or.inr rfl, hfile ▸ hresolve⟩
      | expanded f offset written m part =>
          refine Or.inr ⟨rfl, rfl, before.flatMap Piece.written, after.flatMap Piece.written, ?_, hoffset⟩
          rw [← hwritten, List.append_assoc]
      | separator => exact absurd rfl hqkind

/-- A macro over two lines that is invoked with arguments, one without a body, and an include of a missing file. -/
def spreadText : List Char :=
  "#define F(a,b) [a, \\\n  b]\n#include \"gone\"\nx = F((é),\"y\"); F(1\n#define E\nE F(2,3)E".toList

theorem spreadText_lines :
    let pre := preprocess sampleResolver (.ofText "main") spreadText
    pre.includes = [] ∧ 80 < width pre.code ∧
      (∀ q ∈ pieces sampleResolver (.ofText "main") spreadText, q.kind = .expanded → '\n' ∉ q.code) ∧
      pre.code.count '\n' = spreadText.count '\n' ∧
      ∃ start q place, Covers (pieces sampleResolver (.ofText "main") spreadText) 80 start q ∧
        Text.feedsBefore pre.code 80 = Text.feedsBefore spreadText place ∧
        ((q.kind = .copied ∨ q.kind = .blanked) ∧ SameAnswer (pre.map.resolve? 80) (some (.ofText "main", place)) ∨
          q.kind = .expanded ∧ place = q.offset ∧ StandsAt spreadText place q.written) := by
  intro pre
  have hincludes : pre.includes = [] := by decide +kernel
  have hsize : 80 < width pre.code := by decide +kernel
  obtain ⟨honeLine, hcount, hplaces⟩ := lines_kept sampleResolver (.ofText "main") spreadText hincludes
  exact ⟨hincludes, hsize, honeLine, hcount, hplaces 80 hsize⟩

end

end Preprocess

end SqfIndex
