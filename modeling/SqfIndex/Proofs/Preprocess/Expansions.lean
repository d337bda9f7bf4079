import SqfIndex.Proofs.Preprocess.LineFeeds
import SqfIndex.Proofs.Preprocess.LineTokens
import SqfIndex.Proofs.Preprocess.Sources

/-!
# Where names are expanded

A document whose directives include nothing and define macros without parameters has its names expanded line by line. On
every line that is `Clear` these are the identifiers that are names in force: `names_expanded`. On other lines a name may be
expanded within a token, and one that is an identifier may be left out: `misread_lines`.
-/

namespace SqfIndex.Preprocess

open Text (width StandsAt)
open Script (Token)

/-! ## Directives -/

/-- What a chunk that begins at `offset` says. -/
def Chunk.command (file : Path) (offset : Nat) : Chunk → Command
  | .code _ => .nothing
  | .directive d => readCommand file offset d

/-- Nothing is included, and a macro that is defined has no parameters. -/
def Command.Plain : Command → Prop
  | .fetch _ => False
  | .define m _ => m.params = none
  | _ => True

def Plain (file : Path) (text : List Char) : Prop := ∀ offset c, HasChunk text offset c → (c.command file offset).Plain

instance (command : Command) : Decidable command.Plain :=
  match command with
  | .fetch _ => inferInstanceAs (Decidable False)
  | .define m _ => inferInstanceAs (Decidable (m.params = none))
  | .nothing | .undefine _ => inferInstanceAs (Decidable True)

/-- Chunks with the offsets at which they begin. -/
def placedChunks : Nat → List Chunk → List (Nat × Chunk)
  | _, [] => []
  | offset, c :: cs => (offset, c) :: placedChunks (offset + width c.text) cs

theorem mem_placedChunks {offset base : Nat} {c : Chunk} {cs : List Chunk} :
    (offset, c) ∈ placedChunks base cs ↔
      ∃ before after, cs = before ++ c :: after ∧ offset = base + width (before.flatMap Chunk.text) := by
  induction cs generalizing base with
  | nil => simp [placedChunks]
  | cons b cs ih =>
      rw [placedChunks, List.mem_cons, ih]
      constructor
      · rintro (hhead | ⟨before, after, rfl, hoffset⟩)
        · cases hhead
          exact ⟨[], cs, rfl, by simp⟩
        · exact ⟨b :: before, after, rfl, by simp [hoffset, Nat.add_assoc]⟩
      · rintro ⟨before, after, hcs, hoffset⟩
        cases before with
        | nil =>
            cases hcs
            exact Or.inl (by simp [hoffset])
        | cons b' before =>
            cases hcs
            exact Or.inr ⟨before, after, rfl, by simp [hoffset, Nat.add_assoc]⟩

instance (file : Path) (text : List Char) : Decidable (Plain file text) :=
  decidable_of_iff (∀ x ∈ placedChunks 0 (chunks text), (x.2.command file x.1).Plain) <| by
    simp only [Prod.forall, mem_placedChunks, Nat.zero_add]
    exact Iff.rfl

/-- One of the chunks defines the name, and none after it undefines it. -/
def InForce (file : Path) (before : List Chunk) (name : List Char) : Prop :=
  ∃ cs c later m record, before = cs ++ c :: later ∧ c.command file (width (cs.flatMap Chunk.text)) = .define m record ∧
    m.name = name ∧ ∀ cs' c' later', later = cs' ++ c' :: later' →
      c'.command file (width ((cs ++ c :: cs').flatMap Chunk.text)) ≠ .undefine name

/-- The macros in force after a command. -/
def Command.apply (ms : Macros) : Command → Macros
  | .define m _ => ms.define m
  | .undefine name => ms.erase name
  | _ => ms

theorem named_iff {ms : Macros} {name : List Char} : ms.Named name ↔ ∃ m ∈ ms, m.name = name := by
  simp [Macros.Named, Macros.find?]

theorem named_define (ms : Macros) (m : Macro) (name : List Char) : (ms.define m).Named name ↔ m.name = name ∨ ms.Named name := by
  simp only [named_iff, Macros.define, Macros.erase, List.mem_cons, List.mem_filter, bne_iff_ne]
  grind

theorem named_erase (ms : Macros) (erased name : List Char) : (ms.erase erased).Named name ↔ ms.Named name ∧ name ≠ erased := by
  simp only [named_iff, Macros.erase, List.mem_filter, bne_iff_ne]
  grind

theorem concat_eq_append_cons {α : Type} {as xs ys : List α} {a x : α} :
    as ++ [a] = xs ++ x :: ys ↔ (xs = as ∧ x = a ∧ ys = []) ∨ ∃ rest, as = xs ++ x :: rest ∧ ys = rest ++ [a] := by
  constructor
  · intro h
    rcases split_append h with ⟨rest, rfl⟩ | ⟨rest, rfl, hlast⟩
    · rw [List.append_assoc, List.append_cancel_left_eq, List.cons_append, List.cons.injEq] at h
      exact Or.inr ⟨rest, rfl, h.2.symm⟩
    · rcases List.append_eq_singleton_iff.mp hlast.symm with ⟨rfl, hlast⟩ | ⟨-, hnil⟩
      · cases hlast
        exact Or.inl ⟨by simp, rfl, rfl⟩
      · cases hnil
  · rintro (⟨rfl, rfl, rfl⟩ | ⟨rest, rfl, rfl⟩)
    · rfl
    · simp

theorem inForce_concat (file : Path) (before : List Chunk) (c : Chunk) (name : List Char) :
    InForce file (before ++ [c]) name ↔
      (∃ m record, c.command file (width (before.flatMap Chunk.text)) = .define m record ∧ m.name = name) ∨
        InForce file before name ∧ c.command file (width (before.flatMap Chunk.text)) ≠ .undefine name := by
  constructor
  · rintro ⟨cs, d, later, m, record, hsplit, hdefine, hname, hkept⟩
    rcases concat_eq_append_cons.mp hsplit with ⟨rfl, rfl, rfl⟩ | ⟨rest, rfl, rfl⟩
    · exact Or.inl ⟨m, record, hdefine, hname⟩
    · refine Or.inr ⟨⟨cs, d, rest, m, record, rfl, hdefine, hname, fun cs' c' later' hrest => ?_⟩, ?_⟩
      · exact hkept cs' c' (later' ++ [c]) (by simp [hrest])
      · exact hkept rest c [] rfl
  · rintro (⟨m, record, hdefine, hname⟩ | ⟨⟨cs, d, later, m, record, rfl, hdefine, hname, hkept⟩, hlast⟩)
    · exact ⟨before, c, [], m, record, rfl, hdefine, hname, by simp⟩
    · refine ⟨cs, d, later ++ [c], m, record, by simp, hdefine, hname, fun cs' c' later' hsplit => ?_⟩
      rcases concat_eq_append_cons.mp hsplit with ⟨rfl, rfl, -⟩ | ⟨rest, hrest, -⟩
      · exact hlast
      · exact hkept cs' c' rest hrest

variable {r : Resolver} {file : Path} {text : List Char}

theorem directive_of_plain {enter : Option (Path → List Char → Work)} {offset : Nat} {d : List Char}
    (h : (readCommand file offset d).Plain) (ms : Macros) :
    directive r enter file offset d ms =
      ([.directive file offset d (effectOf r enter.isSome file offset d)], (readCommand file offset d).apply ms) := by
  rcases directive_cases r enter file offset d ms with hdirective | ⟨_, requested, _, _, _, hread, _, _⟩
  · exact hdirective
  · rw [hread] at h
    cases h

theorem worked_concat (before : List Chunk) (c : Chunk) (h : (c.command file (width (before.flatMap Chunk.text))).Plain) :
    (worked r file (before ++ [c])).2 = (c.command file (width (before.flatMap Chunk.text))).apply (worked r file before).2 := by
  rw [worked, chunkwise_append, chunkwise_cons]
  simp only [Work.andThen, chunkwise, Nat.zero_add]
  cases c with
  | code l => rfl
  | directive d =>
      rw [chunkWork, directive_of_plain h]
      rfl

/-- The macros in force after the first chunks are those that `InForce` says. -/
theorem macros_worked (hplain : Plain file text) {before after : List Chunk} (hchunks : chunks text = before ++ after) :
    (∀ m ∈ (worked r file before).2, m.params = none) ∧
      ∀ name, (worked r file before).2.Named name ↔ InForce file before name := by
  induction before using List.reverseRecOn generalizing after with
  | nil => exact ⟨List.forall_mem_nil _, fun name => by simp [worked, chunkwise, named_iff, InForce]⟩
  | append_singleton before c ih =>
      rw [List.append_assoc] at hchunks
      obtain ⟨hparams, hnamed⟩ := ih hchunks
      have hc := hplain _ c ⟨before, after, hchunks, rfl⟩
      rw [worked_concat before c hc]
      simp only [inForce_concat, ← hnamed]
      cases hcommand : c.command file (width (before.flatMap Chunk.text)) with
      | nothing => exact ⟨hparams, fun name => by simp [Command.apply]⟩
      | define m record =>
          rw [hcommand] at hc
          refine ⟨List.forall_mem_cons.mpr ⟨hc, fun m' hm' => hparams m' (List.mem_filter.mp hm').1⟩, fun name => ?_⟩
          simp [Command.apply, named_define]
      | undefine erased =>
          refine ⟨fun m' hm' => hparams m' (List.mem_filter.mp hm').1, fun name => ?_⟩
          simp [Command.apply, named_erase, ne_comm]
      | fetch requested =>
          rw [hcommand] at hc
          cases hc

/-! ## Replaced names -/

/-- The place and the text of an invocation. -/
def Piece.use? : Piece → Option (Nat × List Char)
  | .expanded _ offset written _ _ => some (offset, written)
  | _ => none

/-- What is replaced by macro bodies in a document, with its place there. -/
def replaced (r : Resolver) (file : Path) (text : List Char) : List (Nat × List Char) := (pieces r file text).filterMap Piece.use?

theorem filterMap_use?_piecesOf (file : Path) (offset : Nat) (fs : List Fragment) :
    (piecesOf file offset fs).filterMap Piece.use? = invoked offset fs := by
  induction fs generalizing offset with
  | nil => rfl
  | cons f fs ih =>
      rw [piecesOf_cons]
      cases f with
      | plain part =>
          rw [Fragment.piece, List.filterMap_cons_none rfl, ih]
          rfl
      | invocation m written expansion =>
          rw [Fragment.piece, List.filterMap_cons, ih]
          rfl

/-- Names are replaced on the lines of code only. -/
theorem mem_replaced_iff (hplain : Plain file text) {use : Nat × List Char} :
    use ∈ replaced r file text ↔ ∃ before l after, chunks text = before ++ .code l :: after ∧
      use ∈ invoked (width (before.flatMap Chunk.text)) (fragments (worked r file before).2 l) := by
  rw [replaced, List.mem_filterMap]
  constructor
  · rintro ⟨q, hq, huse⟩
    obtain ⟨xs, ys, hpieces⟩ := List.append_of_mem hq
    obtain ⟨before, c, after, front, back, hchunks, -, hwork⟩ := exists_chunk_of_piece hpieces
    have hmem : q ∈ front ++ q :: back := by simp
    rw [← hwork, Nat.zero_add] at hmem
    cases c with
    | code l =>
        refine ⟨before, l, after, hchunks, ?_⟩
        rw [← filterMap_use?_piecesOf file, List.mem_filterMap]
        refine ⟨q, ?_, huse⟩
        exact hmem
    | directive d =>
        rw [chunkWork, directive_of_plain (hplain _ _ ⟨before, after, hchunks, rfl⟩), List.mem_singleton] at hmem
        rw [hmem] at huse
        cases huse
  · rintro ⟨before, l, after, hchunks, huse⟩
    rw [← filterMap_use?_piecesOf file, List.mem_filterMap] at huse
    obtain ⟨q, hq, huse⟩ := huse
    refine ⟨q, ?_, huse⟩
    rw [pieces_eq, hchunks, worked, chunkwise_append, chunkwise_cons]
    simp only [Work.andThen, List.mem_append, Nat.zero_add]
    exact Or.inr (Or.inl hq)

theorem mem_invoked {use : Nat × List Char} {offset : Nat} {fs : List Fragment} (h : use ∈ invoked offset fs) :
    ∃ before m expansion after, fs = before ++ .invocation m use.2 expansion :: after ∧
      use.1 = offset + width (before.flatMap Fragment.written) := by
  fun_induction invoked offset fs with
  | case1 => cases h
  | case2 offset part fs ih =>
      obtain ⟨before, m, expansion, after, rfl, hplace⟩ := ih h
      exact ⟨.plain part :: before, m, expansion, after, rfl, by simp [hplace, Fragment.written, Nat.add_assoc]⟩
  | case3 offset m written expansion fs ih =>
      rcases List.mem_cons.mp h with rfl | h
      · exact ⟨[], m, expansion, fs, rfl, by simp⟩
      · obtain ⟨before, m', expansion', after, rfl, hplace⟩ := ih h
        exact ⟨.invocation m written expansion :: before, m', expansion', after, rfl,
          by simp [hplace, Fragment.written, Nat.add_assoc]⟩

/-- A name that is come upon is in force and stands on the line. -/
theorem named_of_mem_invoked {ms : Macros} (hms : ∀ m ∈ ms, m.params = none) {start p : Nat} {l name : List Char}
    (h : (p, name) ∈ invoked start (fragments ms l)) :
    ms.Named name ∧ name ≠ [] ∧ ∃ front back, l = front ++ name ++ back ∧ p = start + width front := by
  obtain ⟨before, m, expansion, after, hfragments, hplace⟩ := mem_invoked h
  obtain ⟨hm, hne, rest, i, hi, hwritten, -⟩ :=
    valid_of_mem_fragments ms l (.invocation m name expansion) (by rw [hfragments]; simp)
  rw [Macro.invoke?, hms m hm] at hi
  cases hi
  subst hwritten
  refine ⟨named_iff.mpr ⟨m, hm, rfl⟩, hne, before.flatMap Fragment.written, after.flatMap Fragment.written, ?_, hplace⟩
  rw [← flatMap_written_fragments ms l, hfragments]
  simp [Fragment.written]

/-! ## Lines of code -/

/-- Byte `p` of the text is on the line of code that these chunks come before. -/
structure OnCode (text : List Char) (before : List Chunk) (l : List Char) (p : Nat) : Prop where
  chunks : ∃ after, chunks text = before ++ .code l :: after
  le : width (before.flatMap Chunk.text) ≤ p
  lt : p < width (before.flatMap Chunk.text) + width l

theorem OnCode.unique {before before' : List Chunk} {l l' : List Char} {p : Nat} (h : OnCode text before l p)
    (h' : OnCode text before' l' p) : before = before' ∧ l = l' := by
  obtain ⟨⟨after, hchunks⟩, hle, hlt⟩ := h
  obtain ⟨⟨after', hchunks'⟩, hle', hlt'⟩ := h'
  rw [hchunks] at hchunks'
  rcases split_append hchunks' with ⟨rest, rfl⟩ | ⟨rest, rfl, hrest⟩
  · simp only [List.flatMap_append, List.flatMap_cons, Text.width_append, Chunk.text] at hle
    omega
  · cases rest with
    | nil =>
        cases hrest
        exact ⟨by simp, rfl⟩
    | cons c rest =>
        cases hrest
        simp only [List.flatMap_append, List.flatMap_cons, Text.width_append, Chunk.text] at hle'
        omega

/-- What is left of a chunk when directives are blanked out. -/
def Chunk.blanked : Chunk → List Char
  | .code l => l
  | .directive d => blank d

/-- The text with its directives blanked out. -/
def blanked (text : List Char) : List Char := (chunks text).flatMap Chunk.blanked

theorem width_blanked (cs : List Chunk) : width (cs.flatMap Chunk.blanked) = width (cs.flatMap Chunk.text) := by
  induction cs with
  | nil => rfl
  | cons c cs ih => cases c <;> simp [Chunk.blanked, Chunk.text, ih]

theorem exists_line_of_wordStart {cs : List Chunk} {front back : List Char} {c : Char}
    (h : cs.flatMap Chunk.blanked = front ++ c :: back) (hc : Script.isWordStart c = true) :
    ∃ before l after, cs = before ++ .code l :: after ∧ width (before.flatMap Chunk.text) ≤ width front ∧
      width front < width (before.flatMap Chunk.text) + width l := by
  induction cs generalizing front with
  | nil => simp at h
  | cons chunk cs ih =>
      rw [List.flatMap_cons] at h
      rcases split_append h with ⟨rest, hchunk⟩ | ⟨rest, rfl, hrest⟩
      · cases chunk with
        | code l =>
            refine ⟨[], l, cs, rfl, by simp, ?_⟩
            have := c.utf8Size_pos
            rw [show l = _ from hchunk]
            simp
            omega
        | directive d =>
            have hmem : c ∈ blank d := by
              rw [show blank d = _ from hchunk]
              simp
            rcases mem_blank hmem with rfl | rfl <;> cases hc
      · obtain ⟨before, l, after, rfl, hle, hlt⟩ := ih hrest
        have hwidth := width_blanked [chunk]
        refine ⟨chunk :: before, l, after, rfl, ?_, ?_⟩
        all_goals
          simp only [List.flatMap_cons, List.flatMap_nil, List.append_nil, Text.width_append] at hwidth ⊢
          omega

theorem getLast?_blanked {before after : List Chunk} {c : Chunk} (h : chunks text = before ++ c :: after) :
    before.flatMap Chunk.blanked = [] ∨ (before.flatMap Chunk.blanked).getLast? = some '\n' := by
  cases before using List.reverseRecOn with
  | nil => exact Or.inl rfl
  | append_singleton before b =>
      have hlast : b.text.getLast? = some '\n' :=
        linesEnd_chunks text (before.map Chunk.text) b.text ((c :: after).map Chunk.text) (by simp [h]) (by simp)
      have hblanked : b.blanked.getLast? = some '\n' := by
        cases b with
        | code l => exact hlast
        | directive d =>
            obtain ⟨front, hd⟩ := List.getLast?_eq_some_iff.mp hlast
            rw [Chunk.blanked, show d = _ from hd, blank_append]
            exact List.getLast?_concat
      rw [List.flatMap_append, List.flatMap_singleton, List.getLast?_append, hblanked]
      exact Or.inr rfl

theorem isLine_blanked {before after : List Chunk} {l : List Char} (h : chunks text = before ++ .code l :: after) :
    Text.IsLine l (after.flatMap Chunk.blanked) := by
  obtain ⟨hne, hwithin, hends⟩ := isLine_of_chunks h
  refine ⟨hne, hwithin, hends.imp_right fun hnil => ?_⟩
  rw [← Text.width_eq_zero_iff, width_blanked, hnil]
  rfl

theorem exists_line_of_replaced (hplain : Plain file text) {p : Nat} {name : List Char} (h : (p, name) ∈ replaced r file text) :
    ∃ before l, OnCode text before l p ∧ InForce file before name ∧ StandsAt text p name ∧
      (p, name) ∈ invoked (width (before.flatMap Chunk.text)) (fragments (worked r file before).2 l) := by
  obtain ⟨before, l, after, hchunks, huse⟩ := (mem_replaced_iff hplain).mp h
  obtain ⟨hparams, hnamed⟩ := macros_worked (r := r) hplain hchunks
  obtain ⟨hname, hne, front, back, hl, hplace⟩ := named_of_mem_invoked hparams huse
  have hwidth := Text.width_pos hne
  have hlt : width front < width l := by
    rw [hl, Text.width_append, Text.width_append]
    omega
  refine ⟨before, l, ⟨⟨after, hchunks⟩, by omega, by omega⟩, (hnamed name).mp hname, ?_, huse⟩
  refine ⟨before.flatMap Chunk.text ++ front, back ++ after.flatMap Chunk.text, ?_, by rw [Text.width_append, hplace]⟩
  rw [← flatMap_text_chunks text, hchunks]
  simp [Chunk.text, hl]

theorem mem_replaced_line (hplain : Plain file text) {before : List Chunk} {l name : List Char} {p : Nat}
    (hcode : OnCode text before l p) :
    (p, name) ∈ replaced r file text ↔
      (p, name) ∈ invoked (width (before.flatMap Chunk.text)) (fragments (worked r file before).2 l) := by
  constructor
  · intro h
    obtain ⟨before', l', hcode', -, -, huse⟩ := exists_line_of_replaced hplain h
    obtain ⟨rfl, rfl⟩ := hcode.unique hcode'
    exact huse
  · intro h
    obtain ⟨after, hchunks⟩ := hcode.chunks
    exact (mem_replaced_iff hplain).mpr ⟨before, l, after, hchunks, h⟩

theorem exists_line_of_identifier {tokens : List Token} (hlex : Script.lex (blanked text) = .ok tokens) {t : Token}
    (ht : t ∈ tokens) (hkind : t.kind = .identifier) : ∃ before l, OnCode text before l t.start := by
  obtain ⟨front, back, hcode, hstart, hword⟩ := Script.inText_of_mem_lex hlex ht
  have hword := (hword hkind).1
  cases htext : t.text with
  | nil => rw [htext] at hword; cases hword
  | cons c rest =>
      rw [htext] at hcode hword
      simp only [Script.isIdentifier, Bool.and_eq_true] at hword
      rw [List.append_assoc, List.cons_append] at hcode
      obtain ⟨before, l, after, hchunks, hle, hlt⟩ := exists_line_of_wordStart hcode hword.1
      rw [Nat.zero_add] at hstart
      exact ⟨before, l, ⟨after, hchunks⟩, hstart ▸ hle, hstart ▸ hlt⟩

/-- A name that is replaced is in force there and stands on a line of code, as every identifier of the text without its
directives does. On a clear line, the names that are replaced are exactly the identifiers that are names in force. -/
theorem names_expanded (r : Resolver) (file : Path) (text : List Char) {tokens : List Token} (hplain : Plain file text)
    (hlex : Script.lex (blanked text) = .ok tokens) :
    (∀ p name, (p, name) ∈ replaced r file text →
      StandsAt text p name ∧ ∃ before l, OnCode text before l p ∧ InForce file before name) ∧
    (∀ t ∈ tokens, t.kind = .identifier → ∃ before l, OnCode text before l t.start) ∧
    ∀ before l p, OnCode text before l p →
      Clear (InForce file before) 0 (blanked text) tokens (width (before.flatMap Chunk.text))
        (width (before.flatMap Chunk.text) + width l) →
      ∀ name, (p, name) ∈ replaced r file text ↔
        InForce file before name ∧ ∃ t ∈ tokens, t.kind = .identifier ∧ t.start = p ∧ t.text = name := by
  refine ⟨fun p name h => ?_, fun t => exists_line_of_identifier hlex, fun before l p hcode hclear name => ?_⟩
  · obtain ⟨before, l, hcode, hforce, hstands, -⟩ := exists_line_of_replaced hplain h
    exact ⟨hstands, before, l, hcode, hforce⟩
  · obtain ⟨after, hchunks⟩ := hcode.chunks
    obtain ⟨hparams, hnamed⟩ := macros_worked (r := r) hplain hchunks
    obtain ⟨here, trailing, hscans, htrailing⟩ := Script.scans_of_ok (Script.lex_eq_ok_iff.mp hlex)
    have hblanked : blanked text = before.flatMap Chunk.blanked ++ (l ++ after.flatMap Chunk.blanked) := by
      rw [blanked, hchunks, List.flatMap_append, List.flatMap_cons]
      rfl
    rw [hblanked] at hscans hclear
    rw [← funext fun w => propext (hnamed w)] at hclear
    rw [mem_replaced_line hplain hcode, invoked_line hparams hscans htrailing (getLast?_blanked hchunks) (isLine_blanked hchunks)
      hclear (by rw [width_blanked, Nat.zero_add]) rfl, mem_identifiersBefore, hnamed]
    have hle := hcode.le
    have hlt := hcode.lt
    simp only [List.mem_filter, decide_eq_true_eq]
    constructor
    · rintro ⟨hforce, -, t, ⟨ht, -⟩, hname⟩
      exact ⟨hforce, t, ht, hname⟩
    · rintro ⟨hforce, t, ht, hkind, rfl, hname⟩
      exact ⟨hforce, hlt, t, ⟨ht, hle⟩, hkind, rfl, hname⟩

/-- A name in force and one that is undefined again, in code, in a string and in a comment. -/
def plainText : List Char := "#define X 1\n#define Y 2\n#undef Y\nX = \"X\" - 10 + Y; // X Y".toList

theorem plainText_expanded :
    let before := (chunks plainText).take 3
    let l := "X = \"X\" - 10 + Y; // X Y".toList
    Plain (.ofText "main") plainText ∧ ∃ tokens, Script.lex (blanked plainText) = .ok tokens ∧
      OnCode plainText before l 33 ∧ Clear (InForce (.ofText "main") before) 0 (blanked plainText) tokens 33 (33 + width l) ∧
      (33, ['X']) ∈ replaced sampleResolver (.ofText "main") plainText := by
  intro before l
  have hplain : Plain (.ofText "main") plainText := by decide +kernel
  have hchunks : chunks plainText = before ++ [.code l] := by decide +kernel
  have hstart : width (before.flatMap Chunk.text) = 33 := by decide +kernel
  let tokens := (Script.lex (blanked plainText)).toOption.getD []
  have hlex : Script.lex (blanked plainText) = .ok tokens := by decide +kernel
  have htokens : ∀ t ∈ tokens, (t.kind = .text → 33 ≤ t.start) ∧
      (t.kind = .comment → ['/', '*'].isPrefixOf t.text = false) ∧
      (t.kind = .number → t.text.any Script.isWordStart = false) := by decide +kernel
  have hcode : OnCode plainText before l 33 := ⟨⟨[], hchunks⟩, Nat.le_of_eq hstart, by rw [hstart]; decide⟩
  have hclear : Clear (InForce (.ofText "main") before) 0 (blanked plainText) tokens 33 (33 + width l) :=
    ⟨fun t ht hkind => Or.inl ((htokens t ht).1 hkind),
      fun t ht _ _ _ _ _ _ => not_misleading (htokens t ht).2.1 (htokens t ht).2.2⟩
  have hforce : InForce (.ofText "main") before ['X'] :=
    ((macros_worked (r := sampleResolver) hplain hchunks).2 _).mp (by decide +kernel)
  refine ⟨hplain, tokens, hlex, hcode, hclear, ?_⟩
  obtain ⟨-, -, hexact⟩ := names_expanded sampleResolver (.ofText "main") plainText hplain hlex
  exact (hexact before l 33 hcode (hstart ▸ hclear) ['X']).mpr ⟨hforce, by decide +kernel⟩

def identifiersOf (text : List Char) : Option (List (Nat × List Char)) :=
  (Script.lex (blanked text)).toOption.map fun tokens => (tokens.filter (·.kind = .identifier)).map fun t => (t.start, t.text)

/-- The scan of a line takes comments, numbers and the second line of a string for code, and a quote in a comment for a
string. -/
theorem misread_lines :
    let comment := "#define X 1\n/* X */".toList
    let number := "#define x1F 5\ny = 0x1F".toList
    let string := "#define X 1\n\"a\nX\"".toList
    let quote := "#define X 1\n/* don't */ X".toList
    let found := replaced sampleResolver (.ofText "main")
    (∀ text ∈ [comment, number, string, quote], Plain (.ofText "main") text) ∧
      identifiersOf comment = some [] ∧ found comment = [(15, ['X'])] ∧
      identifiersOf number = some [(14, ['y'])] ∧ found number = [(19, ['x', '1', 'F'])] ∧
      identifiersOf string = some [] ∧ found string = [(15, ['X'])] ∧
      identifiersOf quote = some [(24, ['X'])] ∧ found quote = [] := by
  decide +kernel

end SqfIndex.Preprocess
