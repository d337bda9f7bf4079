import Mathlib.Data.List.Chain
import SqfIndex.Proofs.Preprocess.Placement
import SqfIndex.Proofs.Preprocess.Trace

/-!
# Where one piece ends, the next one begins

Pieces come in the order of the text that they are written in. After an include that is followed comes another
text, and after the last line of an included text comes whatever comes after its include; but for these, a piece
begins where the one before it ends: `seams_pieces`. Such a seam does not tear the source map
(`resolve?_seam`), unless what comes next is an expansion.
-/

namespace SqfIndex.Preprocess

open Text (width)

/-! ## Seams -/

namespace Piece

/-- The file that a piece is written in; an expansion is written where the macro is invoked. -/
def file : Piece → Path
  | copied file _ _ => file
  | expanded file _ _ _ _ => file
  | directive file _ _ _ => file
  | separator file _ => file

def offset : Piece → Nat
  | copied _ offset _ => offset
  | expanded _ offset _ _ _ => offset
  | directive _ offset _ _ => offset
  | separator _ offset => offset

def written : Piece → List Char
  | copied _ _ text => text
  | expanded _ _ written _ _ => written
  | directive _ _ text _ => text
  | separator _ _ => []

def stop (p : Piece) : Nat := p.offset + width p.written

/-- Whether another text may begin or end after a piece. -/
def leaves : Piece → Bool
  | directive _ _ _ (.included _ _) => true
  | separator _ _ => true
  | _ => false

/-- Copied text and directives are not empty; what an invocation turned into may be. -/
def Solid : Piece → Prop
  | copied _ _ text => text ≠ []
  | directive _ _ text _ => text ≠ []
  | _ => True

end Piece

section

variable (r : Resolver) (file : Path) (text : List Char)

/-- The piece is the last line of an included text, or its end. -/
def EndsIncluded (p : Piece) : Prop :=
  ∃ depth front, Reached r file text (depth + 1) p.file (front ++ p.written) ∧ p.offset = width front ∧
    (front ++ p.written).getLast? = some '\n'

/-- How a piece may follow another. -/
def Seam (p q : Piece) : Prop :=
  p.leaves = false → (q.file = p.file ∧ q.offset = p.stop) ∨ EndsIncluded r file text p

/-- The pieces of the part `t` of a text of `f`, from `base` on. -/
structure Woven (f : Path) (base : Nat) (t : List Char) (ps : List Piece) : Prop where
  seams : ps.IsChain (Seam r file text)
  head : ∀ q ∈ ps.head?, q.file = f ∧ q.offset = base
  last : ∀ p ∈ ps.getLast?, p.leaves = false →
    (p.file = f ∧ p.stop = base + width t ∧ p.written <:+ t) ∨ EndsIncluded r file text p
  nil : ps = [] → t = []

end

section

variable {r : Resolver} {file f : Path} {text : List Char} {base : Nat}

theorem Woven.append {t t' : List Char} {ps qs : List Piece} (hp : Woven r file text f base t ps)
    (hq : Woven r file text f (base + width t) t' qs) : Woven r file text f base (t ++ t') (ps ++ qs) where
  seams := by
    refine hp.seams.append hq.seams ?_
    intro p hlast q hhead hleaves
    obtain ⟨hfile, hoffset⟩ := hq.head q hhead
    rcases hp.last p hlast hleaves with ⟨hpfile, hstop, -⟩ | hends
    · exact Or.inl ⟨hfile.trans hpfile.symm, hoffset.trans hstop.symm⟩
    · exact Or.inr hends
  head := by
    intro q hhead
    by_cases hnil : ps = []
    · rw [hnil, List.nil_append] at hhead
      have hq' := hq.head q hhead
      rwa [hp.nil hnil, Text.width_nil, Nat.add_zero] at hq'
    · rw [List.head?_append_of_ne_nil _ hnil] at hhead
      exact hp.head q hhead
  last := by
    intro p hlast hleaves
    by_cases hnil : qs = []
    · rw [hnil, List.append_nil] at hlast
      rw [hq.nil hnil, List.append_nil]
      exact hp.last p hlast hleaves
    · rw [List.getLast?_append_of_ne_nil _ hnil] at hlast
      refine (hq.last p hlast hleaves).imp_left ?_
      rintro ⟨hpfile, hstop, hsuffix⟩
      exact ⟨hpfile, by rw [hstop, Text.width_append, Nat.add_assoc], hsuffix.trans (List.suffix_append t t')⟩
  nil := by
    intro hnil
    obtain ⟨hps, hqs⟩ := List.append_eq_nil_iff.mp hnil
    rw [hp.nil hps, hq.nil hqs, List.append_nil]

theorem woven_single {p : Piece} (hfile : p.file = f) (hoffset : p.offset = base) :
    Woven r file text f base p.written [p] where
  seams := .singleton p
  head := by
    rintro q ⟨⟩
    exact ⟨hfile, hoffset⟩
  last := by
    intro q hq _
    obtain rfl : p = q := Option.some.inj hq
    exact Or.inl ⟨hfile, by rw [Piece.stop, hoffset], List.suffix_refl _⟩
  nil := by simp

theorem woven_piecesOf (fs : List Fragment) :
    Woven r file text f base (fs.flatMap Fragment.written) (piecesOf f base fs) := by
  induction fs generalizing base with
  | nil => exact ⟨.nil, by simp [piecesOf], by simp [piecesOf], by simp⟩
  | cons x fs ih =>
      have hx : Woven r file text f base x.written [x.piece f base] := by
        cases x with
        | plain part => exact @woven_single r file f text base (.copied f base part) rfl rfl
        | invocation m written part => exact @woven_single r file f text base (.expanded f base written m part) rfl rfl
      rw [piecesOf_cons, List.flatMap_cons, ← List.singleton_append]
      exact hx.append ih

/-- The pieces of an include that is followed, with those of the included text. -/
theorem woven_included {path : Path} {d t : List Char} {front inner : List Piece} {depth : Nat}
    (hfront : ∀ p ∈ front, p.leaves = true) (hhead : ∀ q ∈ front.head?, q.file = f ∧ q.offset = base) (hne : front ≠ [])
    (hr : Reached r file text (depth + 1) path t) (hinner : Woven r file text path 0 t inner)
    (hempty : t = [] → inner = []) : Woven r file text f base d (front ++ inner ++ leadOut path t) := by
  -- nothing is asked of a seam after a piece that leaves the text
  have hseam {p q : Piece} (hp : p ∈ front) : Seam r file text p q := by
    intro hleaves
    rw [hfront p hp] at hleaves
    cases hleaves
  have hlast {p : Piece} (hp : p ∈ (front ++ inner).getLast?) (hleaves : p.leaves = false) :
      (p.file = path ∧ p.stop = width t ∧ p.written <:+ t ∧ inner ≠ []) ∨ EndsIncluded r file text p := by
    by_cases hnil : inner = []
    · rw [hnil, List.append_nil] at hp
      rw [hfront p (List.mem_of_getLast? hp)] at hleaves
      cases hleaves
    · rw [List.getLast?_append_of_ne_nil _ hnil] at hp
      refine (hinner.last p hp hleaves).imp_left ?_
      rintro ⟨hfile, hstop, hsuffix⟩
      exact ⟨hfile, by rw [hstop, Nat.zero_add], hsuffix, hnil⟩
  refine ⟨?_, ?_, ?_, by simp [hne]⟩
  · refine List.IsChain.append (List.IsChain.append ?_ hinner.seams ?_) ?_ ?_
    · exact List.isChain_iff_forall_rel_of_append_cons_cons.mpr fun p q before after h => hseam (by simp [h])
    · intro p hp q _
      exact hseam (List.mem_of_getLast? hp)
    · unfold leadOut
      split
      · exact .nil
      · exact .singleton _
    · intro p hp q hq hleaves
      rcases hlast hp hleaves with ⟨rfl, hstop, -, -⟩ | hends
      · unfold leadOut at hq
        split at hq
        · cases hq
        · cases hq
          exact Or.inl ⟨rfl, hstop.symm⟩
      · exact Or.inr hends
  · intro q hq
    rw [List.append_assoc, List.head?_append_of_ne_nil _ hne] at hq
    exact hhead q hq
  · intro p hp hleaves
    refine Or.inr ?_
    unfold leadOut at hp
    split at hp
    · next hout =>
      rw [List.append_nil] at hp
      rcases hlast hp hleaves with ⟨rfl, hstop, ⟨before, rfl⟩, hnil⟩ | hends
      · refine ⟨depth, before, hr, ?_, hout.resolve_left fun h => hnil (hempty h)⟩
        rw [Piece.stop, Text.width_append] at hstop
        omega
      · exact hends
    · rw [List.getLast?_append_of_ne_nil _ (List.cons_ne_nil _ _)] at hp
      obtain rfl := Option.some.inj hp
      cases hleaves

/-! ## From chunks to documents -/

/-- A text that is entered below `depth` is woven, and has no pieces if it is empty. -/
def Weaves (r : Resolver) (file : Path) (text : List Char) (depth : Nat) (work : Path → List Char → Work) : Prop :=
  ∀ path t ms, Reached r file text depth path t →
    Woven r file text path 0 t (work path t ms).1 ∧ (t = [] → (work path t ms).1 = [])

theorem woven_directive {enter : Option (Path → List Char → Work)} {depth : Nat} {t d : List Char}
    (hr : Reached r file text depth f t) (hc : HasChunk t base (.directive d))
    (hsome : enter.isSome = decide (depth < depthLimit))
    (henter : ∀ work, enter = some work → Weaves r file text (depth + 1) work) (ms : Macros) :
    Woven r file text f base d (directive r enter f base d ms).1 := by
  rcases directive_cases r enter f base d ms with h | ⟨work, requested, path, t', rfl, hread, hfetch, h⟩
  · rw [h]
    exact @woven_single r file f text base (.directive f base d _) rfl rfl
  · have hlt : depth < depthLimit := by simpa using hsome.symm
    have hr' : Reached r file text (depth + 1) path t' := .included hr hlt hc hread hfetch
    obtain ⟨hinner, hempty⟩ := henter work rfl path t' ms hr'
    rw [h]
    refine woven_included ?_ ?_ (List.cons_ne_nil _ _) hr' hinner hempty
    · have heffect : effectOf r (some work).isSome f base d = .included (String.ofList requested) path := by
        simp only [effectOf, hread, Option.isSome_some, hfetch]
      rw [heffect]
      refine List.forall_mem_cons.mpr ⟨rfl, ?_⟩
      unfold leadIn
      split
      · simp
      · simp [Piece.leaves]
    · rintro q ⟨⟩
      exact ⟨rfl, rfl⟩

theorem woven_chunkwise {enter : Option (Path → List Char → Work)} {depth : Nat} {t : List Char}
    (hr : Reached r file text depth f t) (hsome : enter.isSome = decide (depth < depthLimit))
    (henter : ∀ work, enter = some work → Weaves r file text (depth + 1) work) {before cs : List Chunk}
    (hcs : chunks t = before ++ cs) (ms : Macros) :
    Woven r file text f (width (before.flatMap Chunk.text)) (cs.flatMap Chunk.text)
      (chunkwise r enter f (width (before.flatMap Chunk.text)) cs ms).1 := by
  induction cs generalizing before ms with
  | nil => exact ⟨.nil, by simp [chunkwise], by simp [chunkwise], by simp⟩
  | cons c cs ih =>
      have hc : HasChunk t (width (before.flatMap Chunk.text)) c := ⟨before, cs, hcs, rfl⟩
      have hrest := @ih (before ++ [c]) (by simp [hcs])
      rw [List.flatMap_append, Text.width_append, List.flatMap_singleton] at hrest
      rw [List.flatMap_cons]
      cases c with
      | code line =>
          have hline := @woven_piecesOf r file f text (width (before.flatMap Chunk.text)) (fragments ms line)
          rw [flatMap_written_fragments] at hline
          exact hline.append (hrest ms)
      | directive d => exact (woven_directive hr hc hsome henter ms).append (hrest _)

theorem weaves_work (levels : Nat) {depth : Nat} (hlevels : depth + levels = depthLimit) :
    Weaves r file text depth (work r levels) := by
  induction levels generalizing depth with
  | zero =>
      intro path t ms hr
      refine ⟨?_, by rintro rfl; rfl⟩
      have hwoven := @woven_chunkwise r file path text none depth t hr (by
        simp only [Option.isSome_none, false_eq_decide_iff]
        omega) (by simp) [] (chunks t) rfl ms
      rwa [flatMap_text_chunks] at hwoven
  | succ levels ih =>
      intro path t ms hr
      refine ⟨?_, by rintro rfl; rfl⟩
      have hwoven := @woven_chunkwise r file path text (some (work r levels)) depth t hr (by
        simp only [Option.isSome_some, true_eq_decide_iff]
        omega) (by rintro work ⟨⟩; exact ih (by omega)) [] (chunks t) rfl ms
      rwa [flatMap_text_chunks] at hwoven

end

theorem seams_pieces (r : Resolver) (file : Path) (text : List Char) :
    (pieces r file text).IsChain (Seam r file text) :=
  (weaves_work depthLimit (Nat.zero_add _) file text [] .document).1.seams

/-! ## Nothing is empty -/

theorem text_ne_nil_of_mem_chunksFrom {begun : Option (List Char)} {ls : List (List Char)} (hbegun : begun ≠ some [])
    (hls : ∀ l ∈ ls, l ≠ []) : ∀ c ∈ chunksFrom begun ls, c.text ≠ [] := by
  fun_induction chunksFrom begun ls with
  | case1 => simp
  | case2 d =>
      intro c hc
      rw [List.mem_singleton.mp hc]
      exact fun hd => hbegun (congrArg some hd)
  | case3 l ls _ _ ih =>
      obtain ⟨hl, hls⟩ := List.forall_mem_cons.mp hls
      exact ih (by simpa using hl) hls
  | case4 l ls _ _ ih | case5 l ls _ ih =>
      obtain ⟨hl, hls⟩ := List.forall_mem_cons.mp hls
      exact List.forall_mem_cons.mpr ⟨hl, ih (by simp) hls⟩
  | case6 d l ls _ ih =>
      obtain ⟨hl, hls⟩ := List.forall_mem_cons.mp hls
      exact ih (by simp [hl]) hls
  | case7 d l ls _ ih =>
      obtain ⟨hl, hls⟩ := List.forall_mem_cons.mp hls
      exact List.forall_mem_cons.mpr ⟨by simp [Chunk.text, hl], ih (by simp) hls⟩

theorem HasChunk.text_ne_nil {t : List Char} {offset : Nat} {c : Chunk} (h : HasChunk t offset c) : c.text ≠ [] := by
  obtain ⟨before, after, hchunks, -⟩ := h
  have hmem : c ∈ chunks t := by simp [hchunks]
  exact text_ne_nil_of_mem_chunksFrom (by simp) (fun l => @Text.rawLines_ne_nil t l) c hmem

theorem solid_law (r : Resolver) (file : Path) (text : List Char) :
    PieceLaw r file text (fun _ => True) Piece.Solid where
  code := by
    intro depth f t offset line ms _ _ _ p hp
    obtain ⟨before, x, after, hsplit, rfl⟩ := exists_fragment_of_mem_piecesOf hp
    have hvalid := valid_of_mem_fragments ms line x (by simp [hsplit])
    cases x with
    | plain part => exact hvalid
    | invocation m written part => trivial
  directive := by
    intro depth f t offset d _ hc
    exact hc.text_ne_nil
  define := by
    intros
    trivial
  leadIn := by
    intros
    trivial
  leadOut := by
    intros
    trivial

/-! ## Ends of pieces -/

/-- Byte by byte, the code of the piece stands for what is written. -/
structure Piece.Verbatim (p : Piece) : Prop where
  size : p.size = width p.written
  origin : ∀ i, p.origin i = (p.file, p.offset + i)

section

variable {r : Resolver} {file : Path} {text : List Char} {before after : List Piece} {p : Piece}

/-- The end of a piece leads to the place where the piece ends, unless an expansion begins there or an included text
ends. -/
theorem resolve?_seam (hpieces : pieces r file text = before ++ p :: after) (hp : p.Verbatim) (hne : p.written ≠ [])
    (hleaves : p.leaves = false) (hends : ¬EndsIncluded r file text p)
    (hexpanded : ∀ f o written m part,
      (width (codeOf before) + p.size, Piece.expanded f o written m part) ∉ placed 0 (pieces r file text)) :
    SameAnswer ((preprocess r file text).map.resolve? (width (codeOf before) + p.size)) (some (p.file, p.stop)) := by
  have hsize : 0 < p.size := hp.size ▸ Text.width_pos hne
  unfold preprocess
  rw [hpieces]
  cases after with
  | nil =>
      have hresolve := resolve?_piece before [] p hsize (Nat.le_refl _) (Or.inl rfl)
      rwa [hp.origin, show p.offset + p.size = p.stop by rw [hp.size, Piece.stop]] at hresolve
  | cons q after =>
      have hchain := seams_pieces r file text
      rw [hpieces, List.isChain_append_cons_cons] at hchain
      obtain ⟨hfile, hoffset⟩ := (hchain.2.1 hleaves).resolve_right hends
      have hsolid : q.Solid := (solid_law r file text).pieces q (by simp [hpieces])
      have hstart : width (codeOf (before ++ [p])) = width (codeOf before) + p.size := by
        simp [p.width_code]
      -- the next piece begins there, and decides
      have hnext (hq : 0 < q.size) (horigin : q.origin 0 = (q.file, q.offset)) :
          SameAnswer ((ofPieces (before ++ p :: q :: after)).map.resolve? (width (codeOf before) + p.size))
            (some (p.file, p.stop)) := by
        have hresolve := resolve?_piece (before ++ [p]) after q hq (Nat.zero_le _) (Or.inr hq)
        rw [horigin, hfile, hoffset, hstart, Nat.add_zero, List.append_assoc] at hresolve
        exact hresolve
      cases q with
      | copied f o part => exact hnext (Text.width_pos hsolid) rfl
      | directive f o d effect => exact hnext (Text.width_pos hsolid) rfl
      | separator f o => exact hnext Nat.one_pos rfl
      | expanded f o written m part =>
          refine absurd ?_ (hexpanded f o written m part)
          rw [mem_placed_iff, hpieces]
          exact ⟨before ++ [p], after, by simp, hstart.symm⟩

end

end SqfIndex.Preprocess
