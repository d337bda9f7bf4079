import Mathlib.Data.List.Basic
import SqfIndex.Proofs.Preprocess.Trace
import SqfIndex.Proofs.Script.Tokens

/-!
# Words at the ends of pieces

A copied piece may end within a word as far as its own text tells. What comes next shows that the word
is over: more text of the same file that does not go on with it, a line feed put after the file, or
nothing at all. This is `Closed`, and `closed_pieces` says it of all pieces of a document.
-/

namespace SqfIndex.Preprocess

open Text (width)

/-! ## Words at the end of a text -/

/-- A text that ends in an identifier. -/
def EndsInWord (text : List Char) : Prop := ∃ w, w <:+ text ∧ Script.isIdentifier w = true

theorem EndsInWord.of_suffix {part text : List Char} (h : EndsInWord part) (hs : part <:+ text) : EndsInWord text := by
  obtain ⟨w, hw, hi⟩ := h
  exact ⟨w, hw.trans hs, hi⟩

theorem EndsInWord.ne_nil {text : List Char} (h : EndsInWord text) : text ≠ [] := by
  obtain ⟨w, hw, hi⟩ := h
  rintro rfl
  rw [List.suffix_nil.mp hw] at hi
  cases hi

theorem EndsInWord.isWordChar_getLast? {text : List Char} (h : EndsInWord text) {c : Char}
    (hc : text.getLast? = some c) : Script.isWordChar c = true := by
  obtain ⟨w, ⟨before, rfl⟩, hi⟩ := h
  have hw : w ≠ [] := by
    rintro rfl
    cases hi
  rw [List.getLast?_append_of_ne_nil _ hw] at hc
  exact Script.isWordChar_of_mem hi (List.mem_of_getLast? hc)

theorem EndsInWord.getLast?_ne {text : List Char} (h : EndsInWord text) : text.getLast? ≠ some '\n' := by
  intro he
  have := h.isWordChar_getLast? he
  simp [Script.isWordChar] at this

/-! ## Closed words -/

/-- Pieces that come after text of `f` which ends at `stop`, and do not go on with a word there. -/
def Follows (f : Path) (stop : Nat) : List Piece → Prop
  | [] => True
  | .copied g offset part :: _ => g = f ∧ offset = stop ∧ ∃ c rest, part = c :: rest ∧ Script.isWordChar c = false
  | .separator g offset :: _ => g = f ∧ offset = stop
  | _ => False

/-- Words at the ends of copied pieces are over there. -/
def Closed : List Piece → Prop
  | [] => True
  | .copied f offset part :: ps => (EndsInWord part → Follows f (offset + width part) ps) ∧ Closed ps
  | _ :: ps => Closed ps

/-- The last piece is text of `f` that ends in a word, at `stop`. -/
def OpenAt (ps : List Piece) (f : Path) (stop : Nat) : Prop :=
  ∃ offset part, ps.getLast? = some (.copied f offset part) ∧ EndsInWord part ∧ stop = offset + width part

theorem Closed.tail {p : Piece} {ps : List Piece} (h : Closed (p :: ps)) : Closed ps := by
  cases p with
  | copied => exact h.2
  | expanded => exact h
  | directive => exact h
  | separator => exact h

theorem Closed.follows {before after : List Piece} {f : Path} {offset : Nat} {part : List Char}
    (h : Closed (before ++ .copied f offset part :: after)) (hw : EndsInWord part) :
    Follows f (offset + width part) after := by
  induction before with
  | nil => exact h.1 hw
  | cons p before ih => exact ih h.tail

theorem OpenAt.of_append {ps qs : List Piece} {f : Path} {stop : Nat} (h : OpenAt (ps ++ qs) f stop) :
    OpenAt qs f stop ∨ (qs = [] ∧ OpenAt ps f stop) := by
  obtain ⟨offset, part, hlast, hw, hstop⟩ := h
  cases qs with
  | nil =>
      rw [List.append_nil] at hlast
      exact Or.inr ⟨rfl, offset, part, hlast, hw, hstop⟩
  | cons q qs =>
      rw [List.getLast?_append_of_ne_nil _ (List.cons_ne_nil q qs)] at hlast
      exact Or.inl ⟨offset, part, hlast, hw, hstop⟩

theorem OpenAt.cons {p : Piece} {ps : List Piece} {f : Path} {stop : Nat} (h : OpenAt ps f stop) :
    OpenAt (p :: ps) f stop := by
  obtain ⟨offset, part, hlast, hw, hstop⟩ := h
  have hne : ps ≠ [] := by
    rintro rfl
    cases hlast
  exact ⟨offset, part, by rw [← List.singleton_append, List.getLast?_append_of_ne_nil _ hne, hlast], hw, hstop⟩

theorem Follows.append {f : Path} {stop : Nat} {ps qs : List Piece} (h : Follows f stop ps) (hne : ps ≠ []) :
    Follows f stop (ps ++ qs) := by
  cases ps with
  | nil => exact absurd rfl hne
  | cons p ps => cases p <;> exact h

theorem Closed.append {ps qs : List Piece} (hp : Closed ps) (hq : Closed qs)
    (h : ∀ f stop, OpenAt ps f stop → Follows f stop qs) : Closed (ps ++ qs) := by
  induction ps with
  | nil => exact hq
  | cons p ps ih =>
      have hrest : Closed (ps ++ qs) := ih hp.tail (fun f stop ho => h f stop ho.cons)
      cases p with
      | copied f offset part =>
          refine ⟨?_, hrest⟩
          intro hw
          by_cases hne : ps = []
          · subst hne
            exact h f _ ⟨offset, part, rfl, hw, rfl⟩
          · exact (hp.1 hw).append hne
      | expanded => exact hrest
      | directive => exact hrest
      | separator => exact hrest

/-! ## Lines of code -/

/-- A line that does not begin with a word begins with text that stays. -/
theorem fragments_cons {ms : Macros} {c : Char} {rest : List Char} (hc : Script.isWordChar c = false) :
    ∃ part fs, fragments ms (c :: rest) = .plain (c :: part) :: fs := by
  have hs : Script.isWordStart c = false := by
    cases h : Script.isWordStart c with
    | false => rfl
    | true => rw [Script.isWordChar_of_isWordStart h] at hc; cases hc
  unfold fragments
  split
  · split
    · exact ⟨_, _, rfl⟩
    · exact ⟨_, _, rfl⟩
  · split
    · exact ⟨_, _, rfl⟩
    · rw [hs]
      exact ⟨_, _, rfl⟩

theorem follows_fragments (f : Path) (offset : Nat) (ms : Macros) {rest : List Char}
    (h : ∀ c, rest.head? = some c → Script.isWordChar c = false) :
    Follows f offset (piecesOf f offset (fragments ms rest)) := by
  cases rest with
  | nil => simp [fragments, piecesOf, Follows]
  | cons c rest =>
      have hc := h c rfl
      obtain ⟨part, fs, hfs⟩ := @fragments_cons ms c rest hc
      rw [hfs]
      exact ⟨rfl, rfl, c, part, rfl, hc⟩

theorem closed_line (f : Path) (offset : Nat) (ms : Macros) (line : List Char) :
    Closed (piecesOf f offset (fragments ms line)) := by
  fun_induction fragments ms line generalizing offset with
  | case1 => trivial
  | case2 | case4 => exact ⟨fun _ => trivial, trivial⟩
  | case3 c rest hq q after hc ih =>
      refine ⟨?_, ih _⟩
      intro hw
      -- a quote ends here, and a quote is no part of a word
      have hword : Script.isWordChar q = true := hw.isWordChar_getLast? (List.getLast?_append_of_ne_nil _ (List.cons_ne_nil q []))
      have hqc : q = c := by
        have := List.head?_dropWhile_not (· != c) rest
        rw [hc] at this
        simpa using this
      rw [hqc, Script.isWordChar_eq_false_of_isQuote hq] at hword
      cases hword
  | case5 c rest _ _ _ name after m i found ih => exact ih _
  | case6 c rest _ _ _ name after _ ih =>
      refine ⟨?_, ih _⟩
      intro _
      refine follows_fragments f _ ms ?_
      intro d hd
      exact Script.isWordChar_head?_dropWhile hd
  | case7 c rest _ _ hs ih =>
      refine ⟨?_, ih _⟩
      rintro ⟨w, hw, hi⟩
      rcases List.suffix_cons_iff.mp hw with rfl | hw
      · simp [Script.isIdentifier, hs] at hi
      · rw [List.suffix_nil.mp hw] at hi
        cases hi

theorem openAt_piecesOf {f g : Path} {offset stop : Nat} {fs : List Fragment}
    (h : OpenAt (piecesOf f offset fs) g stop) :
    g = f ∧ stop = offset + width (fs.flatMap Fragment.written) ∧ EndsInWord (fs.flatMap Fragment.written) := by
  induction fs generalizing offset with
  | nil =>
      obtain ⟨_, _, hlast, _⟩ := h
      cases hlast
  | cons x fs ih =>
      rw [piecesOf_cons, ← List.singleton_append] at h
      rcases h.of_append with h | ⟨hnil, o, part, hlast, hw, rfl⟩
      · obtain ⟨rfl, rfl, hw⟩ := ih h
        refine ⟨rfl, by simp [Nat.add_assoc], hw.of_suffix ?_⟩
        exact ⟨x.written, rfl⟩
      · have hfs : fs = [] := by
          cases fs with
          | nil => rfl
          | cons y fs => rw [piecesOf_cons] at hnil; cases hnil
        subst hfs
        cases x with
        | plain text =>
            cases hlast
            exact ⟨rfl, by simp [Fragment.written], by simpa [Fragment.written] using hw⟩
        | invocation m written expansion => cases hlast

/-! ## Whole texts -/

/-- The pieces of the text `t` of `f`, from `base` on: words are closed, but for one at the end of `t`. -/
structure Tidy (f : Path) (base : Nat) (t : List Char) (ps : List Piece) : Prop where
  closed : Closed ps
  ending : ∀ g stop, OpenAt ps g stop → g = f ∧ stop = base + width t ∧ EndsInWord t

theorem tidy_line (f : Path) (base : Nat) (ms : Macros) (line : List Char) :
    Tidy f base line (piecesOf f base (fragments ms line)) where
  closed := closed_line f base ms line
  ending := by
    intro g stop h
    have := openAt_piecesOf h
    rwa [flatMap_written_fragments] at this

/-- Whatever a directive brings in, no word is left open after it. -/
theorem tidy_directive {r : Resolver} {enter : Option (Path → List Char → Work)} (f : Path) (base : Nat)
    (d : List Char) (ms : Macros) (henter : ∀ work, enter = some work → ∀ path t ms, Tidy path 0 t (work path t ms).1) :
    Tidy f base d (directive r enter f base d ms).1 := by
  suffices Closed (directive r enter f base d ms).1 ∧ ∀ g stop, ¬OpenAt (directive r enter f base d ms).1 g stop by
    exact ⟨this.1, fun g stop h => absurd h (this.2 g stop)⟩
  have hin (g : Path) (stop : Nat) : ¬OpenAt (.directive f base d (effectOf r enter.isSome f base d) :: leadIn f base d)
      g stop := by
    unfold leadIn
    rintro ⟨_, _, hlast, _⟩
    split at hlast <;> cases hlast
  rcases directive_cases r enter f base d ms with h | ⟨work, requested, path, t, rfl, _, _, h⟩
  · rw [h]
    refine ⟨trivial, ?_⟩
    rintro g stop ⟨_, _, hlast, _⟩
    cases hlast
  · rw [h]
    obtain ⟨hclosed, hending⟩ := henter work rfl path t ms
    have hbefore : Closed (.directive f base d (effectOf r (some work).isSome f base d) :: leadIn f base d) := by
      unfold leadIn
      split <;> trivial
    have hafter : Closed (leadOut path t) := by
      unfold leadOut
      split <;> trivial
    -- a word at the end of the included text calls for a line feed
    have hout {g : Path} {stop : Nat} (ho : OpenAt (work path t ms).1 g stop) : leadOut g t = [.separator g stop] ∧ g = path := by
      obtain ⟨rfl, rfl, hw⟩ := hending g stop ho
      simp [leadOut, hw.ne_nil, hw.getLast?_ne]
    constructor
    · refine (hbefore.append hclosed (fun g stop ho => absurd ho (hin g stop))).append hafter ?_
      intro g stop ho
      rcases ho.of_append with ho | ⟨_, ho⟩
      · obtain ⟨hl, rfl⟩ := hout ho
        rw [hl]
        exact ⟨rfl, rfl⟩
      · exact absurd ho (hin g stop)
    · intro g stop ho
      rcases ho.of_append with ho | ⟨hnil, ho⟩
      · unfold leadOut at ho
        obtain ⟨_, _, hlast, _⟩ := ho
        split at hlast <;> cases hlast
      · rcases ho.of_append with ho | ⟨_, ho⟩
        · obtain ⟨hl, rfl⟩ := hout ho
          rw [hl] at hnil
          cases hnil
        · exact hin g stop ho

/-- Every text but the last ends in a line feed. -/
def LinesEnd (ls : List (List Char)) : Prop :=
  ∀ before l after, ls = before ++ l :: after → after ≠ [] → l.getLast? = some '\n'

theorem LinesEnd.tail {l : List Char} {ls : List (List Char)} (h : LinesEnd (l :: ls)) : LinesEnd ls := by
  intro before x after he
  exact h (l :: before) x after (by rw [he]; rfl)

theorem LinesEnd.head {l : List Char} {ls : List (List Char)} (h : LinesEnd (l :: ls)) (hne : ls ≠ []) :
    l.getLast? = some '\n' :=
  h [] l ls rfl hne

theorem LinesEnd.cons {l : List Char} {ls : List (List Char)} (hl : ls ≠ [] → l.getLast? = some '\n')
    (h : LinesEnd ls) : LinesEnd (l :: ls) := by
  intro before x after he hne
  cases before with
  | nil => cases he; exact hl hne
  | cons y before =>
      rw [List.cons_append, List.cons.injEq] at he
      exact h before x after he.2 hne

theorem linesEnd_chunksFrom (begun : Option (List Char)) {ls : List (List Char)} (h : LinesEnd ls) :
    LinesEnd ((chunksFrom begun ls).map Chunk.text) := by
  have hnil {ls : List (List Char)} (hne : (chunksFrom none ls).map Chunk.text ≠ []) : ls ≠ [] := by
    rintro rfl
    exact hne rfl
  fun_induction chunksFrom begun ls with
  | case1 => exact h
  | case2 d => exact .cons (fun hne => absurd rfl hne) h
  | case3 l ls _ _ ih => exact ih h.tail
  | case4 l ls _ _ ih => exact .cons (fun hne => h.head (hnil hne)) (ih h.tail)
  | case5 l ls _ ih => exact .cons (fun hne => h.head (hnil hne)) (ih h.tail)
  | case6 d l ls _ ih => exact ih h.tail
  | case7 d l ls _ ih =>
      refine .cons ?_ (ih h.tail)
      intro hne
      -- the last line of a directive ends it
      have hl := h.head (hnil hne)
      have hl' : l ≠ [] := by
        rintro rfl
        cases hl
      rw [Chunk.text, List.getLast?_append_of_ne_nil _ hl', hl]

theorem linesEnd_chunks (text : List Char) : LinesEnd ((chunks text).map Chunk.text) :=
  linesEnd_chunksFrom none (fun _ _ _ h hne => Text.getLast?_of_rawLines h hne)

theorem tidy_chunkwise {r : Resolver} {enter : Option (Path → List Char → Work)} (f : Path) (base : Nat)
    {cs : List Chunk} (hcs : LinesEnd (cs.map Chunk.text)) (ms : Macros)
    (henter : ∀ work, enter = some work → ∀ path t ms, Tidy path 0 t (work path t ms).1) :
    Tidy f base (cs.flatMap Chunk.text) (chunkwise r enter f base cs ms).1 := by
  induction cs generalizing base ms with
  | nil => exact ⟨trivial, by rintro g stop ⟨_, _, hlast, _⟩; cases hlast⟩
  | cons c cs ih =>
      -- one chunk, then the rest under the macros it leaves
      suffices ∀ first : Work, Tidy f base c.text (first ms).1 → Tidy f base ((c :: cs).flatMap Chunk.text)
          (first.andThen (chunkwise r enter f (base + width c.text) cs) ms).1 by
        cases c with
        | code text => exact this (line f base text) (tidy_line f base ms text)
        | directive d => exact this (directive r enter f base d) (tidy_directive f base d ms henter)
      intro first hfirst
      have hrest := ih (base + width c.text) hcs.tail (first ms).2
      have hshut (hne : cs ≠ []) (g : Path) (stop : Nat) : ¬OpenAt (first ms).1 g stop := by
        intro ho
        obtain ⟨_, _, hw⟩ := hfirst.ending g stop ho
        exact hw.getLast?_ne (hcs.head (by simpa using hne))
      constructor
      · refine hfirst.closed.append hrest.closed ?_
        intro g stop ho
        by_cases hne : cs = []
        · subst hne; trivial
        · exact absurd ho (hshut hne g stop)
      · intro g stop ho
        rcases ho.of_append with ho' | ⟨_, ho'⟩
        · obtain ⟨rfl, rfl, hw⟩ := hrest.ending g stop ho'
          exact ⟨rfl, by simp [Nat.add_assoc], hw.of_suffix ⟨c.text, rfl⟩⟩
        · by_cases hne : cs = []
          · subst hne
            obtain ⟨rfl, rfl, hw⟩ := hfirst.ending g stop ho'
            exact ⟨rfl, by simp, by simpa using hw⟩
          · exact absurd ho' (hshut hne g stop)

theorem tidy_work (r : Resolver) (levels : Nat) (f : Path) (t : List Char) (ms : Macros) :
    Tidy f 0 t (work r levels f t ms).1 := by
  induction levels generalizing f t ms with
  | zero =>
      have h := @tidy_chunkwise r none f 0 _ (linesEnd_chunks t) ms (by simp)
      rwa [flatMap_text_chunks] at h
  | succ levels ih =>
      have h := @tidy_chunkwise r (some (work r levels)) f 0 _ (linesEnd_chunks t) ms
        (by rintro w ⟨⟩ path t ms; exact ih path t ms)
      rwa [flatMap_text_chunks] at h

/-- In the pieces of a document every word at the end of a copied piece is over there. -/
theorem closed_pieces (r : Resolver) (file : Path) (text : List Char) : Closed (pieces r file text) :=
  (tidy_work r depthLimit file text []).closed

end SqfIndex.Preprocess
