import SqfIndex.Position.Mapper
import SqfIndex.Proofs.SourceMap.Merging

/-!
# Mappers and the texts of files

A mapper that begins with the text of a document keeps, whatever it loads, only lines of the texts that
the files have: `Faithful.position`.
-/

namespace SqfIndex.Mapper

/-! ## Kept lines -/

theorem lines?_congr (m : Mapper) {p q : Path} (h : p.same q = true) : m.lines? p = m.lines? q := by
  have hcomponents := Path.same_iff.mp h
  simp only [lines?, Path.same, hcomponents]

theorem lines?_cons (path : Path) (ix : LineIndex) (cache : List (Path × LineIndex)) (reads : Nat) (p : Path) :
    lines? ⟨(path, ix) :: cache, reads⟩ p = if path.same p then some ix else lines? ⟨cache, reads⟩ p := by
  cases h : path.same p <;> simp [lines?, h]

theorem lines?_load (read : Reader) (m : Mapper) (path p : Path) :
    (m.load read path).lines? p =
      if (m.lines? path).isNone ∧ path.same p = true then some (.ofText ((read path).toOption.getD [])) else m.lines? p := by
  unfold load
  cases h : m.lines? path with
  | some ix => simp
  | none =>
      simp only [lines?_cons, Option.isNone_none, true_and]
      rfl

theorem isSome_lines?_load (read : Reader) (m : Mapper) (path : Path) : ((m.load read path).lines? path).isSome = true := by
  rw [lines?_load]
  split
  · rfl
  · next h =>
    cases hl : m.lines? path with
    | some ix => rfl
    | none => exact absurd ⟨by rw [hl]; rfl, Path.same_refl path⟩ h

theorem isSome_lines?_of_load {m : Mapper} {p : Path} (h : (m.lines? p).isSome = true) (read : Reader) (path : Path) :
    ((m.load read path).lines? p).isSome = true := by
  rw [lines?_load]
  split
  · rfl
  · exact h

theorem isSome_lines?_loadAll {read : Reader} {m : Mapper} {paths : List Path} {p : Path}
    (h : p ∈ paths ∨ (m.lines? p).isSome = true) : ((m.loadAll read paths).lines? p).isSome = true := by
  induction paths generalizing m with
  | nil =>
      rcases h with h | h
      · cases h
      · exact h
  | cons path paths ih =>
      refine @ih (m.load read path) ?_
      rcases h with h | h
      · rcases List.mem_cons.mp h with rfl | h
        · exact Or.inr (isSome_lines?_load read m p)
        · exact Or.inl h
      · exact Or.inr (isSome_lines?_of_load h read path)

theorem lines?_loadAll_of_kept {m : Mapper} {p : Path} {ix : LineIndex} (h : m.lines? p = some ix) (read : Reader)
    (paths : List Path) : (m.loadAll read paths).lines? p = some ix := by
  induction paths generalizing m with
  | nil => exact h
  | cons path paths ih =>
      refine @ih (m.load read path) ?_
      rw [lines?_load]
      split
      · next hnew =>
        rw [lines?_congr m hnew.2, h] at hnew
        cases hnew.1
      · exact h

/-- Whatever is read later, positions in the document are those of the text at hand. -/
theorem position_document {file path : Path} (hsame : path.same file = true) (text : List Char) (read : Reader)
    (paths : List Path) (offset : Nat) :
    ((Mapper.preload {} file text).loadAll read paths).position path offset = (LineIndex.ofText text).position offset := by
  have hheld : (Mapper.preload {} file text).lines? path = some (.ofText text) := by
    rw [lines?_congr _ hsame]
    simp [Mapper.preload, lines?_cons, Path.same_refl]
  rw [Mapper.position, lines?_loadAll_of_kept hheld]
  rfl

/-! ## Texts of files -/

/-- `source` gives the text of each file. That of the document `file` is at hand, the others are read,
however their paths are written. -/
structure ReadsFrom (source : Path → Option (List Char)) (read : Reader) (file : Path) (text : List Char) : Prop where
  document : ∀ {f t}, f.same file = true → source f = some t → t = text
  others : ∀ {path f t}, path.same f = true → f.same file = false → source f = some t → read path = .ok t

/-- The document is kept, and whatever is kept are the lines of its file. -/
structure Faithful (source : Path → Option (List Char)) (file : Path) (m : Mapper) : Prop where
  held : (m.lines? file).isSome = true
  agrees : ∀ {path f t ix}, path.same f = true → source f = some t → m.lines? path = some ix → ix = .ofText t

section

variable {source : Path → Option (List Char)} {read : Reader} {file : Path} {text : List Char}

theorem Faithful.preload (h : ReadsFrom source read file text) : Faithful source file (Mapper.preload {} file text) where
  held := by simp [Mapper.preload, lines?_cons, Path.same_refl]
  agrees := by
    intro path f t ix hsame hsource hix
    simp only [Mapper.preload, List.filter_nil, lines?_cons] at hix
    split at hix
    · next hfile =>
      cases hix
      rw [h.document (Path.same_symm (Path.same_trans hfile hsame)) hsource]
    · cases hix

theorem Faithful.load {m : Mapper} (hm : Faithful source file m) (h : ReadsFrom source read file text) (path : Path) :
    Faithful source file (m.load read path) where
  held := isSome_lines?_of_load hm.held read path
  agrees := by
    intro p f t ix hsame hsource hix
    rw [lines?_load] at hix
    split at hix
    · next hnew =>
      cases hix
      have hpath := Path.same_trans hnew.2 hsame
      -- what is read now is not the document, which is kept
      have hother : f.same file = false := by
        cases hf : f.same file with
        | false => rfl
        | true =>
            have hheld := hm.held
            rw [← lines?_congr m (Path.same_trans hpath hf), ← Option.not_isNone, hnew.1] at hheld
            cases hheld
      rw [h.others hpath hother hsource]
      rfl
    · exact hm.agrees hsame hsource hix

theorem Faithful.loadAll {m : Mapper} (hm : Faithful source file m) (h : ReadsFrom source read file text)
    (paths : List Path) : Faithful source file (m.loadAll read paths) := by
  induction paths generalizing m with
  | nil => exact hm
  | cons path paths ih => exact ih (hm.load h path)

theorem Faithful.position {m : Mapper} (hm : Faithful source file m) {path f : Path} {t : List Char}
    (hkept : (m.lines? path).isSome = true) (hsame : path.same f = true) (hsource : source f = some t) (offset : Nat) :
    m.position path offset = (LineIndex.ofText t).position offset := by
  obtain ⟨ix, hix⟩ := Option.isSome_iff_exists.mp hkept
  rw [Mapper.position, hix, hm.agrees hsame hsource hix]
  rfl

end

end SqfIndex.Mapper
