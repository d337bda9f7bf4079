import SqfIndex.Preprocess.Run
import SqfIndex.Proofs.Preprocess.Lines

/-!
# Tracing pieces to the files they come from

`Reached` tells the texts that are worked off for a document. What holds of the pieces of every chunk
of a reached text, under macros that were defined in reached texts, holds of all pieces of the document:
`PieceLaw.pieces`. The law that is used throughout is `Piece.Traced`: a piece comes from a chunk of a
reached text.
-/

namespace SqfIndex.Preprocess

open Text (width StandsAt)

/-! ## Outcomes of directives -/

/-- What comes of a directive; `nested` says whether a further level of includes is allowed. -/
def effectOf (r : Resolver) (nested : Bool) (file : Path) (offset : Nat) (text : List Char) : Effect :=
  match readCommand file offset text with
  | .nothing => .none
  | .define _ record => .defined record
  | .undefine name => .undefined name
  | .fetch requested =>
    match fetch r nested file requested with
    | .ok (path, _) => .included (String.ofList requested) path
    | .error (tried, e) => .refused (String.ofList requested) tried e

/-- The macros in force after a directive that enters no file. -/
def macrosAfter (file : Path) (offset : Nat) (text : List Char) (ms : Macros) : Macros :=
  match readCommand file offset text with
  | .define m _ => ms.define m
  | .undefine name => ms.erase name
  | _ => ms

/-- The line feed before included text, where the directive has none. -/
def leadIn (file : Path) (offset : Nat) (text : List Char) : List Piece :=
  if text.getLast? = some '\n' then [] else [.separator file (offset + width text)]

/-- The line feed after included text that does not end a line. -/
def leadOut (path : Path) (included : List Char) : List Piece :=
  if included = [] ∨ included.getLast? = some '\n' then [] else [.separator path (width included)]

/-- A directive enters a file, or it does not and leaves one piece. -/
theorem directive_cases (r : Resolver) (enter : Option (Path → List Char → Work)) (file : Path) (offset : Nat)
    (text : List Char) (ms : Macros) :
    (directive r enter file offset text ms =
      ([.directive file offset text (effectOf r enter.isSome file offset text)], macrosAfter file offset text ms)) ∨
    ∃ work requested path included, enter = some work ∧ readCommand file offset text = .fetch requested ∧
      fetch r true file requested = .ok (path, included) ∧
      directive r enter file offset text ms =
        (.directive file offset text (effectOf r enter.isSome file offset text) :: leadIn file offset text ++
          (work path included ms).1 ++ leadOut path included, (work path included ms).2) := by
  unfold directive effectOf macrosAfter
  cases hc : readCommand file offset text with
  | nothing => exact Or.inl rfl
  | define m record => exact Or.inl rfl
  | undefine name => exact Or.inl rfl
  | fetch requested =>
      cases enter with
      | none => exact Or.inl rfl
      | some work =>
          cases hf : fetch r true file requested with
          | error e => exact Or.inl (by simp [hf])
          | ok found =>
              obtain ⟨path, included⟩ := found
              exact Or.inr ⟨work, requested, path, included, rfl, rfl, hf, by simp [hf, leadIn, leadOut]⟩

/-! ## Reached texts -/

/-- The texts that are worked off for a document, with their files and the depth of their includes. -/
inductive Reached (r : Resolver) (file : Path) (text : List Char) : Nat → Path → List Char → Prop
  | document : Reached r file text 0 file text
  | included {depth : Nat} {f : Path} {t : List Char} {offset : Nat} {d requested : List Char} {path : Path}
      {t' : List Char} :
      Reached r file text depth f t → depth < depthLimit → HasChunk t offset (.directive d) →
      readCommand f offset d = .fetch requested → fetch r true f requested = .ok (path, t') →
      Reached r file text (depth + 1) path t'

/-- The text of a file: that of the document for its own path, and otherwise what the resolver loads. -/
def textOf (r : Resolver) (file : Path) (text : List Char) (f : Path) : Option (List Char) :=
  if f.same file then some text else (r.load f).toOption

/-- Where the resolver loads the document itself, it gives the text of the document. -/
def Consistent (r : Resolver) (file : Path) (text : List Char) : Prop :=
  ∀ f t, f.same file = true → r.load f = .ok t → t = text

theorem fetch_ok {r : Resolver} {nested : Bool} {file path : Path} {requested t : List Char}
    (h : fetch r nested file requested = .ok (path, t)) : r.load path = .ok t := by
  unfold fetch at h
  split at h
  · cases h
  · split at h
    · cases h
    · split at h
      · cases h
      · split at h
        · cases h
        · next hload => cases h; exact hload

theorem textOf_of_load {r : Resolver} {file f : Path} {text t : List Char} (h : Consistent r file text)
    (hload : r.load f = .ok t) : textOf r file text f = some t := by
  unfold textOf
  split
  · next hsame => rw [h f t hsame hload]
  · rw [hload]; rfl

theorem Reached.textOf {r : Resolver} {file f : Path} {text t : List Char} {depth : Nat}
    (hr : Reached r file text depth f t) (h : Consistent r file text) : textOf r file text f = some t := by
  cases hr with
  | document => simp [Preprocess.textOf, Path.same]
  | included _ _ _ _ hfetch => exact textOf_of_load h (fetch_ok hfetch)

/-! ## From chunks to documents -/

/-- Under macros with `Q` a work makes pieces with `P` and leaves macros with `Q`. -/
def Work.Keeps (Q : Macro → Prop) (P : Piece → Prop) (w : Work) : Prop :=
  ∀ ms, (∀ m ∈ ms, Q m) → (∀ p ∈ (w ms).1, P p) ∧ ∀ m ∈ (w ms).2, Q m

theorem Work.Keeps.andThen {Q : Macro → Prop} {P : Piece → Prop} {first second : Work} (h : first.Keeps Q P)
    (h' : second.Keeps Q P) : (first.andThen second).Keeps Q P := by
  intro ms hms
  obtain ⟨hp, hq⟩ := h ms hms
  obtain ⟨hp', hq'⟩ := h' _ hq
  refine ⟨?_, hq'⟩
  intro p hmem
  rcases List.mem_append.mp hmem with hmem | hmem
  · exact hp p hmem
  · exact hp' p hmem

/-- What is to be shown of pieces and macros, one chunk of a reached text at a time. -/
structure PieceLaw (r : Resolver) (file : Path) (text : List Char) (Q : Macro → Prop) (P : Piece → Prop) : Prop where
  code : ∀ {depth f t offset line ms}, Reached r file text depth f t → HasChunk t offset (.code line) →
    (∀ m ∈ ms, Q m) → ∀ p ∈ piecesOf f offset (fragments ms line), P p
  directive : ∀ {depth f t offset d}, Reached r file text depth f t → HasChunk t offset (.directive d) →
    P (.directive f offset d (effectOf r (depth < depthLimit) f offset d))
  define : ∀ {depth f t offset d m record}, Reached r file text depth f t → HasChunk t offset (.directive d) →
    readCommand f offset d = .define m record → Q m
  leadIn : ∀ {depth f t offset d requested}, Reached r file text depth f t → HasChunk t offset (.directive d) →
    readCommand f offset d = .fetch requested → P (.separator f (offset + width d))
  leadOut : ∀ {depth path t}, Reached r file text (depth + 1) path t → P (.separator path (width t))

namespace PieceLaw

variable {r : Resolver} {file : Path} {text : List Char} {Q : Macro → Prop} {P : Piece → Prop}

theorem macrosAfter (law : PieceLaw r file text Q P) {depth : Nat} {f : Path} {t : List Char} {offset : Nat}
    {d : List Char} {ms : Macros} (hr : Reached r file text depth f t) (hc : HasChunk t offset (.directive d))
    (hms : ∀ m ∈ ms, Q m) : ∀ m ∈ Preprocess.macrosAfter f offset d ms, Q m := by
  have herase (name : List Char) : ∀ m ∈ ms.erase name, Q m := fun m hm => hms m (List.mem_filter.mp hm).1
  unfold Preprocess.macrosAfter
  cases hcmd : readCommand f offset d with
  | nothing => exact hms
  | define m record => exact List.forall_mem_cons.mpr ⟨law.define hr hc hcmd, herase m.name⟩
  | undefine name => exact herase name
  | fetch requested => exact hms

theorem keeps_directive (law : PieceLaw r file text Q P) {depth : Nat} {f : Path} {t : List Char} {offset : Nat}
    {d : List Char} {enter : Option (Path → List Char → Work)} (hr : Reached r file text depth f t)
    (hc : HasChunk t offset (.directive d)) (hsome : enter.isSome = decide (depth < depthLimit))
    (henter : ∀ work, enter = some work → ∀ path t', Reached r file text (depth + 1) path t' → (work path t').Keeps Q P) :
    (Preprocess.directive r enter f offset d).Keeps Q P := by
  intro ms hms
  have hd : P (.directive f offset d (effectOf r enter.isSome f offset d)) := hsome ▸ law.directive hr hc
  rcases directive_cases r enter f offset d ms with h | ⟨work, requested, path, t', rfl, hcmd, hfetch, h⟩
  · rw [h]
    exact ⟨by simpa using hd, law.macrosAfter hr hc hms⟩
  · have hlt : depth < depthLimit := by simpa using hsome.symm
    have hr' : Reached r file text (depth + 1) path t' := .included hr hlt hc hcmd hfetch
    obtain ⟨hp, hq⟩ := henter work rfl path t' hr' ms hms
    rw [h]
    refine ⟨?_, hq⟩
    intro p hmem
    simp only [List.cons_append, List.mem_cons, List.mem_append] at hmem
    rcases hmem with rfl | (hmem | hmem) | hmem
    · exact hd
    · unfold Preprocess.leadIn at hmem
      split at hmem
      · cases hmem
      · rw [List.mem_singleton] at hmem
        exact hmem ▸ law.leadIn hr hc hcmd
    · exact hp p hmem
    · unfold Preprocess.leadOut at hmem
      split at hmem
      · cases hmem
      · rw [List.mem_singleton] at hmem
        exact hmem ▸ law.leadOut hr'

theorem keeps_chunkwise (law : PieceLaw r file text Q P) {depth : Nat} {f : Path} {t : List Char}
    {enter : Option (Path → List Char → Work)} (hr : Reached r file text depth f t)
    (hsome : enter.isSome = decide (depth < depthLimit))
    (henter : ∀ work, enter = some work → ∀ path t', Reached r file text (depth + 1) path t' → (work path t').Keeps Q P)
    {before cs : List Chunk} (hcs : chunks t = before ++ cs) :
    (chunkwise r enter f (width (before.flatMap Chunk.text)) cs).Keeps Q P := by
  induction cs generalizing before with
  | nil => intro ms hms; exact ⟨by simp [chunkwise], hms⟩
  | cons c cs ih =>
      have hc : HasChunk t (width (before.flatMap Chunk.text)) c := ⟨before, cs, hcs, rfl⟩
      have hrest := @ih (before ++ [c]) (by simp [hcs])
      rw [List.flatMap_append, Text.width_append, List.flatMap_singleton] at hrest
      cases c with
      | code line =>
          refine Work.Keeps.andThen ?_ hrest
          intro ms hms
          exact ⟨law.code hr hc hms, hms⟩
      | directive d => exact (law.keeps_directive hr hc hsome henter).andThen hrest

theorem keeps_work (law : PieceLaw r file text Q P) (levels : Nat) {depth : Nat} {f : Path} {t : List Char}
    (hr : Reached r file text depth f t) (hlevels : depth + levels = depthLimit) :
    (work r levels f t).Keeps Q P := by
  induction levels generalizing depth f t with
  | zero =>
      refine @keeps_chunkwise _ _ _ _ _ law depth f t none hr ?_ (by simp) [] _ rfl
      simp only [Option.isSome_none, false_eq_decide_iff]
      omega
  | succ levels ih =>
      refine @keeps_chunkwise _ _ _ _ _ law depth f t (some (work r levels)) hr ?_ ?_ [] _ rfl
      · simp only [Option.isSome_some, true_eq_decide_iff]
        omega
      · intro w hw path t' hr'
        cases hw
        exact ih hr' (by omega)

/-- A law of chunks holds of all pieces of the document. -/
theorem pieces (law : PieceLaw r file text Q P) : ∀ p ∈ Preprocess.pieces r file text, P p :=
  (law.keeps_work depthLimit .document (Nat.zero_add _) [] (by simp)).1

end PieceLaw

/-! ## Pieces of a line -/

/-- The piece that a fragment at `offset` becomes. -/
def Fragment.piece (file : Path) (offset : Nat) : Fragment → Piece
  | plain text => .copied file offset text
  | invocation m written expansion => .expanded file offset written m expansion

theorem piecesOf_cons (file : Path) (offset : Nat) (f : Fragment) (fs : List Fragment) :
    piecesOf file offset (f :: fs) = f.piece file offset :: piecesOf file (offset + width f.written) fs := by
  cases f <;> rfl

theorem exists_fragment_of_mem_piecesOf {file : Path} {offset : Nat} {fs : List Fragment} {p : Piece}
    (h : p ∈ piecesOf file offset fs) :
    ∃ before f after, fs = before ++ f :: after ∧
      p = f.piece file (offset + width (before.flatMap Fragment.written)) := by
  induction fs generalizing offset with
  | nil => cases h
  | cons f fs ih =>
      rw [piecesOf_cons] at h
      rcases List.mem_cons.mp h with rfl | h
      · exact ⟨[], f, fs, rfl, by simp⟩
      · obtain ⟨before, g, after, rfl, rfl⟩ := ih h
        exact ⟨f :: before, g, after, rfl, by simp [Nat.add_assoc]⟩

/-! ## Traced pieces -/

/-- `part` stands at byte `offset` of a text, in a line of code. -/
def InCode (t : List Char) (offset : Nat) (part : List Char) : Prop :=
  ∃ start inner line, HasChunk t start (.code line) ∧ StandsAt line inner part ∧ offset = start + inner

theorem InCode.standsAt {t : List Char} {offset : Nat} {part : List Char} (h : InCode t offset part) :
    StandsAt t offset part := by
  obtain ⟨start, inner, line, hc, hs, rfl⟩ := h
  exact hc.standsAt.trans hs

/-- A macro was defined by a directive of a reached text. -/
def Defined (r : Resolver) (file : Path) (text : List Char) (m : Macro) : Prop :=
  ∃ depth t offset d record, Reached r file text depth m.file t ∧ HasChunk t offset (.directive d) ∧
    readCommand m.file offset d = .define m record

/-- A piece comes from a chunk of a reached text. -/
def Piece.Traced (r : Resolver) (file : Path) (text : List Char) : Piece → Prop
  | .copied f offset part => ∃ depth t, Reached r file text depth f t ∧ InCode t offset part
  | .expanded f offset written m part =>
    (∃ depth t, Reached r file text depth f t ∧ InCode t offset written) ∧ Defined r file text m ∧
      ∃ after i, m.invoke? after = some i ∧ part = i.expansion
  | .directive f offset d _ => ∃ depth t, Reached r file text depth f t ∧ HasChunk t offset (.directive d)
  | .separator f offset =>
    (∃ depth t start d requested, Reached r file text depth f t ∧ HasChunk t start (.directive d) ∧
      readCommand f start d = .fetch requested ∧ offset = start + width d) ∨
    ∃ depth t, Reached r file text (depth + 1) f t ∧ offset = width t

theorem readCommand_define {f : Path} {offset : Nat} {d : List Char} {m : Macro} {record : MacroRecord}
    (h : readCommand f offset d = .define m record) :
    ∃ args, readDefine f (offset + width d) args = .define m record ∧ args <:+ d := by
  unfold readCommand at h
  simp only at h
  split at h
  · refine ⟨_, h, ?_⟩
    exact (List.dropWhile_suffix _).trans ((List.dropWhile_suffix _).trans ((List.drop_suffix _ _).trans
      (List.dropWhile_suffix _)))
  all_goals cases h

theorem file_of_readCommand {f : Path} {offset : Nat} {d : List Char} {m : Macro} {record : MacroRecord}
    (h : readCommand f offset d = .define m record) : m.file = f := by
  obtain ⟨args, h, _⟩ := readCommand_define h
  unfold readDefine at h
  simp only at h
  split at h
  · cases h
  · cases h; rfl

theorem traced_law (r : Resolver) (file : Path) (text : List Char) :
    PieceLaw r file text (Defined r file text) (Piece.Traced r file text) where
  code := by
    intro depth f t offset line ms hr hc hms p hp
    obtain ⟨before, g, after, hsplit, rfl⟩ := exists_fragment_of_mem_piecesOf hp
    have hvalid := valid_of_mem_fragments ms line g (by simp [hsplit])
    have hline : StandsAt line (width (before.flatMap Fragment.written)) g.written := by
      refine ⟨before.flatMap Fragment.written, after.flatMap Fragment.written, ?_, rfl⟩
      rw [← flatMap_written_fragments ms line, hsplit]
      simp
    have hin : InCode t (offset + width (before.flatMap Fragment.written)) g.written :=
      ⟨offset, _, line, hc, hline, rfl⟩
    cases g with
    | plain part => exact ⟨depth, t, hr, hin⟩
    | invocation m written expansion =>
        obtain ⟨hm, _, after', i, hi, _, he⟩ := hvalid
        exact ⟨⟨depth, t, hr, hin⟩, hms m hm, after', i, hi, he⟩
  directive := by
    intro depth f t offset d hr hc
    exact ⟨depth, t, hr, hc⟩
  define := by
    intro depth f t offset d m record hr hc h
    have hf := file_of_readCommand h
    subst hf
    exact ⟨depth, t, offset, d, record, hr, hc, h⟩
  leadIn := by
    intro depth f t offset d requested hr hc h
    exact Or.inl ⟨depth, t, offset, d, requested, hr, hc, h, rfl⟩
  leadOut := by
    intro depth path t hr
    exact Or.inr ⟨depth, t, hr, rfl⟩

/-! ## A sample -/

/-- A document with a macro and an include. -/
def sampleText : List Char := "#define Q q\n#include \"lib\"\nQ;".toList

/-- Includes are found under the names they are written with; there is one file to include. -/
def sampleResolver : Resolver where
  resolve written _ := .ok (.ofText written)
  load path := if path.same (.ofText "lib") then .ok "v".toList else .error (.unreadable path .notFound)

theorem sample_consistent : Consistent sampleResolver (.ofText "main") sampleText := by
  intro f t hsame hload
  have hlib : f.same (.ofText "lib") = false := by
    unfold Path.same at hsame ⊢
    rw [beq_iff_eq] at hsame
    rw [hsame]
    decide
  simp [sampleResolver, hlib] at hload

end SqfIndex.Preprocess
