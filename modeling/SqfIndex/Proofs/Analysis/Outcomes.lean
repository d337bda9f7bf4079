import Mathlib.Data.List.Forall2
import SqfIndex.Analysis.Report
import SqfIndex.Proofs.Position.LineIndex
import SqfIndex.Proofs.Position.Mapper

/-!
# What an analysis makes of the steps of its frontend

Whatever the steps give, `analyze_outcomes` tells the report. Places of the code are seen through a `View`, which
knows the text of each file and where an offset leads: positions are found by counting in these texts, since a
mapper keeps for each file the text it was first read with (`lines?_loadAll`).
-/

namespace SqfIndex

open Preprocess (Preprocessed)
open Text (upTo)

/-! ## Texts that are seen -/

/-- The text that is seen for a file. The document has the text at hand; any other file is read, under the first
of the `asked` paths that is the same, and one that cannot be read counts as empty. -/
def seenText (read : Reader) (base : Path) (text : List Char) (asked : List Path) (p : Path) : List Char :=
  if p.same base then text else (read ((asked.find? (·.same p)).getD p)).toOption.getD []

namespace Mapper

theorem lines?_loadAll (read : Reader) (m : Mapper) (paths : List Path) (p : Path) :
    (m.loadAll read paths).lines? p =
      (m.lines? p).or ((paths.find? (·.same p)).map fun q => .ofText ((read q).toOption.getD [])) := by
  induction paths generalizing m with
  | nil => simp [loadAll]
  | cons path paths ih =>
      have hstep : m.loadAll read (path :: paths) = (m.load read path).loadAll read paths := rfl
      rw [hstep, ih, lines?_load, List.find?_cons]
      cases hsame : path.same p with
      | false => simp
      | true =>
          rw [lines?_congr m hsame]
          cases m.lines? p <;> simp

/-- Positions in files that were asked for are found by counting in the texts that are seen. -/
theorem position_seen (read : Reader) (base : Path) (text : List Char) {asked : List Path} {p : Path}
    (h : p ∈ asked ∨ p.same base = true) (offset : Nat) :
    ((Mapper.preload {} base text).loadAll read asked).position p offset =
      Position.after (upTo offset (seenText read base text asked p)) := by
  by_cases hbase : p.same base = true
  · rw [position_document hbase, LineIndex.position_ofText, seenText, if_pos hbase]
  · have hnone : (Mapper.preload {} base text).lines? p = none := by
      have hother : ¬base.same p = true := fun hsame => hbase (Path.same_symm hsame)
      simp [Mapper.preload, hother, lines?]
    obtain ⟨q, hq⟩ : ∃ q, asked.find? (·.same p) = some q := by
      rw [← Option.isSome_iff_exists, List.find?_isSome]
      exact ⟨p, h.resolve_right hbase, Path.same_refl p⟩
    rw [position, lines?_loadAll, hnone, hq, seenText, if_neg hbase, hq, ← LineIndex.position_ofText]
    rfl

theorem loadAll_loadAll (read : Reader) (m : Mapper) (paths paths' : List Path) :
    (m.loadAll read paths).loadAll read paths' = m.loadAll read (paths ++ paths') :=
  List.foldl_append.symm

end Mapper

/-! ## Views -/

/-- How places of the code are seen: with which text each file, and in which file and where an offset. -/
structure View where
  document : Uri
  base : Path
  texts : Path → List Char
  leads : Nat → Path × Nat

namespace View

/-- Offsets of the document itself. -/
def plain (uri : Uri) (text : List Char) : View := ⟨uri, uri.toPath, fun _ => text, fun offset => (uri.toPath, offset)⟩

/-- Offsets of code with a source map; what the map does not know belongs to the document. -/
def through (map : SourceMap) (uri : Uri) (texts : Path → List Char) : View :=
  ⟨uri, uri.toPath, texts, fun offset => (map.resolve? offset).getD (uri.toPath, offset)⟩

def spot (v : View) (offset : Nat) : Position := .after (upTo (v.leads offset).2 (v.texts (v.leads offset).1))

def range (v : View) (span : Span) : Range := ⟨v.spot span.start, v.spot span.stop⟩

/-- `u` is the address for notes about an offset. -/
structure Addressed (v : View) (offset : Nat) (u : Uri) : Prop where
  document : (v.leads offset).1.same v.base = true ∨ (v.leads offset).1.isAbsolute = false → u = v.document
  other : (v.leads offset).1.same v.base = false → (v.leads offset).1.isAbsolute = true →
    Uri.ofPath? (v.leads offset).1 = some u

/-- A finding is shown by a diagnostic. -/
structure Shows (v : View) (f : Finding) (p : Placed) : Prop where
  severity : p.diagnostic.severity = f.severity
  message : p.diagnostic.message = f.message
  place : p.diagnostic.place = v.range f.place
  uri : v.Addressed f.place.start p.uri

/-- A variable is shown with all of its definitions, and with the usages that begin in the document. -/
structure ShowsVariable (v : View) (x : Variable Span) (y : Variable Range) : Prop where
  name : y.name = x.name
  comment : y.comment = x.comment
  definitions : y.definitions = x.definitions.map v.range
  usages : y.usages = (x.usages.filter fun span => (v.leads span.start).1.same v.base).map v.range

/-- A failure is shown by an error without extent. -/
structure ShowsFailure (v : View) (e : Failure) (p : Placed) : Prop where
  severity : p.diagnostic.severity = .error
  message : p.diagnostic.message = e.message
  placed : ∀ offset, e.offset = some offset →
    p.diagnostic.place = ⟨v.spot offset, v.spot offset⟩ ∧ v.Addressed offset p.uri
  unplaced : e.offset = none → p.diagnostic.place = ⟨⟨0, 0⟩, ⟨0, 0⟩⟩ ∧ p.uri = v.document

end View

namespace Analysis

/-! ## Placing is showing -/

section

variable {s : Subject} {frame : Frame} {read : Reader} {text : List Char} {asked : List Path}

/-- The view that a frame gives once the files `asked` for are loaded. -/
def Subject.view (s : Subject) (frame : Frame) (read : Reader) (text : List Char) (asked : List Path) : View where
  document := s.document
  base := s.base
  texts := seenText read s.base text asked
  leads := frame.target

theorem addressed_uriOf (offset : Nat) :
    (s.view frame read text asked).Addressed offset (s.uriOf (frame.target offset).1) where
  document := by
    intro h
    show s.uriOf (frame.target offset).1 = s.document
    unfold Subject.uriOf
    split
    · rfl
    · next hother =>
      have hrelative : (frame.target offset).1.isAbsolute = false := h.resolve_left hother
      rw [Uri.ofPath?, hrelative]
      rfl
  other := by
    intro (hother : (frame.target offset).1.same s.base = false) (habsolute : (frame.target offset).1.isAbsolute = true)
    show Uri.ofPath? (frame.target offset).1 = some (s.uriOf (frame.target offset).1)
    have hsome : (Uri.ofPath? (frame.target offset).1).isSome = true := by
      rw [Uri.ofPath?, if_pos habsolute]
      split <;> rfl
    obtain ⟨u, hu⟩ := Option.isSome_iff_exists.mp hsome
    rw [Subject.uriOf, hother, hu]
    rfl

theorem place_eq_spot {offset : Nat} (h : (frame.target offset).1 ∈ asked ∨ (frame.target offset).1.same s.base = true) :
    (frame.place ((Mapper.preload {} s.base text).loadAll read asked) offset).2 =
      (s.view frame read text asked).spot offset :=
  Mapper.position_seen read s.base text h _

theorem placeSpan_eq_range {span : Span} (h : ∀ p ∈ frame.filesOf span, p ∈ asked) :
    (frame.placeSpan ((Mapper.preload {} s.base text).loadAll read asked) span).2 =
      (s.view frame read text asked).range span := by
  have hstart := @place_eq_spot s frame read text asked span.start (Or.inl (h _ (by simp [Frame.filesOf])))
  have hstop := @place_eq_spot s frame read text asked span.stop (Or.inl (h _ (by simp [Frame.filesOf])))
  rw [View.range, ← hstart, ← hstop]
  rfl

theorem shows_placeFinding {f : Finding} (h : ∀ p ∈ frame.filesOf f.place, p ∈ asked) :
    (s.view frame read text asked).Shows f
      (s.placeFinding frame ((Mapper.preload {} s.base text).loadAll read asked) f) where
  severity := rfl
  message := rfl
  place := placeSpan_eq_range h
  uri := addressed_uriOf f.place.start

theorem shows_placeVariable {x : Variable Span}
    (h : ∀ span ∈ x.definitions ++ x.usages, ∀ p ∈ frame.filesOf span, p ∈ asked) :
    (s.view frame read text asked).ShowsVariable x
      (s.placeVariable frame ((Mapper.preload {} s.base text).loadAll read asked) x) where
  name := rfl
  comment := rfl
  definitions := by
    refine List.map_congr_left ?_
    intro span hspan
    exact placeSpan_eq_range (h span (List.mem_append_left _ hspan))
  usages := by
    rw [← List.filterMap_eq_map', List.filterMap_filter]
    refine List.filterMap_congr ?_
    intro span hspan
    have hrange := @placeSpan_eq_range s frame read text asked span (h span (List.mem_append_right _ hspan))
    simp only [← hrange]
    rfl

theorem showsFailure_placeFailure (e : Failure) :
    ∃ asked', (s.view frame read text asked').ShowsFailure e
      (s.placeFailure frame read ((Mapper.preload {} s.base text).loadAll read asked) e).1 := by
  obtain ⟨message, offset⟩ := e
  cases offset with
  | none => exact ⟨asked, rfl, rfl, by simp, fun _ => ⟨rfl, rfl⟩⟩
  | some offset =>
      -- the file of the offset is loaded on top of what is loaded already
      refine ⟨asked ++ [(frame.target offset).1], rfl, rfl, ?_, by simp⟩
      rintro _ ⟨⟩
      have hspot := @place_eq_spot s frame read text (asked ++ [(frame.target offset).1]) offset (Or.inl (by simp))
      rw [← Mapper.loadAll_loadAll] at hspot
      exact ⟨by rw [← hspot]; rfl, addressed_uriOf offset⟩

end

/-! ## Outcomes -/

/-- A step after preprocessing fails, and those before it do not. -/
inductive Stops {Token Tree : Type} (f : Frontend Token Tree) (code : List Char) (e : Failure) : Prop
  | tokenize : f.tokenize code = .error e → Stops f code e
  | parse {tokens : List Token} : f.tokenize code = .ok tokens → f.parse tokens = .error e → Stops f code e
  | analyze {tokens : List Token} {found : List Finding} {tree : Tree} : f.tokenize code = .ok tokens →
      f.parse tokens = .ok (found, tree) → f.analyze tree tokens code = .error e → Stops f code e

section

variable {Token Tree : Type} {f : Frontend Token Tree} {code : List Char}

theorem Stops.examine {e : Failure} (h : Stops f code e) : f.examine code = .error e := by
  cases h with
  | tokenize htokens => simp only [Frontend.examine, htokens, bind, Except.bind]
  | parse htokens hparse => simp only [Frontend.examine, htokens, hparse, bind, Except.bind]
  | analyze htokens hparse hvars => simp only [Frontend.examine, htokens, hparse, hvars, bind, Except.bind]

theorem examine_of_steps {tokens : List Token} {found : List Finding} {tree : Tree} {vars : List (Variable Span)}
    (htokens : f.tokenize code = .ok tokens) (hparse : f.parse tokens = .ok (found, tree))
    (hvars : f.analyze tree tokens code = .ok vars) : f.examine code = .ok (found ++ f.lint tree code, vars) := by
  simp only [Frontend.examine, htokens, hparse, hvars, bind, Except.bind]
  rfl

end

section

variable {read : Reader} {uri : Uri} {text : List Char}

theorem showsFailure_plain (e : Failure) :
    (View.plain uri text).ShowsFailure e
      (Subject.placeFailure ⟨uri, uri.toPath⟩ { map := {}, base := uri.toPath, direct := some uri.toPath } read
        (Mapper.preload {} uri.toPath text) e).1 := by
  obtain ⟨asked, h⟩ := @showsFailure_placeFailure ⟨uri, uri.toPath⟩
    { map := {}, base := uri.toPath, direct := some uri.toPath } read text [] e
  refine ⟨h.severity, h.message, ?_, h.unplaced⟩
  intro offset hoffset
  obtain ⟨hplace, huri⟩ := h.placed offset hoffset
  have hown : seenText read uri.toPath text asked uri.toPath = text := if_pos (Path.same_refl _)
  refine ⟨hplace.trans ?_, huri.document, huri.other⟩
  simp only [View.spot, View.plain, Subject.view, Frame.target, hown]

variable {pre : Preprocessed}

theorem report_stopped (e : Failure) :
    let out := report ⟨uri, uri.toPath⟩ read (Mapper.preload {} uri.toPath text) pre (.error e)
    ∃ asked p, out.errors = [p] ∧
      (View.through pre.map uri (seenText read uri.toPath text asked)).ShowsFailure e p ∧ out.warnings = [] ∧ out.vars = [] := by
  obtain ⟨asked, h⟩ := @showsFailure_placeFailure ⟨uri, uri.toPath⟩ { map := pre.map, base := uri.toPath } read text
    (pre.macros.map (·.file)) e
  exact ⟨asked, _, rfl, h, rfl, rfl⟩

/-- Placed one by one, findings of one severity become the diagnostics of this severity, in order. -/
theorem forall₂_of_shows {v : View} {place : Finding → Placed} {fs : List Finding} (h : ∀ f ∈ fs, v.Shows f (place f))
    (keep : Severity → Bool) :
    List.Forall₂ v.Shows (fs.filter fun f => keep f.severity)
      ((fs.map place).filter fun p => keep p.diagnostic.severity) := by
  induction fs with
  | nil => exact .nil
  | cons f fs ih =>
      obtain ⟨hf, hfs⟩ := List.forall_mem_cons.mp h
      rw [List.map_cons, List.filter_cons, List.filter_cons, hf.severity]
      split
      · exact .cons hf (ih hfs)
      · exact ih hfs

/-- The files that are asked for when all steps have succeeded. -/
def askedFor (uri : Uri) (pre : Preprocessed) (found : List Finding) (vars : List (Variable Span)) : List Path :=
  pre.macros.map (·.file) ++ filesOf { map := pre.map, base := uri.toPath } (pre.errors ++ found) vars

theorem report_completed (found : List Finding) (vars : List (Variable Span)) :
    let out := report ⟨uri, uri.toPath⟩ read (Mapper.preload {} uri.toPath text) pre (.ok (found, vars))
    let v := View.through pre.map uri (seenText read uri.toPath text (askedFor uri pre found vars))
    List.Forall₂ v.Shows ((pre.errors ++ found).filter (·.severity = .error)) out.errors ∧
      List.Forall₂ v.Shows ((pre.errors ++ found).filter (·.severity ≠ .error)) out.warnings ∧
      List.Forall₂ v.ShowsVariable vars out.vars := by
  intro out v
  let frame : Frame := { map := pre.map, base := uri.toPath }
  let raw := pre.errors ++ found
  let asked := askedFor uri pre found vars
  let m := (Mapper.preload {} uri.toPath text).loadAll read asked
  have hshows : ∀ f ∈ raw, v.Shows f (Subject.placeFinding ⟨uri, uri.toPath⟩ frame m f) := by
    intro f hf
    refine @shows_placeFinding ⟨uri, uri.toPath⟩ frame read text asked f ?_
    intro p hp
    exact List.mem_append_right _ (List.mem_append_left _ (List.mem_flatMap.mpr ⟨f, hf, hp⟩))
  have hvars : ∀ x ∈ vars, v.ShowsVariable x (Subject.placeVariable ⟨uri, uri.toPath⟩ frame m x) := by
    intro x hx
    refine @shows_placeVariable ⟨uri, uri.toPath⟩ frame read text asked x ?_
    intro span hspan p hp
    refine List.mem_append_right _ (List.mem_append_right _ (List.mem_flatMap.mpr ⟨x, hx, ?_⟩))
    exact List.mem_flatMap.mpr ⟨span, hspan, hp⟩
  have hm : ((Mapper.preload {} uri.toPath text).loadAll read (pre.macros.map (·.file))).loadAll read
      (filesOf frame raw vars) = m := Mapper.loadAll_loadAll read _ _ _
  have herrors : out.errors = (raw.map (Subject.placeFinding ⟨uri, uri.toPath⟩ frame m)).filter
      (·.diagnostic.severity = .error) := by
    rw [← hm]
    rfl
  have hwarnings : out.warnings = (raw.map (Subject.placeFinding ⟨uri, uri.toPath⟩ frame m)).filter
      (·.diagnostic.severity ≠ .error) := by
    rw [← hm]
    rfl
  have hplaced : out.vars = vars.map (Subject.placeVariable ⟨uri, uri.toPath⟩ frame m) := by
    rw [← hm]
    rfl
  rw [herrors, hwarnings, hplaced]
  refine ⟨forall₂_of_shows hshows (fun x => x = .error), forall₂_of_shows hshows (fun x => x ≠ .error), ?_⟩
  rw [List.forall₂_map_right_iff, List.forall₂_same]
  exact hvars

end

/-- Whatever the steps of a frontend give, this is what an analysis reports. If preprocessing fails, there is one
error, at the offset of the text, and nothing else. If a later step fails, there is one error, and includes and
macros are those of any analysis with the same preprocessed code. Otherwise each finding of the preprocessor, of the
parser and of the linter is shown by one diagnostic, those that are errors by the errors and the others by the
warnings, in order; and each variable is shown by one variable, in order. -/
theorem analyze_outcomes {Token Tree : Type} (f : Frontend Token Tree) (settings : Settings) (read : Reader) (uri : Uri)
    (text : List Char) :
    let out := analyze f settings read uri text
    let preprocessed := f.preprocess (Include.resolver settings.includePrefixes read) uri.toPath text
    (∀ e, preprocessed = .error e →
      ∃ p, out.errors = [p] ∧ (View.plain uri text).ShowsFailure e p ∧
        out.warnings = [] ∧ out.vars = [] ∧ out.macros = [] ∧ out.includes = []) ∧
    ∀ pre, preprocessed = .ok pre →
      out.includes = pre.includes.map (fun i => ⟨uri, i.requested, i.path⟩) ∧
      (∀ (Token' Tree' : Type) (f' : Frontend Token' Tree'),
        f'.preprocess (Include.resolver settings.includePrefixes read) uri.toPath text = .ok pre →
          let out' := analyze f' settings read uri text
          out.includes = out'.includes ∧ out.macros = out'.macros) ∧
      (∀ e, Stops f pre.code e → ∃ asked p, out.errors = [p] ∧
        (View.through pre.map uri (seenText read uri.toPath text asked)).ShowsFailure e p ∧
        out.warnings = [] ∧ out.vars = []) ∧
      ∀ tokens found tree vars, f.tokenize pre.code = .ok tokens → f.parse tokens = .ok (found, tree) →
        f.analyze tree tokens pre.code = .ok vars →
          let raw := pre.errors ++ (found ++ f.lint tree pre.code)
          ∃ asked, let v := View.through pre.map uri (seenText read uri.toPath text asked)
            List.Forall₂ v.Shows (raw.filter (·.severity = .error)) out.errors ∧
            List.Forall₂ v.Shows (raw.filter (·.severity ≠ .error)) out.warnings ∧
            List.Forall₂ v.ShowsVariable vars out.vars := by
  intro out preprocessed
  constructor
  · intro e (he : f.preprocess _ _ _ = _)
    refine ⟨_, ?_, @showsFailure_plain read uri text e, ?_⟩
    · simp only [out, analyze, he]
    · simp only [out, analyze, he, and_self]
  · intro pre hpre
    have hreport {Token' Tree' : Type} {f' : Frontend Token' Tree'}
        (hf' : f'.preprocess (Include.resolver settings.includePrefixes read) uri.toPath text = .ok pre) :
        analyze f' settings read uri text =
          report ⟨uri, uri.toPath⟩ read (Mapper.preload {} uri.toPath text) pre (f'.examine pre.code) := by
      simp only [analyze, hf']
    have hout : out = _ := hreport hpre
    refine ⟨?_, ?_, ?_, ?_⟩
    · rw [hout]
      cases f.examine pre.code <;> rfl
    · intro Token' Tree' f' hf'
      rw [hout, hreport hf']
      cases f.examine pre.code <;> cases f'.examine pre.code <;> exact ⟨rfl, rfl⟩
    · intro e hstops
      rw [hout, hstops.examine]
      exact report_stopped e
    · intro tokens found tree vars htokens hparse hvars
      rw [hout, examine_of_steps htokens hparse hvars]
      exact ⟨_, report_completed _ vars⟩

end Analysis

end SqfIndex
