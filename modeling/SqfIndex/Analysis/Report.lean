import SqfIndex.Analysis.Frontend
import SqfIndex.Position.Mapper
import SqfIndex.Settings
import SqfIndex.Uri

/-!
The analysis of one document. Every step's result is placed in the file it belongs to; a step that
fails leaves one error.
-/

namespace SqfIndex

open Preprocess (Preprocessed MacroRecord)

/-- A diagnostic and the file it belongs to. -/
structure Placed where
  uri : Uri
  diagnostic : Diagnostic
deriving DecidableEq, Repr

/-- One definition of a macro. -/
structure MacroDefinition where
  /-- The range of the name. -/
  position : Range
  value : String
  file : Path
deriving DecidableEq, Repr

/-- The definitions of a macro in one document. -/
structure MacroOccurrence where
  name : String
  arguments : Option String
  definitions : List MacroDefinition
deriving DecidableEq, Repr

/-- An include that a document followed. -/
structure IncludeInfo where
  document : Uri
  /-- The path as written. -/
  requested : String
  path : Path
deriving DecidableEq, Repr

/-- What an analysis finds. -/
structure Report where
  errors : List Placed := []
  warnings : List Placed := []
  vars : List (Variable Range) := []
  macros : List MacroOccurrence := []
  includes : List IncludeInfo := []
  /-- How many files were to be read. -/
  reads : Nat := 0

namespace Analysis

/-- The document whose results are placed. -/
structure Subject where
  document : Uri
  base : Path

/-- The address that notes about a file go to: files without an address go to the document. -/
def Subject.uriOf (s : Subject) (file : Path) : Uri :=
  if file.same s.base then s.document else (Uri.ofPath? file).getD s.document

/-- Places a failure as an error without extent; one without an offset stands at the document's
start. -/
def Subject.placeFailure (s : Subject) (frame : Frame) (read : Reader) (m : Mapper) (e : Failure) : Placed × Mapper :=
  match e.offset with
  | none => (⟨s.document, ⟨.error, e.message, ⟨⟨0, 0⟩, ⟨0, 0⟩⟩⟩⟩, m)
  | some offset =>
    let m := m.load read (frame.target offset).1
    let (file, p) := frame.place m offset
    (⟨s.uriOf file, ⟨.error, e.message, ⟨p, p⟩⟩⟩, m)

/-- Places a finding. -/
def Subject.placeFinding (s : Subject) (frame : Frame) (m : Mapper) (f : Finding) : Placed :=
  let (file, range) := frame.placeSpan m f.place
  ⟨s.uriOf file, { severity := f.severity, message := f.message, place := range }⟩

/-- Places a variable. All definitions are kept, but of the usages only those in the document itself. -/
def Subject.placeVariable (s : Subject) (frame : Frame) (m : Mapper) (v : Variable Span) : Variable Range where
  name := v.name
  comment := v.comment
  definitions := v.definitions.map fun span => (frame.placeSpan m span).2
  usages := v.usages.filterMap fun span =>
    let (file, range) := frame.placeSpan m span
    if file.same s.base then some range else none

/-- The name of a macro in its file. -/
def nameSpan (r : MacroRecord) : Span := ⟨r.offset, r.offset + Text.width r.name.toList⟩

/-- Places a macro definition. Its offset is one of its file, whatever the source map says. -/
def placeMacro (frame : Frame) (m : Mapper) (r : MacroRecord) : MacroDefinition where
  position := ({ frame with direct := some r.file }.placeSpan m (nameSpan r)).2
  value := r.value
  file := r.file

/-- Adds a definition to the occurrence with the same lower-cased name; a new occurrence takes name
and arguments from its first definition. -/
def addMacro (key : String) (r : MacroRecord) (d : MacroDefinition) :
    List (String × MacroOccurrence) → List (String × MacroOccurrence)
  | [] => [(key, ⟨r.name, r.arguments, [d]⟩)]
  | (k, o) :: rest =>
    if k = key then (k, { o with definitions := o.definitions ++ [d] }) :: rest
    else (k, o) :: addMacro key r d rest

/-- Groups macro definitions by lower-cased name, in the order of their first appearance. -/
def groupMacros (frame : Frame) (m : Mapper) (records : List MacroRecord) : List MacroOccurrence :=
  (records.foldl (fun found r => addMacro (Text.lowered r.name) r (placeMacro frame m r) found) []).map (·.2)

/-- The files that the places of findings and variables fall in. -/
def filesOf (frame : Frame) (findings : List Finding) (vars : List (Variable Span)) : List Path :=
  findings.flatMap (fun f => frame.filesOf f.place) ++
    vars.flatMap fun v => (v.definitions ++ v.usages).flatMap frame.filesOf

/-- Places the results of the steps after preprocessing. -/
def report (s : Subject) (read : Reader) (m : Mapper) (pre : Preprocessed)
    (outcome : Except Failure (List Finding × List (Variable Span))) : Report :=
  let frame : Frame := { map := pre.map, base := s.base }
  let includes := pre.includes.map fun i => { document := s.document, requested := i.requested, path := i.path }
  let m := m.loadAll read (pre.macros.map (·.file))
  let macros := groupMacros frame m pre.macros
  match outcome with
  | .error e =>
    let (error, m) := s.placeFailure frame read m e
    { errors := [error], macros, includes, reads := pre.loads + m.reads }
  | .ok (found, vars) =>
    let findings := pre.errors ++ found
    let m := m.loadAll read (filesOf frame findings vars)
    let notes := findings.map (s.placeFinding frame m)
    { errors := notes.filter (·.diagnostic.severity = .error)
      warnings := notes.filter (·.diagnostic.severity ≠ .error)
      vars := vars.map (s.placeVariable frame m)
      macros, includes, reads := pre.loads + m.reads }

/-- Analyzes `text` as the content of a document. -/
def analyze {Token Tree : Type} (f : Frontend Token Tree) (settings : Settings) (read : Reader) (uri : Uri)
    (text : List Char) : Report :=
  let s : Subject := { document := uri, base := uri.toPath }
  let m : Mapper := Mapper.preload {} s.base text
  match f.preprocess (Include.resolver settings.includePrefixes read) s.base text with
  | .error e =>
    let (error, m) := s.placeFailure { map := {}, base := s.base, direct := some s.base } read m e
    { errors := [error], reads := m.reads }
  | .ok pre => report s read m pre (f.examine pre.code)

end Analysis

end SqfIndex
