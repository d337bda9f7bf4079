import SqfIndex.Debounce.Agenda
import SqfIndex.Symbol.Store
import SqfIndex.Workspace.Publish

/-!
A workspace: documents are analyzed, their reports taken into the store, and diagnostics published.
Every operation gives the new state and what could be seen of it.
-/

namespace SqfIndex

open Std (ExtTreeMap)
open Workspace (Publication)

/-- A document and the text it is to be analyzed with. -/
structure Edit where
  uri : Uri
  text : List Char
deriving DecidableEq, Repr

structure Workspace where
  settings : Settings
  store : Store := {}
  /-- The includes that the last analysis of each document followed. -/
  includes : ExtTreeMap Uri (List IncludeInfo) := ∅
  agenda : Debounce.Agenda Edit

/-- What a workspace is placed in. -/
structure Surroundings where
  read : Reader
  /-- The script files under a directory, less those that a pattern describes. -/
  scripts : Path → List String → List Path := fun _ _ => []
  /-- The names of globals that others look after. -/
  owns : String → Bool := fun _ => false

/-- Work whose time is taken. -/
inductive Activity
  | document (uri : Uri)
  | pass (second : Bool)
deriving DecidableEq, Repr

/-- What can be seen of a workspace at work. -/
inductive Notice
  | published (p : Publication)
  | progress (percent : Nat)
  | cleared
  /-- So many files were to be read. -/
  | reads (count : Nat)
  | completed (activity : Activity)
deriving DecidableEq, Repr

/-- Why a file is not analyzed. -/
inductive FileError
  | notAbsolute (path : Path)
  | unreadable (path : Path) (cause : ReadError)
deriving DecidableEq, Repr

def FileError.message : FileError → String
  | notAbsolute path => "not an absolute path: " ++ path.text
  | unreadable path cause => "Failed to read " ++ path.text ++ ": " ++ cause.message

namespace Workspace

/-- A workspace without documents. -/
def ofSettings (settings : Settings) : Workspace := { settings, agenda := .ofDelay settings.debounceMs }

/-- Changes the settings for the analyses to come. -/
def configure (settings : Settings) (w : Workspace) : Workspace :=
  { w with settings, agenda := w.agenda.setDelay settings.debounceMs }

/-- Analyzes a text as the content of a document. -/
def analyze (s : Surroundings) (uri : Uri) (text : List Char) (w : Workspace) : Workspace × List Notice :=
  let report := Analysis.analyze Frontend.script w.settings s.read uri text
  let (store, undefined) := w.store.reconcile w.settings s.owns uri report
  ({ w with store, includes := w.includes.insert uri report.includes },
    .reads report.reads :: .completed (.document uri) ::
      (publications w.settings uri report undefined).map .published)

/-- Reads a file and analyzes it. -/
def analyzeFile (s : Surroundings) (path : Path) (w : Workspace) :
    (Workspace × List Notice) × Except FileError Unit :=
  match Uri.ofPath? path with
  | none => ((w, []), .error (.notAbsolute path))
  | some uri =>
    match s.read path with
    | .error cause => ((w, [.reads 1]), .error (.unreadable path cause))
    | .ok text =>
      let (w, notices) := w.analyze s uri text
      ((w, .reads 1 :: notices), .ok ())

/-- Forgets a document and takes back its diagnostics. -/
def remove (uri : Uri) (w : Workspace) : Workspace × List Notice :=
  ({ w with store := w.store.remove w.settings uri, includes := w.includes.erase uri },
    [.published ⟨uri, []⟩])

/-- Includes as they are compared: trimmed, with slashes for backslashes. -/
def comparable (written : String) : String :=
  String.ofList (Text.replaceChar '\\' '/' (Text.trim written.toList))

/-- The includes that the last analysis of a document followed. -/
def includesOf (w : Workspace) (uri : Uri) : List IncludeInfo := (w.includes[uri]?).getD []

/-- The file of an include as written in a document, up to ASCII case and the kind of slashes. -/
def includeTarget? (w : Workspace) (uri : Uri) (written : String) : Option Path :=
  ((w.includesOf uri).find? fun i =>
    Text.sameIgnoringAsciiCase (comparable i.requested) (comparable written)).map (·.path)

/-- Asks for an analysis after the quiet time; nothing if the request is dropped. -/
def schedule? (uri : Uri) (text : List Char) (w : Workspace) : Option Workspace :=
  (w.agenda.request? uri ⟨uri, text⟩).map fun agenda => { w with agenda }

/-- Lets time pass. Analyses that are due take no time and run one after the other. -/
def sleep (s : Surroundings) (ms : Nat) (w : Workspace) : Workspace × List Notice :=
  let (agenda, events) := w.agenda.sleep (fun _ => 0) ms
  events.foldl
    (fun (w, notices) event =>
      match event with
      | .started _ edit =>
        let (w, more) := w.analyze s edit.uri edit.text
        (w, notices ++ more)
      | .stopped _ _ => (w, notices))
    ({ w with agenda }, [])

/-- Searches globals and macros by the start of their names. -/
def search (query : String) (w : Workspace) : List Symbol × Workspace :=
  let (found, store) := w.store.search query
  (found, { w with store })

end Workspace

end SqfIndex
