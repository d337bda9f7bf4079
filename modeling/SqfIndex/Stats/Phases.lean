import SqfIndex.FileTree
import SqfIndex.Json.Reader
import SqfIndex.Stats.Arguments
import SqfIndex.Workspace.Indexing

/-!
The phases of the command that takes statistics: finding the scripts, indexing them, sizing the
tables, and looking every global up.
-/

namespace SqfIndex.Stats

open Std (ExtTreeMap)

/-- Why no statistics can be taken, with the text of the cause. -/
inductive StatsError
  | configUnreadable (path : Path) (cause : String)
  | configInvalid (path : Path) (cause : String)
  | unresolved (path : Path) (cause : String)
deriving DecidableEq, Repr

namespace StatsError

def message : StatsError → String
  | configUnreadable path _ => "Failed to read config " ++ path.text
  | configInvalid path _ => "Invalid JSON in " ++ path.text
  | unresolved path _ => "Failed to resolve " ++ path.text

def cause : StatsError → String
  | configUnreadable _ cause => cause
  | configInvalid _ cause => cause
  | unresolved _ cause => cause

end StatsError

/-- A phase and what there is to say about it. -/
structure Phase where
  name : String
  detail : String
deriving DecidableEq, Repr

/-- Reads settings from a file. -/
def loadSettings (t : FileTree) (current : Place) (path : Path) : Except StatsError Settings :=
  match t.readBytes current path with
  | .error e => .error (.configUnreadable path e.message)
  | .ok bytes =>
    match Text.decode? bytes with
    | none => .error (.configUnreadable path "stream did not contain valid UTF-8")
    | some text =>
      match Json.parse text with
      | .error cause => .error (.configInvalid path cause)
      | .ok v => .ok (.ofFile v)

/-- The settings that arguments ask for. -/
def settingsFor (t : FileTree) (current : Place) (args : Arguments) : Except StatsError Settings := do
  let settings ←
    match args.config with
    | some path => loadSettings t current path
    | none => .ok {}
  return { settings with indexWorkspaceTwice := settings.indexWorkspaceTwice || args.twice }

/-- What is shown for each file at the end of some notices. -/
def shown (notices : List Notice) : ExtTreeMap Uri (List Diagnostic) :=
  notices.foldl
    (fun sheets n =>
      match n with
      | .published p => sheets.insert p.uri p.diagnostics
      | _ => sheets) ∅

/-- How many of the diagnostics shown at the end have the given severity. -/
def countShown (severity : Severity) (notices : List Notice) : Nat :=
  ((shown notices).values.flatten.filter (·.severity = severity)).length

def scanPhase (files : Nat) : Phase := ⟨"scan", toString files ++ " files"⟩

def indexPhase (summary : Workspace.Summary) (notices : List Notice) : Phase :=
  ⟨"index",
    toString summary.files ++ " files, " ++ toString summary.passes ++ " pass(es), " ++ toString summary.failed ++
      " unreadable, " ++ toString (countShown .error notices) ++ " errors, " ++
      toString (countShown .warning notices) ++ " warnings"⟩

def symbolsPhase (c : Census) : Phase :=
  ⟨"symbols",
    toString c.documents ++ " documents, " ++ toString c.locals ++ " locals, " ++ toString c.globals ++
      " globals, " ++ toString c.macros ++ " macros"⟩

/-- How many symbols the names of all globals find. -/
def hits (store : Store) : Nat :=
  ((store.tables.globals.values.map (·.name)).foldl
    (fun (count, store) name =>
      let (found, store) := Store.search name store
      (count + found.length, store)) (0, store)).1

def lookupPhase (store : Store) : Phase :=
  ⟨"lookup", toString store.tables.globals.size ++ " queries, " ++ toString (hits store) ++ " hits"⟩

/-- Name of an activity whose time is taken. -/
def activityLabel : Activity → String
  | .document uri => "analyze:document (" ++ uri ++ ")"
  | .pass second => if second then "index:pass2" else "index:pass1"

/-- Names of the activities outside indexing. -/
def scanLabel : String := "analysis-stats:scan"

@[inherit_doc scanLabel]
def symbolsLabel : String := "analysis-stats:symbols"

@[inherit_doc scanLabel]
def lookupLabel : String := "analysis-stats:lookup"

/-- The activities that some notices tell of, by name. -/
def labels (notices : List Notice) : List String :=
  notices.filterMap fun n =>
    match n with
    | .completed a => some (activityLabel a)
    | _ => none

/-- The phases, and the names of all activities in the order in which they ended. -/
structure Outcome where
  phases : List Phase
  labels : List String
deriving DecidableEq, Repr

/-- A workspace on a tree of files. -/
def surroundings (t : FileTree) (current : Place) : Surroundings where
  read := t.read current
  scripts := t.scripts current

/-- The settings of a run and the resolved path of the directory. -/
def prepare (t : FileTree) (current : Place) (args : Arguments) : Except StatsError (Settings × Path) := do
  let settings ← settingsFor t current args
  match t.resolve current args.path with
  | .error e => throw (.unresolved args.path e.message)
  | .ok (place, _) => return (settings, FileTree.pathOf place)

/-- Takes the statistics of a directory. -/
def run (t : FileTree) (current : Place) (args : Arguments) : Except StatsError Outcome := do
  let (settings, root) ← prepare t current args
  let s := surroundings t current
  let files := s.scripts root settings.exclude
  let (w, notices, summary) := (Workspace.ofSettings settings).indexFiles s files false
  return {
    phases := [scanPhase files.length, indexPhase summary notices, symbolsPhase w.store.tables.census,
      lookupPhase w.store]
    labels := scanLabel :: labels notices ++ [symbolsLabel, lookupLabel] }

end SqfIndex.Stats
