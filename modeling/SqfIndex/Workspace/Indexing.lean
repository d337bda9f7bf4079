import SqfIndex.Workspace.State

/-!
Indexing: every script under a directory is analyzed, in one pass or two. In the second pass a name
that a later file defines is no longer unknown.
-/

namespace SqfIndex.Workspace

/-- The percentage shown when `done` of `total` files are done. Of two passes each takes one half. -/
def percent (done total : Nat) (second twice : Bool) : Nat :=
  let share := if total = 0 then 0 else 100 * done / total
  if !twice then share else if second then 50 + share / 2 else share / 2

/-- How an indexing went. -/
structure Summary where
  files : Nat
  /-- Files that could not be analyzed, over all passes. -/
  failed : Nat
  passes : Nat
deriving DecidableEq, Repr

/-- A state of a run: the workspace, what was seen, and how many files failed. -/
structure Progress where
  workspace : Workspace
  notices : List Notice := []
  failed : Nat := 0

/-- Analyzes the file at place `i` of a pass; every `interval` files the progress is shown first. -/
def visit (s : Surroundings) (total interval : Nat) (second twice : Bool) (run : Progress) (i : Nat) (path : Path) :
    Progress :=
  let shown := if i % max interval 1 = 0 then [.progress (percent i total second twice)] else []
  let ((workspace, seen), outcome) := run.workspace.analyzeFile s path
  { workspace
    notices := run.notices ++ shown ++ seen
    failed := run.failed + if outcome.isOk then 0 else 1 }

/-- Visits files from place `i` on. -/
def visitFrom (s : Surroundings) (total interval : Nat) (second twice : Bool) :
    Nat → List Path → Progress → Progress
  | _, [], run => run
  | i, path :: paths, run =>
    visitFrom s total interval second twice (i + 1) paths (visit s total interval second twice run i path)

/-- One pass over the files. -/
def pass (s : Surroundings) (files : List Path) (interval : Nat) (second twice : Bool) (run : Progress) : Progress :=
  let run := visitFrom s files.length interval second twice 0 files run
  { run with notices := run.notices ++ [.completed (.pass second)] }

/-- Indexes files, starting with the second pass if asked to; two passes are made if the settings say
so. The progress is cleared at the end. -/
def indexFiles (s : Surroundings) (files : List Path) (second : Bool) (w : Workspace) :
    Workspace × List Notice × Summary :=
  let twice := w.settings.indexWorkspaceTwice
  let interval := w.settings.progressInterval
  let first := pass s files interval second twice { workspace := w }
  let again := !second && twice
  let run := if again then pass s files interval true twice first else first
  (run.workspace, run.notices ++ [.cleared],
    { files := files.length, failed := run.failed, passes := if again then 2 else 1 })

/-- Indexes the scripts under a directory. -/
def index (s : Surroundings) (root : Path) (second : Bool) (w : Workspace) : Workspace × List Notice × Summary :=
  w.indexFiles s (s.scripts root w.settings.exclude) second

/-- Indexes at the start, unless the settings are against it. -/
def initialIndex? (s : Surroundings) (root : Path) (w : Workspace) : Option (Workspace × List Notice × Summary) :=
  if w.settings.indexWorkspace then some (w.index s root false) else none

end SqfIndex.Workspace
