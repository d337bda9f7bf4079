import SqfIndex.Cli

/-!
The program. It takes a snapshot of the files that a run can look at, runs the command line on the
snapshot, and measures how long each part takes.
-/

namespace SqfIndex.Program

open Stats (Duration Row)
open Workspace (Progress)

/-- The names that lead to an absolute path. -/
def namesOf (path : Path) : Place :=
  path.components.filterMap fun c =>
    match c with
    | .name written => some written
    | _ => none

/-- Adds an entry of a directory to a tree: a script, or a directory with the scripts below it. -/
partial def addEntry (t : FileTree) (entry : IO.FS.DirEntry) : IO FileTree := do
  let path : Path := .ofText entry.path.toString
  match (← entry.path.symlinkMetadata).type with
  | .dir =>
    let mut t := t.insert (namesOf path) .directory
    for inner in ← entry.path.readDir do
      t ← addEntry t inner
    return t
  | .file =>
    if FileTree.isScript path then
      return t.insert (namesOf path) (.file (← IO.FS.readBinFile entry.path).toList)
    return t
  | _ => return t

/-- Adds what stands at a path to a tree. What cannot be read is left out. -/
def addPath (t : FileTree) (path : Path) : IO FileTree := do
  try
    let real ← IO.FS.realPath path.text
    let names := namesOf (.ofText real.toString)
    if ← real.isDir then
      let mut t := t.insert names .directory
      for entry in ← real.readDir do
        t ← addEntry t entry
      return t
    return t.insert names (.file (← IO.FS.readBinFile real).toList)
  catch _ => return t

/-- The files that the includes of a text ask for. -/
def requestsOf (as : List Include.Alias) (file : Path) (text : List Char) : List Path :=
  (Preprocess.chunks text).filterMap fun chunk =>
    match Preprocess.readCommand file 0 chunk.text with
    | .fetch requested => (Include.resolve as (String.ofList requested) file).toOption
    | _ => none

/-- Adds the files that some files include, directly or through others. -/
partial def addIncludes (as : List Include.Alias) (t : FileTree) : List Path → IO FileTree
  | [] => return t
  | file :: files => do
    let wanted := ((t.read [] file).toOption.map (requestsOf as file)).getD []
    let missing := wanted.filter fun p => !(t.resolve [] p).isOk
    let mut next := t
    for path in missing do
      next ← addPath next path
    addIncludes as next (files ++ missing.eraseDups)

/-- The part of the disk that a run with the given arguments can look at. -/
def snapshot (current : Place) (args : List String) : IO FileTree := do
  let mut t := ({} : FileTree).insert current .directory
  for arg in args do
    t ← addPath t (.ofText arg)
  match (Stats.parse (t.isDirectory current) args).toOption with
  | none => return t
  | some args =>
    match Stats.prepare t current args with
    | .error _ => return t
    | .ok (settings, root) => addIncludes (Include.aliases settings.includePrefixes) t (t.scripts current root [])

/-- Evaluates a value and measures how long that takes. -/
def timed {α : Type} (value : Unit → α) : IO (α × Duration) := do
  let start ← IO.monoNanosNow
  let result ← IO.lazyPure value
  return (result, .ofNanos ((← IO.monoNanosNow) - start))

/-- An activity and how long it took. -/
def lap (label : String) (d : Duration) : Cli.Lap := ⟨label, d.rounded⟩

/-- One pass over the files, each visit timed on its own. -/
def timedPass (s : Surroundings) (files : List Path) (second : Bool) (start : Progress) :
    IO (Progress × List Cli.Lap × Duration) := do
  let settings := start.workspace.settings
  let mut run := start
  let mut laps := []
  let mut spent := []
  for (path, i) in files.zipIdx do
    let before := run
    let (next, d) ← timed fun _ =>
      Workspace.visit s files.length settings.progressInterval second settings.indexWorkspaceTwice before i path
    laps := laps ++ (Stats.labels (next.notices.drop run.notices.length)).map (lap · d)
    spent := d :: spent
    run := next
  let total := Duration.sum spent
  return (run, laps ++ [lap (Stats.activityLabel (.pass second)) total], total)

/-- Takes statistics and measures each phase. -/
def takeStats (t : FileTree) (current : Place) (settings : Settings) (root : Path) :
    IO (List Row × List Cli.Lap) := do
  let s := Stats.surroundings t current
  let (files, scan) ← timed fun _ => s.scripts root settings.exclude
  let (first, firstLaps, firstPass) ← timedPass s files false { workspace := .ofSettings settings }
  let (run, secondLaps, secondPass) ←
    if settings.indexWorkspaceTwice then timedPass s files true first else pure (first, [], .zero)
  let summary : Workspace.Summary :=
    { files := files.length, failed := run.failed, passes := if settings.indexWorkspaceTwice then 2 else 1 }
  let store := run.workspace.store
  let (symbols, symbolsTime) ← timed fun _ => Stats.symbolsPhase store.tables.census
  let (lookup, lookupTime) ← timed fun _ => Stats.lookupPhase store
  let row (phase : Stats.Phase) (d : Duration) : Row := ⟨phase.name, d, phase.detail⟩
  return ([row (Stats.scanPhase files.length) scan,
      row (Stats.indexPhase summary run.notices) (Duration.sum [firstPass, secondPass]),
      row symbols symbolsTime, row lookup lookupTime],
    lap Stats.scanLabel scan :: firstLaps ++ secondLaps ++
      [lap Stats.symbolsLabel symbolsTime, lap Stats.lookupLabel lookupTime])

/-- Runs a command line. -/
def run (args : List String) : IO Cli.Outcome := do
  match Cli.command args with
  | .stats args =>
    let current := namesOf (.ofText (← IO.currentDir).toString)
    let t ← snapshot current args
    match Stats.parse (t.isDirectory current) args with
    | .error e => return Cli.failed e.message none
    | .ok args =>
      match Stats.prepare t current args with
      | .error e => return Cli.failed e.message (some e.cause)
      | .ok (settings, root) =>
        let (rows, laps) ← takeStats t current settings root
        let timing := Cli.timingOn (← IO.getEnv "SQFLS_PERF")
        return Cli.finished .measured timing args.format rows laps
  | plain => return Cli.runPlain plain

end SqfIndex.Program

def main (args : List String) : IO UInt32 := do
  let outcome ← SqfIndex.Program.run args
  IO.print outcome.stdout
  IO.eprint outcome.stderr
  return outcome.code.toUInt32
