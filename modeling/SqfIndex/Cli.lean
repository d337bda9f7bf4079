import SqfIndex.Stats.Phases
import SqfIndex.Stats.Rendering

/-!
The command line: what the arguments ask for, and what is written in answer.
-/

namespace SqfIndex.Cli

open Stats (Cells Duration Row)

def version : String := "0.1.0"

def usage : String :=
  "sqfls " ++ version ++ ", a static SQF analyzer.\n" ++
  "\nUsage: sqfls [OPTIONS]\n" ++
  "       sqfls analysis-stats <path> [--twice] [--config <file>] [--csv | --json]\n" ++
  "\nAvailable options:\n\n" ++
  "--version                    Print the version\n" ++
  "--help                       Print this help message\n" ++
  "\nSubcommands:\n\n" ++
  "analysis-stats               Index a workspace and report timings and counts\n\n"

/-- What a run writes and the code it ends with. -/
structure Outcome where
  code : Nat := 0
  stdout : String := ""
  stderr : String := ""
deriving DecidableEq, Repr

/-- A run that fails. -/
def failed (message : String) (cause : Option String) : Outcome where
  code := 1
  stderr := "Error: " ++ message ++ (cause.map ("\n\nCaused by:\n    " ++ ·)).getD "" ++ "\n"

/-- Whether the setting for taking times asks for it. -/
def timingOn (setting : Option String) : Bool :=
  match setting with
  | none => false
  | some s => !(["", "0", "false"].contains (Text.asciiLower (Text.trimmed s)))

/-- A line about an activity that ended. -/
def timingLine (label duration : String) : String :=
  "[INFO sqfls::perf] [PERF] " ++ label ++ " completed in " ++ duration ++ "\n"

/-- What the command line asks for. -/
inductive Command
  | usage
  | version
  | stats (args : List String)
  | unknown (arg : String)
deriving DecidableEq, Repr

def command : List String → Command
  | [] => .usage
  | "analysis-stats" :: args => .stats args
  | "--version" :: _ => .version
  | "--help" :: _ => .usage
  | arg :: _ => .unknown arg

/-- An activity that ended and how long it took, as text. -/
structure Lap where
  label : String
  duration : String
deriving DecidableEq, Repr

/-- A run that took statistics. The rows go to one channel and, if asked for, a line about each activity
to the other. -/
def finished (cells : Cells) (timed : Bool) (format : Stats.Format) (rows : List Row) (laps : List Lap) :
    Outcome where
  stdout := Stats.render cells format rows
  stderr := if timed then String.join (laps.map fun l => timingLine l.label l.duration) else ""

/-- A command line that takes no statistics. -/
def runPlain : Command → Outcome
  | .usage => { stdout := usage }
  | .version => { stdout := "sqfls " ++ version ++ "\n" }
  | .unknown arg => failed ("Unknown argument: '" ++ arg ++ "'") none
  | .stats _ => {}

/-- Runs a command line on a tree of files. Times are not taken: `cells` and `lap` say what is written
in their place. Lines about activities are written if the log is on and `timing`, the setting for
taking times, asks for them. -/
def run (cells : Cells) (lap : String) (log : Bool) (timing : Option String) (t : FileTree)
    (current : Place) (args : List String) : Outcome :=
  match command args with
  | .stats args =>
    match Stats.parse (t.isDirectory current) args with
    | .error e => failed e.message none
    | .ok args =>
      match Stats.run t current args with
      | .error e => failed e.message (some e.cause)
      | .ok outcome =>
        finished cells (log && timingOn timing) args.format
          (outcome.phases.map fun p => ⟨p.name, Duration.zero, p.detail⟩) (outcome.labels.map (⟨·, lap⟩))
  | plain => runPlain plain

end SqfIndex.Cli
