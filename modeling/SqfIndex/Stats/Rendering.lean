import SqfIndex.Json.Writer
import SqfIndex.Stats.Arguments
import SqfIndex.Stats.Duration

/-!
Statistics as text: a table, comma-separated values, and JSON.
-/

namespace SqfIndex.Stats

/-- A phase with the time it took. -/
structure Row where
  name : String
  duration : Duration
  detail : String
deriving DecidableEq, Repr

/-- How durations are written in each format. -/
structure Cells where
  table : Duration → String
  csv : Duration → String
  json : Duration → String

def padRight (width : Nat) (s : String) : String := s ++ String.ofList (List.replicate (width - s.length) ' ')

def padLeft (width : Nat) (s : String) : String := String.ofList (List.replicate (width - s.length) ' ') ++ s

/-- Durations as they are. -/
def Cells.measured : Cells where
  table d := padLeft 10 d.rounded
  csv := Duration.fixedMillis
  json := Duration.shortMillis

/-- A table, with a total if there are several rows. -/
def renderTable (cells : Cells) (rows : List Row) : String :=
  let line (name : String) (d : Duration) := "  " ++ padRight 10 name ++ " " ++ cells.table d
  let body := rows.map fun r => line r.name r.duration ++ "   (" ++ r.detail ++ ")\n"
  let total :=
    if rows.length > 1 then "\n" ++ line "TOTAL" (Duration.sum (rows.map (·.duration))) ++ "\n" else ""
  "=== sqfls Analysis Stats ===\n\n" ++ String.join body ++ total ++ "\n"

/-- Comma-separated values; quotes in a detail are doubled. -/
def renderCsv (cells : Cells) (rows : List Row) : String :=
  let quoted (s : String) := String.ofList (s.toList.flatMap fun c => if c = '"' then ['"', '"'] else [c])
  "phase,duration_ms,detail\n" ++
    String.join (rows.map fun r => r.name ++ "," ++ cells.csv r.duration ++ ",\"" ++ quoted r.detail ++ "\"\n")

/-- A JSON list with an object a row. -/
def renderJson (cells : Cells) (rows : List Row) : String :=
  (Json.Value.list (rows.map fun r => .object
    [("phase", .text r.name), ("duration_ms", .number (cells.json r.duration)), ("detail", .text r.detail)])).pretty 0
    ++ "\n"

def render (cells : Cells) : Format → List Row → String
  | .table => renderTable cells
  | .csv => renderCsv cells
  | .json => renderJson cells

end SqfIndex.Stats
