import SqfIndex.Path

/-!
Arguments of the command that takes statistics.
-/

namespace SqfIndex.Stats

inductive Format
  | table
  | csv
  | json
deriving DecidableEq, Repr

structure Arguments where
  path : Path
  format : Format := .table
  twice : Bool := false
  config : Option Path := none
deriving DecidableEq, Repr

inductive ArgumentError
  | twoFormats
  | noConfigFile
  | unknownFlag (flag : String)
  | twoPaths
  | noPath
  | notDirectory (path : Path)
deriving DecidableEq, Repr

def ArgumentError.message : ArgumentError → String
  | twoFormats => "--csv and --json are mutually exclusive"
  | noConfigFile => "--config requires a file path"
  | unknownFlag flag => "Unknown flag: '" ++ flag ++ "'"
  | twoPaths => "Multiple paths provided; expected exactly one"
  | noPath => "Missing required <path> argument"
  | notDirectory path => "Not a directory: " ++ path.text

/-- Arguments as far as they are read; the path may be missing. -/
structure Draft where
  path : Option Path := none
  format : Format := .table
  twice : Bool := false
  config : Option Path := none

/-- Reads arguments one after the other; the first fault counts. -/
def read : Draft → List String → Except ArgumentError Draft
  | d, [] => .ok d
  | d, "--twice" :: rest => read { d with twice := true } rest
  | _, ["--config"] => .error .noConfigFile
  | d, "--config" :: file :: rest => read { d with config := some (.ofText file) } rest
  | d, arg :: rest =>
    if arg = "--csv" ∨ arg = "--json" then
      if d.format ≠ .table then .error .twoFormats
      else read { d with format := if arg = "--csv" then .csv else .json } rest
    else if arg.toList.head? = some '-' then .error (.unknownFlag arg)
    else if d.path.isSome then .error .twoPaths
    else read { d with path := some (.ofText arg) } rest

/-- Reads all arguments; the path must name a directory. -/
def parse (isDirectory : Path → Bool) (args : List String) : Except ArgumentError Arguments := do
  let d ← read {} args
  match d.path with
  | none => throw .noPath
  | some path =>
    if isDirectory path then return { path, format := d.format, twice := d.twice, config := d.config }
    else throw (.notDirectory path)

end SqfIndex.Stats
