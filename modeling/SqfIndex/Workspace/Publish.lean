import Std.Data.ExtTreeMap
import SqfIndex.Analysis.Report

/-!
Which diagnostics an analysis shows for which files. What is published for a file takes the place of
everything published for it before.
-/

namespace SqfIndex.Workspace

open Std (ExtTreeMap)

/-- All that is shown for one file. -/
structure Publication where
  uri : Uri
  diagnostics : List Diagnostic
deriving DecidableEq, Repr

/-- Diagnostics by file. -/
abbrev Sheets := ExtTreeMap Uri (List Diagnostic)

/-- Makes a file known. -/
def touch (sheets : Sheets) (uri : Uri) : Sheets := sheets.alter uri fun old => some (old.getD [])

/-- Adds diagnostics to those of a file. -/
def note (sheets : Sheets) (uri : Uri) (ds : List Diagnostic) : Sheets :=
  sheets.alter uri fun old => some (old.getD [] ++ ds)

/-- The diagnostics of an analysis by file. The document and every included file are known even if
they have none. -/
def sheetsOf (settings : Settings) (uri : Uri) (r : Report) (undefined : List Diagnostic) : Sheets :=
  let known := (r.includes.filterMap fun i => Uri.ofPath? i.path).foldl touch (touch ∅ uri)
  let withErrors := r.errors.foldl (fun sheets p => note sheets p.uri [p.diagnostic]) known
  if settings.warnings then
    note (r.warnings.foldl (fun sheets p => note sheets p.uri [p.diagnostic]) withErrors) uri undefined
  else withErrors

/-- What an analysis publishes: the document first, the other files in the order of their addresses. -/
def publications (settings : Settings) (uri : Uri) (r : Report) (undefined : List Diagnostic) :
    List Publication :=
  let sheets := sheetsOf settings uri r undefined
  ⟨uri, (sheets[uri]?).getD []⟩ :: (sheets.erase uri).toList.map fun (u, ds) => ⟨u, ds⟩

end SqfIndex.Workspace
