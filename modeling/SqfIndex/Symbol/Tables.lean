import Std.Data.ExtTreeMap
import SqfIndex.Analysis.Report

/-!
The symbols of all documents: locals by document, and globals and macros with the places that each
document contributes. `Tables.reconcile` puts the latest report of a document in place of what the
document contributed before.
-/

namespace SqfIndex

open Std (ExtTreeMap)

/-- A variable that several documents may mention. -/
structure Global where
  name : String
  /-- The first comment that was not blank. -/
  comment : Option String := none
  definitions : ExtTreeMap Uri (List Range) := ∅
  usages : ExtTreeMap Uri (List Range) := ∅

/-- A macro that several documents may define. -/
structure GlobalMacro where
  name : String
  arguments : Option String := none
  definitions : ExtTreeMap Uri (List MacroDefinition) := ∅

namespace Global

/-- Whether some document defines the variable. -/
def isDefined (g : Global) : Bool := g.definitions.toList.any fun (_, ranges) => !ranges.isEmpty

def isUsed (g : Global) : Bool := g.usages.toList.any fun (_, ranges) => !ranges.isEmpty

/-- The variable without what a document contributes. -/
def forget (g : Global) (uri : Uri) : Global :=
  { g with definitions := g.definitions.erase uri, usages := g.usages.erase uri }

end Global

namespace GlobalMacro

def isDefined (m : GlobalMacro) : Bool := m.definitions.toList.any fun (_, ds) => !ds.isEmpty

/-- The macro without what a document contributes. -/
def forget (m : GlobalMacro) (uri : Uri) : GlobalMacro := { m with definitions := m.definitions.erase uri }

end GlobalMacro

/-- The symbols of all documents. Names are keys in lower case. -/
structure Tables where
  locals : ExtTreeMap Uri (ExtTreeMap String (Variable Range)) := ∅
  globals : ExtTreeMap String Global := ∅
  macros : ExtTreeMap String GlobalMacro := ∅

namespace Tables

/-- A trimmed comment, if it is not blank. -/
def nonBlank (comment : Option String) : Option String :=
  (comment.map Text.trimmed).filter (· ≠ "")

/-- Appends to the list that a document contributes; nothing is kept for an empty one. -/
def contribute {α : Type} (table : ExtTreeMap Uri (List α)) (uri : Uri) (items : List α) :
    ExtTreeMap Uri (List α) :=
  if items = [] then table else table.alter uri fun old => some (old.getD [] ++ items)

/-- Adds a local to those of its document. -/
def addLocal (table : ExtTreeMap String (Variable Range)) (v : Variable Range) :
    ExtTreeMap String (Variable Range) :=
  table.alter (Text.lowered v.name) fun old =>
    let l := old.getD { name := v.name }
    some { l with
      comment := l.comment.or (nonBlank v.comment)
      definitions := l.definitions ++ v.definitions
      usages := l.usages ++ v.usages }

/-- The locals among some variables. -/
def localsOf (vs : List (Variable Range)) : ExtTreeMap String (Variable Range) :=
  (vs.filter fun v => Name.isLocal v.name).foldl addLocal ∅

/-- Whether a variable is kept as a global; `owns` tells the names that others look after. -/
def isTracked (owns : String → Bool) (v : Variable Range) : Bool :=
  !Name.isLocal v.name && !Name.isReserved v.name && !Name.isEngineCommand v.name && !owns v.name

/-- Adds what a document says about a global. -/
def addGlobal (uri : Uri) (table : ExtTreeMap String Global) (v : Variable Range) : ExtTreeMap String Global :=
  table.alter (Text.lowered v.name) fun old =>
    let g := old.getD { name := v.name }
    some { g with
      comment := g.comment.or (nonBlank v.comment)
      definitions := contribute g.definitions uri v.definitions
      usages := contribute g.usages uri v.usages }

/-- Adds what a document says about a macro; the latest word on its arguments counts. -/
def addMacro (uri : Uri) (table : ExtTreeMap String GlobalMacro) (o : MacroOccurrence) :
    ExtTreeMap String GlobalMacro :=
  table.alter (Text.lowered o.name) fun old =>
    let m := old.getD { name := o.name }
    some { m with
      arguments := o.arguments
      definitions := m.definitions.alter uri fun ds => some (ds.getD [] ++ o.definitions) }

/-- The tables without what a document contributes to globals and macros. -/
def forget (t : Tables) (uri : Uri) : Tables :=
  { t with globals := t.globals.map fun _ g => g.forget uri, macros := t.macros.map fun _ m => m.forget uri }

/-- Takes out the globals that no document mentions and, if the settings ask for it, the macros that
no document defines. -/
def sweep (settings : Settings) (t : Tables) : Tables :=
  { t with
    globals := t.globals.filter fun _ g => g.isDefined || g.isUsed
    macros := if settings.evictOrphanMacros then t.macros.filter fun _ m => m.isDefined else t.macros }

/-- The tables with the latest report of a document in place of what it contributed before. -/
def replace (settings : Settings) (owns : String → Bool) (uri : Uri) (r : Report) (t : Tables) : Tables :=
  let cleared := { t with locals := t.locals.insert uri (localsOf r.vars) }.forget uri
  sweep settings
    { cleared with
      globals := (r.vars.filter (isTracked owns)).foldl (addGlobal uri) cleared.globals
      macros := r.macros.foldl (addMacro uri) cleared.macros }

/-- The warnings about one name in a document: one at each use, if no document defines the name, no
macro has it and the settings do not ignore it. -/
def undefinedAt (settings : Settings) (uri : Uri) (t : Tables) (key : String) : List Diagnostic :=
  match t.globals[key]? with
  | none => []
  | some g =>
    if g.isDefined || t.macros.contains key || settings.ignores g.name then []
    else ((g.usages[uri]?).getD []).map fun range =>
      ⟨.warning, "Possibly undefined variable " ++ g.name, range⟩

/-- The warnings about undefined globals in a document, name by name as they are first mentioned. -/
def undefined (settings : Settings) (owns : String → Bool) (uri : Uri) (r : Report) (t : Tables) :
    List Diagnostic :=
  ((r.vars.filter (isTracked owns)).map fun v => Text.lowered v.name).eraseDups.flatMap
    (undefinedAt settings uri t)

/-- Takes a report in and gives the warnings about undefined globals. -/
def reconcile (settings : Settings) (owns : String → Bool) (uri : Uri) (r : Report) (t : Tables) :
    Tables × List Diagnostic :=
  let t := t.replace settings owns uri r
  (t, t.undefined settings owns uri r)

/-- Forgets a document. -/
def remove (settings : Settings) (uri : Uri) (t : Tables) : Tables :=
  sweep settings ({ t with locals := t.locals.erase uri }.forget uri)

def findGlobal? (t : Tables) (name : String) : Option Global := t.globals[Text.lowered name]?

def findMacro? (t : Tables) (name : String) : Option GlobalMacro := t.macros[Text.lowered name]?

def findLocal? (t : Tables) (uri : Uri) (name : String) : Option (Variable Range) :=
  (t.locals[uri]?).bind fun table => table[Text.lowered name]?

/-- The locals of a document. -/
def localsIn (t : Tables) (uri : Uri) : List (Variable Range) :=
  ((t.locals[uri]?).map (·.values)).getD []

end Tables

/-- Sizes of the tables. -/
structure Census where
  documents : Nat
  locals : Nat
  globals : Nat
  macros : Nat
deriving DecidableEq, Repr

def Tables.census (t : Tables) : Census where
  documents := t.locals.size
  locals := t.locals.values.foldr (·.size + ·) 0
  globals := t.globals.size
  macros := t.macros.size

end SqfIndex
