import SqfIndex.Symbol.PrefixIndex
import SqfIndex.Symbol.Tables

/-!
The tables together with an index for search by the start of a name. The index is built when it is
asked for and dropped when the tables change.
-/

namespace SqfIndex

inductive SymbolKind
  | globalVariable
  | macroName
deriving DecidableEq, Repr

/-- A global or macro that a search finds. -/
structure Symbol where
  name : String
  kind : SymbolKind
deriving DecidableEq, Repr

/-- All globals and macros. -/
def Tables.symbols (t : Tables) : List Symbol :=
  t.globals.values.map (fun g => ⟨g.name, .globalVariable⟩) ++ t.macros.values.map fun m => ⟨m.name, .macroName⟩

/-- The index of some symbols by name. -/
def PrefixIndex.ofSymbols (symbols : List Symbol) : PrefixIndex Symbol :=
  symbols.foldl (fun ix s => ix.add s.name s) {}

structure Store where
  tables : Tables := {}
  /-- The index of the tables as they are, if it was built since they last changed. -/
  index : Option (PrefixIndex Symbol) := none

namespace Store

/-- Takes in the report of a document and gives the warnings about undefined globals. -/
def reconcile (settings : Settings) (owns : String → Bool) (uri : Uri) (r : Report) (s : Store) :
    Store × List Diagnostic :=
  let (tables, warnings) := s.tables.reconcile settings owns uri r
  ({ tables, index := none }, warnings)

/-- Forgets a document. -/
def remove (settings : Settings) (uri : Uri) (s : Store) : Store :=
  { tables := s.tables.remove settings uri, index := none }

/-- The globals and macros whose names start with the query, in any case of letters. -/
def search (query : String) (s : Store) : List Symbol × Store :=
  let index := s.index.getD (PrefixIndex.ofSymbols s.tables.symbols)
  (index.find query, { s with index := some index })

end Store

end SqfIndex
