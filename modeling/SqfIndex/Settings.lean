import SqfIndex.Json.Value
import SqfIndex.Text.Case

/-!
Settings of the analyzer, and how they are read from the settings of an editor.
-/

namespace SqfIndex

structure Settings where
  /-- Patterns of files that are not indexed. -/
  exclude : List String := []
  /-- Lower-cased names of globals that are never reported as undefined. -/
  ignoredVariables : List String := []
  /-- Aliases of include paths with their targets; the aliases are distinct. -/
  includePrefixes : List (String × String) := []
  /-- Whether the workspace is indexed at the start. -/
  indexWorkspace : Bool := true
  /-- Whether indexing makes a second pass. -/
  indexWorkspaceTwice : Bool := false
  /-- Whether warnings are published; errors always are. -/
  warnings : Bool := true
  /-- Quiet time before an edited document is analyzed, in milliseconds. -/
  debounceMs : Nat := 200
  /-- Files between two reports of progress. -/
  progressInterval : Nat := 10
  /-- Whether macros go once no document defines them. -/
  evictOrphanMacros : Bool := false
deriving DecidableEq, Repr, Inhabited

namespace Settings

open Json (Value)

/-- Whether a global is never reported as undefined. -/
def ignores (s : Settings) (name : String) : Bool := s.ignoredVariables.contains (Text.lowered name)

/-- Name of the analyzer's section. -/
def sectionName : String := "sqflint"

/-- Reads the analyzer's section. What is absent or of another type keeps its default. -/
def ofSection (v : Value) : Settings :=
  let texts (key : String) : Option (List String) := ((v.get? key).bind Value.list?).map (·.filterMap Value.text?)
  let flag (key : String) (default : Bool) : Bool := ((v.get? key).bind Value.bool?).getD default
  let word (key : String) (default : Nat) : Nat := ((v.get? key).bind Value.word?).getD default
  let aliases (members : List (String × Value)) : List (String × String) :=
    members.filterMap fun (written, target) => target.text?.map (written, ·)
  { exclude := (texts "exclude").getD []
    ignoredVariables := ((texts "ignoredVariables").getD []).map Text.lowered
    includePrefixes := (((v.get? "includePrefixes").bind Value.object?).map aliases).getD []
    indexWorkspace := flag "indexWorkspace" true
    indexWorkspaceTwice := flag "indexWorkspaceTwice" false
    warnings := flag "warnings" true
    debounceMs := word "debounceMs" 200
    progressInterval := max (word "progressInterval" 10) 1
    evictOrphanMacros := flag "evictOrphanMacros" false }

/-- Reads the settings of an editor, if they have the analyzer's section. -/
def ofEditor? (v : Value) : Option Settings := (v.get? sectionName).map ofSection

/-- Reads either the settings of an editor or the analyzer's section alone. -/
def ofFile (v : Value) : Settings := (ofEditor? v).getD (ofSection v)

end Settings

end SqfIndex
