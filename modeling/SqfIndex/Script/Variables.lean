import SqfIndex.Name.Classes
import SqfIndex.Script.Sighting

/-!
The variables of a script: its mentions, gathered by name. Names are the same when they agree in lower
case; a variable is called by the spelling that comes first.
-/

namespace SqfIndex.Script

/-- Variables by lower-cased name, in the order of their first mention. -/
abbrev Gathered := List (String × Variable Span)

/-- Adds a mention to its variable. The first comment stays. -/
def addTo (v : Variable Span) (s : Sighting) : Variable Span :=
  if s.defines then
    { v with definitions := v.definitions ++ [s.span], comment := v.comment.or s.comment }
  else { v with usages := v.usages ++ [s.span] }

/-- Adds a mention under the given key. -/
def gather (key : String) (s : Sighting) : Gathered → Gathered
  | [] => [(key, addTo { name := s.name } s)]
  | (k, v) :: rest => if k = key then (k, addTo v s) :: rest else (k, v) :: gather key s rest

/-- The variables that some mentions make up. -/
def gatherAll (ss : List Sighting) : List (Variable Span) :=
  (ss.foldl (fun found s => gather (Text.lowered s.name) s found) []).map (·.2)

/-- The variables of a script, from its significant tokens and all its tokens. -/
def variablesOf (tokens all : List Token) : List (Variable Span) := gatherAll (sightings tokens all)

/-- Whether a variable is a local that the script uses and nothing defines. -/
def isUndefinedLocal (v : Variable Span) : Bool :=
  Name.isLocal v.name && !Name.isMagicLocal v.name && v.definitions.isEmpty

/-- A warning at each use of a local that is never defined. -/
def undefinedLocals (tokens : List Token) : List Finding :=
  ((variablesOf tokens tokens).filter isUndefinedLocal).flatMap fun v =>
    v.usages.map fun span => ⟨.warning, "Local variable " ++ v.name ++ " is used but never defined", span⟩

end SqfIndex.Script
