import Std.Data.ExtTreeMap
import SqfIndex.Text.Case

/-!
Values by name, to be found by the start of the name. Short starts have a bucket of their own; longer
ones are looked for among the names.
-/

namespace SqfIndex

open Std (ExtTreeMap)

/-- Values in the order in which they came, by lower-cased name and by the first characters of it. -/
structure PrefixIndex (α : Type) where
  exact : ExtTreeMap String (List α) := ∅
  buckets : ExtTreeMap String (List α) := ∅

namespace PrefixIndex

variable {α : Type}

/-- The longest start of a name that has a bucket. -/
def bucketLimit : Nat := 3

/-- Files a value last under a key. -/
def file (table : ExtTreeMap String (List α)) (key : String) (value : α) : ExtTreeMap String (List α) :=
  table.alter key fun values => some (values.getD [] ++ [value])

/-- The starts of a name that have a bucket, the shortest first. -/
def starts (name : List Char) : List String :=
  (List.range (min bucketLimit name.length)).map fun i => String.ofList (name.take (i + 1))

/-- Adds a value under a name. -/
def add (ix : PrefixIndex α) (name : String) (value : α) : PrefixIndex α where
  exact := file ix.exact (Text.lowered name) value
  buckets := (starts (Text.lower name.toList)).foldl (fun table key => file table key value) ix.buckets

/-- The values whose names start with the query, in any case of letters; all values for none. -/
def find (ix : PrefixIndex α) (query : String) : List α :=
  let start := Text.lower query.toList
  if start = [] then ix.exact.values.flatten
  else if start.length ≤ bucketLimit then (ix.buckets[String.ofList start]?).getD []
  else (ix.exact.toList.filter fun (key, _) => start.isPrefixOf key.toList).flatMap (·.2)

/-- The values under a name, in any case of letters. -/
def get (ix : PrefixIndex α) (name : String) : List α := (ix.exact[Text.lowered name]?).getD []

/-- Drops all values. -/
def clear (ix : PrefixIndex α) : PrefixIndex α := { ix with exact := ∅, buckets := ∅ }

/-- How many names there are. -/
def size (ix : PrefixIndex α) : Nat := ix.exact.size

def isEmpty (ix : PrefixIndex α) : Bool := ix.exact.isEmpty

end PrefixIndex

end SqfIndex
