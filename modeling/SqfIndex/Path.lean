import SqfIndex.Text.Space
import SqfIndex.Text.Utf8

/-!
File paths. A path keeps the bytes it was written with, which need not be those of a text; two paths
are the same when they have the same components. `Path.normalize?` resolves `.` and `..` without
looking at any file.
-/

namespace SqfIndex

/-- One step of a path. -/
inductive Component
  | root
  | here
  | up
  | name (written : Bytes)
deriving DecidableEq, Repr, Inhabited

/-- A path as written. -/
structure Path where
  bytes : Bytes
deriving DecidableEq, Repr, Inhabited

/-- The byte between two steps of a path, a slash. -/
def Path.separator : UInt8 := 0x2F

namespace Component

/-- The byte of a dot. -/
def dot : UInt8 := 0x2E

/-- The component as it is written. -/
def bytes : Component → Bytes
  | root => [Path.separator]
  | here => [dot]
  | up => [dot, dot]
  | name written => written

/-- Reads a part between two separators. Empty parts and `.` are no steps. -/
def ofPart? (part : Bytes) : Option Component :=
  if part = [] ∨ part = [dot] then none
  else if part = [dot, dot] then some up
  else some (name part)

/-- Place of a component among the kinds: the root first and names last. -/
def rank : Component → Nat
  | root => 0
  | here => 1
  | up => 2
  | name _ => 3

/-- Orders by kind, then by the bytes written. -/
def order (a b : Component) : Ordering :=
  (compare a.rank b.rank).then (List.compareLex compare a.bytes b.bytes)

/-- Orders rows of components by the first place at which they differ; a shorter row comes first. -/
def orderLists : List Component → List Component → Ordering
  | [], [] => .eq
  | [], _ :: _ => .lt
  | _ :: _, [] => .gt
  | a :: as, b :: bs => (a.order b).then (orderLists as bs)

end Component

namespace Path

/-- The path that is written as a text. -/
def ofText (s : String) : Path := ⟨Text.encode s.toList⟩

/-- The path as it is shown: bytes that are no text are replaced. -/
def text (p : Path) : String := Text.shown p.bytes

/-- The parts between separators. -/
def parts (p : Path) : List Bytes := Text.splitAt separator p.bytes

def isAbsolute (p : Path) : Bool := p.bytes.head? == some separator

/-- The steps of a path. A leading `.` counts as one, later ones do not. -/
def components (p : Path) : List Component :=
  match p.parts with
  | [] => []
  | first :: rest =>
    let tail := rest.filterMap Component.ofPart?
    if first = [] then
      if rest = [] then [] else .root :: tail
    else if first = [Component.dot] then .here :: tail
    else (Component.ofPart? first).toList ++ tail

/-- Whether two paths have the same components. -/
def same (p q : Path) : Bool := p.components == q.components

/-- Orders paths component by component. -/
def order (p q : Path) : Ordering := Component.orderLists p.components q.components

/-- Appends a path; an absolute one replaces what it is appended to. -/
def join (p q : Path) : Path :=
  if q.isAbsolute then q
  else if p.bytes.getLast?.all (· == separator) then ⟨p.bytes ++ q.bytes⟩
  else ⟨p.bytes ++ separator :: q.bytes⟩

/-- Whether a part between separators is no step. -/
def isVoid (part : Bytes) : Bool := part == [] || part == [Component.dot]

/-- The path without its last component; the root and the empty path have none. -/
def parent? (p : Path) : Option Path :=
  match p.parts with
  | [] => none
  | first :: rest =>
    match rest.reverse.dropWhile isVoid with
    | [] => if first = [] then none else some ⟨[]⟩
    | _ :: before =>
      let kept := (before.dropWhile isVoid).reverse
      if first = [] ∧ kept = [] then some ⟨[separator]⟩
      else some ⟨Text.joinWith [separator] (first :: kept)⟩

/-- The path that has the given components. -/
def ofComponents (cs : List Component) : Path := cs.foldl (fun p c => p.join ⟨c.bytes⟩) ⟨[]⟩

/-- Takes one more step, with the steps so far latest first. Going up undoes a name only. -/
def step : List Component → Component → List Component
  | .name _ :: back, .up => back
  | back, .up => back
  | back, .here => back
  | back, c => c :: back

/-- The steps that are left once `.` and `..` are resolved. -/
def resolved (cs : List Component) : List Component := (cs.foldl step []).reverse

/-- Resolves `.` and `..`; nothing if no step is left. -/
def normalize? (p : Path) : Option Path :=
  match resolved p.components with
  | [] => none
  | cs => some (ofComponents cs)

/-- The last component, if it is a name. -/
def fileName? (p : Path) : Option Bytes :=
  match p.components.getLast? with
  | some (.name written) => some written
  | _ => none

/-- What follows the last dot of a file name; a dot that begins the name does not count. -/
def extension? (p : Path) : Option Bytes :=
  p.fileName?.bind fun name =>
    match name.reverse.dropWhile (· != Component.dot) with
    | _ :: stem@(_ :: _) => some (name.drop (stem.length + 1))
    | _ => none

end Path

end SqfIndex
