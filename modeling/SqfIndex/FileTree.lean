import SqfIndex.Glob
import SqfIndex.Reading
import SqfIndex.Text.Case
import SqfIndex.Text.Utf8

/-!
A tree of directories and files, and how a path is followed in it.
-/

namespace SqfIndex

/-- What stands at a place of the tree. -/
inductive Node
  | directory
  | file (bytes : Bytes)
deriving DecidableEq, Repr

/-- The names that lead from the root to a place. -/
abbrev Place := List Bytes

/-- Nodes by their places; the root is always there. -/
structure FileTree where
  nodes : List (Place × Node) := []

namespace FileTree

def get? (t : FileTree) (names : Place) : Option Node :=
  if names = [] then some .directory else t.nodes.lookup names

/-- Puts a node in place of what was there. -/
def set (t : FileTree) (names : Place) (node : Node) : FileTree :=
  ⟨(names, node) :: t.nodes.filter (·.1 ≠ names)⟩

/-- The ways to all directories above a place, outermost first. -/
def above (names : Place) : List Place :=
  (List.range names.length).map names.take

/-- Puts a node, and directories where they are missing on the way to it. -/
def insert (t : FileTree) (names : Place) (node : Node) : FileTree :=
  let prepared := (above names).foldl (fun t way => if (t.get? way).isSome then t else t.set way .directory) t
  match node, prepared.get? names with
  | .directory, some _ => prepared
  | _, _ => prepared.set names node

/-- Takes a node away, with everything below it. -/
def erase (t : FileTree) (names : Place) : FileTree :=
  ⟨t.nodes.filter fun (way, _) => !names.isPrefixOf way⟩

/-- The most bytes a name has. -/
def longestName : Nat := 255

/-- The most bytes a path has. -/
def longestPath : Nat := 4095

/-- Follows the steps of a path from `place`, where `node` stands. -/
def follow (t : FileTree) : Place → Node → List Component → Except ReadError (Place × Node)
  | place, node, [] => .ok (place, node)
  | _, .file _, _ :: _ => .error .notDirectory
  | _, .directory, .root :: cs => t.follow [] .directory cs
  | place, .directory, .here :: cs => t.follow place .directory cs
  | place, .directory, .up :: cs => t.follow place.dropLast .directory cs
  | place, .directory, .name written :: cs =>
    match t.get? (place ++ [written]) with
    | none => .error (if written.length ≤ longestName then .notFound else .nameTooLong)
    | some node => t.follow (place ++ [written]) node cs

/-- Whether a path can only name a directory, by the way it is written. -/
def namesDirectory (p : Path) : Bool := p.parts.getLast?.any Path.isVoid

/-- Place and node of a path; a relative one is followed from the directory `current`. -/
def resolve (t : FileTree) (current : Place) (p : Path) : Except ReadError (Place × Node) :=
  if p.bytes.contains 0 then .error .zeroByte
  else if p.bytes.length > longestPath then .error .nameTooLong
  else if p.bytes = [] then .error .notFound
  else
    match t.follow current .directory p.components with
    | .ok (_, .file _) => if namesDirectory p then .error .notDirectory else t.follow current .directory p.components
    | outcome => outcome

def isDirectory (t : FileTree) (current : Place) (p : Path) : Bool :=
  match t.resolve current p with
  | .ok (_, .directory) => true
  | _ => false

/-- The bytes of a file. -/
def readBytes (t : FileTree) (current : Place) (p : Path) : Except ReadError Bytes :=
  match t.resolve current p with
  | .ok (_, .file bytes) => .ok bytes
  | .ok (_, .directory) => .error .isDirectory
  | .error e => .error e

/-- The text of a file; bytes that are no text are replaced. -/
def read (t : FileTree) (current : Place) : Reader := fun p =>
  (t.readBytes current p).map Text.decodeLossy

/-- The absolute path of a place. -/
def pathOf (names : Place) : Path := Path.ofComponents (.root :: names.map .name)

/-- Extension of script files. -/
def scriptExtension : String := "sqf"

def isScript (p : Path) : Bool := p.extension?.any fun e => Text.sameIgnoringAsciiCase scriptExtension (Text.shown e)

/-- Whether one of the patterns describes the way from the directory to the file. -/
def isExcluded (patterns : List Glob.Pattern) (way : List Bytes) : Bool :=
  let relative := Text.decodeLossy (Text.joinWith [Path.separator] way)
  patterns.any (Glob.matchesText · (String.ofList (Text.replaceChar '\\' '/' relative)))

/-- The ways from a place to the files at it and below. -/
def filesBelow (t : FileTree) (place : Place) : List (List Bytes) :=
  t.nodes.filterMap fun (way, node) =>
    match node with
    | .file _ => if place.isPrefixOf way then some (way.drop place.length) else none
    | .directory => none

/-- The script files under `root` in the order of paths, less those that a pattern describes.
Patterns that are not well formed are left aside. -/
def scripts (t : FileTree) (current : Place) (root : Path) (exclude : List String) : List Path :=
  match t.resolve current root with
  | .error _ => []
  | .ok (place, _) =>
    let patterns := exclude.filterMap Glob.compile?
    let found := (t.filesBelow place).filterMap fun way =>
      let path := way.foldl (fun p name => p.join ⟨name⟩) root
      if isScript path && !isExcluded patterns way then some path else none
    found.mergeSort fun p q => (p.order q).isLE

end FileTree

end SqfIndex
