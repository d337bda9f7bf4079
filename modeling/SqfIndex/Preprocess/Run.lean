import SqfIndex.Preprocess.Chunk
import SqfIndex.Preprocess.Fragment
import SqfIndex.Preprocess.Piece

/-!
Preprocessing. Chunks are worked off in order under the macros in force; an include is worked off in
place, down to a fixed depth.
-/

namespace SqfIndex.Preprocess

/-- How deep includes may nest. -/
def depthLimit : Nat := 16

/-- How some text is worked off: the pieces it becomes and the macros in force after it. -/
abbrev Work := Macros → List Piece × Macros

/-- One work after the other. -/
def Work.andThen (first second : Work) : Work := fun ms =>
  let (ps, ms) := first ms
  let (qs, ms) := second ms
  (ps ++ qs, ms)

/-- Fragments of a line that starts at `offset`, as pieces. -/
def piecesOf (file : Path) : Nat → List Fragment → List Piece
  | _, [] => []
  | offset, f :: fs =>
    (match f with
      | .plain text => .copied file offset text
      | .invocation m written expansion => .expanded file offset written m expansion) ::
        piecesOf file (offset + Text.width f.written) fs

/-- A line of code: macros in it are expanded. -/
def line (file : Path) (offset : Nat) (text : List Char) : Work := fun ms =>
  (piecesOf file offset (fragments ms text), ms)

/-- Finds and reads an include; a refusal says whether a file was to be read. -/
def fetch (r : Resolver) (nested : Bool) (file : Path) (requested : List Char) :
    Except (Bool × IncludeError) (Path × List Char) :=
  if !nested then .error (false, .tooDeep depthLimit)
  else if requested = [] then .error (false, .empty)
  else
    match r.resolve (String.ofList requested) file with
    | .error e => .error (false, e)
    | .ok path =>
      match r.load path with
      | .error e => .error (true, e)
      | .ok text => .ok (path, text)

/-- A directive. `enter` works off included text, if a further level is allowed. -/
def directive (r : Resolver) (enter : Option (Path → List Char → Work)) (file : Path) (offset : Nat)
    (text : List Char) : Work := fun ms =>
  match readCommand file offset text with
  | .nothing => ([.directive file offset text .none], ms)
  | .define m record => ([.directive file offset text (.defined record)], ms.define m)
  | .undefine name => ([.directive file offset text (.undefined name)], ms.erase name)
  | .fetch requested =>
    match fetch r enter.isSome file requested, enter with
    | .ok (path, included), some enter =>
      let before := if text.getLast? = some '\n' then [] else [.separator file (offset + Text.width text)]
      let after :=
        if included = [] ∨ included.getLast? = some '\n' then []
        else [.separator path (Text.width included)]
      let (ps, ms) := enter path included ms
      (.directive file offset text (.included (String.ofList requested) path) :: before ++ ps ++ after, ms)
    | .error (tried, e), _ =>
      ([.directive file offset text (.refused (String.ofList requested) tried e)], ms)
    | .ok _, none => ([.directive file offset text .none], ms)

/-- Chunks of a file that start at `offset`. -/
def chunkwise (r : Resolver) (enter : Option (Path → List Char → Work)) (file : Path) :
    Nat → List Chunk → Work
  | _, [] => fun ms => ([], ms)
  | offset, c :: cs =>
    (match c with
      | .code text => line file offset text
      | .directive text => directive r enter file offset text).andThen
        (chunkwise r enter file (offset + Text.width c.text) cs)

/-- The text of a file, with so many levels of includes below it. -/
def work (r : Resolver) : Nat → Path → List Char → Work
  | 0, file, text => chunkwise r none file 0 (chunks text)
  | levels + 1, file, text => chunkwise r (some (work r levels)) file 0 (chunks text)

/-- The pieces of a document. -/
def pieces (r : Resolver) (file : Path) (text : List Char) : List Piece := (work r depthLimit file text []).1

/-- Preprocesses a document. -/
def preprocess (r : Resolver) (file : Path) (text : List Char) : Preprocessed := ofPieces (pieces r file text)

end SqfIndex.Preprocess
