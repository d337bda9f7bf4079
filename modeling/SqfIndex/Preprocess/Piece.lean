import SqfIndex.Diagnostic
import SqfIndex.Include
import SqfIndex.Preprocess.Directive

/-!
Generated code as a row of pieces. Each piece knows the stretch of a file that it stands for; code,
source map, includes, macros and errors are all read off the pieces.
-/

namespace SqfIndex.Preprocess

/-- What came of a directive. -/
inductive Effect
  | none
  | defined (record : MacroRecord)
  | undefined (name : List Char)
  /-- A file was read; its pieces follow. -/
  | included (requested : String) (path : Path)
  /-- There is no text to include; `tried` says whether a file was to be read. -/
  | refused (requested : String) (tried : Bool) (error : IncludeError)
deriving DecidableEq, Repr

inductive Piece
  /-- Text of the file, as it is. -/
  | copied (file : Path) (offset : Nat) (text : List Char)
  /-- What an invocation turned into. -/
  | expanded (file : Path) (offset : Nat) (written : List Char) (m : Macro) (text : List Char)
  /-- A directive, blanked out. -/
  | directive (file : Path) (offset : Nat) (text : List Char) (effect : Effect)
  /-- A line feed around included text. -/
  | separator (file : Path) (offset : Nat)
deriving DecidableEq, Repr

/-- Blanks of the same size as a text, with its line feeds. -/
def blank (text : List Char) : List Char :=
  text.flatMap fun c => if c = '\n' then ['\n'] else List.replicate c.utf8Size ' '

namespace Piece

/-- The code a piece contributes. -/
def code : Piece → List Char
  | copied _ _ text => text
  | expanded _ _ _ _ text => text
  | directive _ _ text _ => blank text
  | separator _ _ => ['\n']

/-- Bytes of the code of a piece. -/
def size : Piece → Nat
  | copied _ _ text => Text.width text
  | expanded _ _ _ _ text => Text.width text
  | directive _ _ text _ => Text.width text
  | separator _ _ => 1

/-- What a piece at `start` of the code tells the source map. -/
def push (start : Nat) : Piece → Push
  | copied file offset text => .copy start (Text.width text) file offset
  | expanded _ _ _ m text => .expansion start (start + Text.width text) m.file m.offset m.extent
  | directive file offset text _ => .copy start (Text.width text) file offset
  | separator file offset => .expansion start (start + 1) file offset 0

def effect : Piece → Effect
  | directive _ _ _ effect => effect
  | _ => .none

end Piece

/-- An include that was followed. -/
structure IncludeRecord where
  /-- The path as written. -/
  requested : String
  path : Path
  span : Span
deriving DecidableEq, Repr

/-- The result of preprocessing. -/
structure Preprocessed where
  code : List Char := []
  map : SourceMap := {}
  includes : List IncludeRecord := []
  macros : List MacroRecord := []
  errors : List Finding := []
  /-- How many files were to be read. -/
  loads : Nat := 0

/-- Pieces with the offsets at which their code starts. -/
def placed : Nat → List Piece → List (Nat × Piece)
  | _, [] => []
  | start, p :: ps => (start, p) :: placed (start + p.size) ps

/-- The include that a piece at `start` followed. -/
def includeOf? (start : Nat) (p : Piece) : Option IncludeRecord :=
  match p.effect with
  | .included requested path => some ⟨requested, path, ⟨start, start + p.size⟩⟩
  | _ => none

/-- The macro that a piece defined. -/
def recordOf? (p : Piece) : Option MacroRecord :=
  match p.effect with
  | .defined record => some record
  | _ => none

/-- The error that a piece at `start` reports. -/
def errorOf? (start : Nat) (p : Piece) : Option Finding :=
  match p.effect with
  | .refused requested _ error =>
    some ⟨.error, "Failed to include '" ++ requested ++ "': " ++ error.message, ⟨start, start + p.size⟩⟩
  | _ => none

/-- Whether a file was to be read for a piece. -/
def isLoad (p : Piece) : Bool :=
  match p.effect with
  | .included _ _ => true
  | .refused _ tried _ => tried
  | _ => false

/-- Reads everything off the pieces. -/
def ofPieces (ps : List Piece) : Preprocessed where
  code := ps.flatMap (·.code)
  map := .ofPushes ((placed 0 ps).map fun (start, p) => p.push start)
  includes := (placed 0 ps).filterMap fun (start, p) => includeOf? start p
  macros := ps.filterMap recordOf?
  errors := (placed 0 ps).filterMap fun (start, p) => errorOf? start p
  loads := ps.countP isLoad

end SqfIndex.Preprocess
