import SqfIndex.Path

/-!
Reading files: what can go wrong, and texts that are held in memory.
-/

namespace SqfIndex

/-- Why a file cannot be read. -/
inductive ReadError
  | notFound
  | notDirectory
  | isDirectory
  | nameTooLong
  | zeroByte
  | notHeld (path : Path)
deriving DecidableEq, Repr

/-- The text an operating system gives for the error. -/
def ReadError.message : ReadError → String
  | notFound => "No such file or directory (os error 2)"
  | notDirectory => "Not a directory (os error 20)"
  | isDirectory => "Is a directory (os error 21)"
  | nameTooLong => "File name too long (os error 36)"
  | zeroByte => "file name contained an unexpected NUL byte"
  | notHeld path => path.text ++ " not in memory"

/-- A way to read the text of a file. -/
abbrev Reader := Path → Except ReadError (List Char)

/-- Texts by path; of two texts for one path the first counts. -/
abbrev MemoryFiles := List (Path × List Char)

namespace MemoryFiles

/-- Puts a text in place of whatever the path had. -/
def insert (files : MemoryFiles) (path : Path) (text : List Char) : MemoryFiles :=
  (path, text) :: files.filter fun (p, _) => !p.same path

/-- Reads a path by its components. -/
def read (files : MemoryFiles) : Reader := fun path =>
  match files.find? fun (p, _) => p.same path with
  | some (_, text) => .ok text
  | none => .error (.notHeld path)

end MemoryFiles

end SqfIndex
