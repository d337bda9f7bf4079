import SqfIndex.Reading
import SqfIndex.Text.Case
import SqfIndex.Text.Units

/-!
Include paths. A path as written is looked up among aliases, the longest first, and otherwise taken
relative to the directory of the including file.
-/

namespace SqfIndex

/-- Why an include has no text. -/
inductive IncludeError
  | empty
  | unreadable (path : Path) (cause : ReadError)
  | tooDeep (limit : Nat)
deriving DecidableEq, Repr

def IncludeError.message : IncludeError → String
  | empty => "empty include path"
  | unreadable path cause => "cannot read include file " ++ path.text ++ ": " ++ cause.message
  | tooDeep limit => "includes nested deeper than " ++ toString limit ++ " levels"

/-- How includes are found and read. -/
structure Resolver where
  /-- The path of an include as written in a file. -/
  resolve : String → Path → Except IncludeError Path
  /-- The text of an included file. -/
  load : Path → Except IncludeError (List Char)

namespace Include

/-- An include path as written, with slashes for backslashes and no separator at either end. -/
def normalize (written : List Char) : List Char :=
  Text.dropEndWhile (· == '/') ((Text.replaceChar '\\' '/' (Text.trim written)).dropWhile (· == '/'))

/-- A normalized alias and what it stands for. -/
structure Alias where
  name : List Char
  target : Path
deriving DecidableEq, Repr

/-- Longer aliases come first, aliases of one length in the order of their texts. -/
def Alias.precedes (a b : Alias) : Bool :=
  Text.width b.name < Text.width a.name ||
    (Text.width a.name == Text.width b.name && String.ofList a.name ≤ String.ofList b.name)

/-- The aliases that have a name left, in the order in which they are tried. -/
def aliases (entries : List (String × String)) : List Alias :=
  (entries.filterMap fun (written, target) =>
    let name := normalize written.toList
    if name = [] then none else some ⟨name, .ofText target⟩).mergeSort Alias.precedes

/-- What follows the alias in a normalized path, if the alias matches whole segments of it; letters
are compared up to ASCII case. -/
def Alias.rest? (a : Alias) (path : List Char) : Option (List Char) :=
  match Text.cutAt? (Text.width a.name) path with
  | some (head, rest) =>
    if head.map Char.toLower = a.name.map Char.toLower ∧ (rest = [] ∨ rest.head? = some '/') then some rest
    else none
  | none => none

/-- The path an alias gives, if it matches. -/
def Alias.pathFor? (a : Alias) (path : List Char) : Option Path :=
  (a.rest? path).map fun rest =>
    match rest with
    | [] => a.target
    | _ :: rest => a.target.join ⟨Text.encode rest⟩

/-- The path given by the first alias that matches. -/
def aliased? (as : List Alias) (path : List Char) : Option Path := as.findSome? (·.pathFor? path)

/-- The path of an include. -/
def resolve (as : List Alias) (written : String) (includer : Path) : Except IncludeError Path :=
  let path := normalize written.toList
  if path = [] then .error .empty
  else
    let candidate :=
      (aliased? as path).getD ((includer.parent?.getD ⟨[]⟩).join ⟨Text.encode path⟩)
    .ok (candidate.normalize?.getD candidate)

/-- The resolver for aliases as configured. -/
def resolver (entries : List (String × String)) (read : Reader) : Resolver where
  resolve := resolve (aliases entries)
  load path := (read path).mapError (.unreadable path)

end Include

end SqfIndex
