import SqfIndex.Path
import SqfIndex.Text.Hex
import SqfIndex.Text.Utf8

/-!
Document addresses, and the way from a path to an address and back.
-/

namespace SqfIndex

/-- The address of a document, in normal form. -/
abbrev Uri := String

namespace Uri

/-- Bytes that cannot stand for themselves in a path segment. -/
def isEscaped (b : Nat) : Bool :=
  b ≤ 0x20 || b ≥ 0x7F ||
    [0x22, 0x23, 0x25, 0x2F, 0x3C, 0x3E, 0x3F, 0x5C, 0x60, 0x7B, 0x7D].contains b

def escapeByte (b : UInt8) : List Char :=
  if isEscaped b.toNat then ['%', Text.hexDigit (b.toNat / 16), Text.hexDigit (b.toNat % 16)]
  else [Char.ofNat b.toNat]

/-- Writes a path segment with percent escapes. -/
def escape (segment : Bytes) : String := String.ofList (segment.flatMap escapeByte)

/-- The bytes a text with percent escapes stands for. What is no escape stands for itself. -/
def unescape : List Char → Bytes
  | '%' :: a :: b :: rest =>
    match Text.hexValue? a, Text.hexValue? b with
    | some x, some y => UInt8.ofNat (16 * x + y) :: unescape rest
    | _, _ => 0x25 :: unescape (a :: b :: rest)
  | c :: rest => Text.encode [c] ++ unescape rest
  | [] => []

/-- The address of an absolute path. -/
def ofPath? (p : Path) : Option Uri :=
  if p.isAbsolute then
    match p.components.drop 1 with
    | [] => some "file:///"
    | cs => some ("file://" ++ String.join (cs.map fun c => "/" ++ escape c.bytes))
  else none

/-- What follows the scheme, up to a query or fragment. -/
def hierarchy (uri : Uri) : List Char :=
  ((uri.toList.dropWhile (· != ':')).drop 1).takeWhile fun c => c != '?' && c != '#'

/-- The host of an authority, without what stands before an `@` and after a colon. -/
def hostOf (authority : List Char) : String :=
  let host :=
    if authority.contains '@' then (authority.reverse.takeWhile (· != '@')).reverse else authority
  String.ofList (if host.head? = some '[' then host else host.takeWhile (· != ':'))

/-- Host, if there is one, and path of an address, still escaped. Without an authority, a path that
begins with two slashes is written with `/.` in front. -/
def hostAndPath (uri : Uri) : Option String × List Char :=
  match uri.hierarchy with
  | '/' :: '/' :: rest =>
    let host := hostOf (rest.takeWhile (· != '/'))
    (if host = "" then none else some host, rest.dropWhile (· != '/'))
  | '/' :: '.' :: '/' :: '/' :: rest => (none, '/' :: '/' :: rest)
  | path => (none, path)

/-- A drive letter at the end of a path is followed by a separator. -/
def endsInDrive (path : Bytes) : Bool :=
  match path.reverse with
  | d :: c :: _ :: _ => (d == 0x3A || d == 0x7C) && (Char.ofNat c.toNat).isAlpha
  | _ => false

/-- The path of a document. An address that names no local file keeps its path part as written. -/
def toPath (uri : Uri) : Path :=
  match uri.hostAndPath with
  | (host, path) =>
    if path.head? = some '/' ∧ (host = none ∨ host = some "localhost") then
      let bytes := unescape path
      ⟨if endsInDrive bytes then bytes ++ [Path.separator] else bytes⟩
    else ⟨Text.encode path⟩

end Uri

end SqfIndex
