import SqfIndex.Position.LineIndex
import SqfIndex.Reading
import SqfIndex.SourceMap

/-!
From offsets in generated code to positions in files. A mapper keeps the lines of every file that it
had to look at, so that each is read once.
-/

namespace SqfIndex

structure Mapper where
  /-- Lines by path; the paths have distinct components. -/
  cache : List (Path × LineIndex) := []
  /-- How many reads were attempted. -/
  reads : Nat := 0
deriving Inhabited

namespace Mapper

/-- The lines kept for a path. -/
def lines? (m : Mapper) (path : Path) : Option LineIndex :=
  (m.cache.find? fun (p, _) => p.same path).map (·.2)

/-- Keeps a text that is already at hand. -/
def preload (m : Mapper) (path : Path) (text : List Char) : Mapper :=
  { m with cache := (path, .ofText text) :: m.cache.filter fun (p, _) => !p.same path }

/-- Reads a file unless its lines are kept. A file that cannot be read counts as empty. -/
def load (read : Reader) (m : Mapper) (path : Path) : Mapper :=
  match m.lines? path with
  | some _ => m
  | none =>
    { cache := (path, .ofText ((read path).toOption.getD [])) :: m.cache, reads := m.reads + 1 }

/-- Reads whichever of the files are not kept yet. -/
def loadAll (read : Reader) (m : Mapper) (paths : List Path) : Mapper := paths.foldl (load read) m

/-- The position of an offset in a file whose lines are kept. -/
def position (m : Mapper) (path : Path) (offset : Nat) : Position :=
  ((m.lines? path).getD (.ofText [])).position offset

/-- How many files are kept. -/
def size (m : Mapper) : Nat := m.cache.length

end Mapper

/-- How offsets are understood: through the map of the code, or, if `direct` is given, as offsets in
that file. Code that no segment covers belongs to `base`. -/
structure Frame where
  map : SourceMap
  base : Path
  direct : Option Path := none

namespace Frame

/-- File and offset that an offset stands for. -/
def target (f : Frame) (offset : Nat) : Path × Nat :=
  match f.direct with
  | some path => (path, offset)
  | none => (f.map.resolve? offset).getD (f.base, offset)

/-- The files that the ends of a span fall in. -/
def filesOf (f : Frame) (span : Span) : List Path := [(f.target span.start).1, (f.target span.stop).1]

/-- File and position of an offset, once the file is loaded. -/
def place (f : Frame) (m : Mapper) (offset : Nat) : Path × Position :=
  let (path, o) := f.target offset
  (path, m.position path o)

/-- File and range of a span, once its files are loaded. Both ends are looked up on their own; the
file is that of the start. -/
def placeSpan (f : Frame) (m : Mapper) (span : Span) : Path × Range :=
  let (path, start) := f.place m span.start
  (path, ⟨start, (f.place m span.stop).2⟩)

/-- Loads the files of some offsets and gives their places. -/
def lookup (f : Frame) (read : Reader) (m : Mapper) (offsets : List Nat) : List (Path × Position) × Mapper :=
  let m := m.loadAll read (offsets.map fun o => (f.target o).1)
  (offsets.map (f.place m), m)

/-- Loads the files of a span and gives its range. -/
def lookupSpan (f : Frame) (read : Reader) (m : Mapper) (span : Span) : (Path × Range) × Mapper :=
  let m := m.loadAll read (f.filesOf span)
  (f.placeSpan m span, m)

end Frame

end SqfIndex
