import SqfIndex.Path

/-!
Where generated code comes from. A map is built by pushing runs of code in the order in which they
are generated; copies that continue one another are kept as one segment.
-/

namespace SqfIndex

/-- A stretch of bytes, without its end. -/
structure Span where
  start : Nat
  stop : Nat
deriving DecidableEq, Repr, Inhabited

/-- A run of generated code and the stretch of a file that it stands for. -/
structure Segment where
  start : Nat
  stop : Nat
  file : Path
  origin : Nat
  extent : Nat
deriving DecidableEq, Repr, Inhabited

/-- What is told to a source map about a run of generated code. -/
inductive Push
  /-- `length` bytes were copied from `file`. -/
  | copy (start length : Nat) (file : Path) (origin : Nat)
  /-- The code stands for `extent` bytes of `file`, which need not be its text. -/
  | expansion (start stop : Nat) (file : Path) (origin extent : Nat)
deriving DecidableEq, Repr

/-- Segments, latest first. -/
structure SourceMap where
  latest : List Segment := []
deriving DecidableEq, Repr, Inhabited

namespace Segment

/-- Whether a copy from `origin` on continues the segment in the code and in its file. -/
def continuesWith (s : Segment) (start : Nat) (file : Path) (origin : Nat) : Bool :=
  s.stop - s.start == s.extent && s.stop == start && s.origin + s.extent == origin && s.file.same file

/-- The segment with `length` more bytes on both sides. -/
def extend (s : Segment) (length : Nat) : Segment :=
  { s with stop := s.stop + length, extent := s.extent + length }

/-- The place in its file of an offset in the code; what is past the extent stays at its end. -/
def locate (s : Segment) (offset : Nat) : Path × Nat :=
  (s.file, s.origin + min (offset - s.start) s.extent)

end Segment

namespace Push

/-- Where the code of a push starts. -/
def start : Push → Nat
  | copy start .. => start
  | expansion start .. => start

/-- The segment a push describes; an empty copy describes none. -/
def segment? : Push → Option Segment
  | copy start length file origin =>
    if length = 0 then none else some ⟨start, start + length, file, origin, length⟩
  | expansion start stop file origin extent => some ⟨start, stop, file, origin, extent⟩

end Push

namespace SourceMap

/-- The segments in the order of the code. -/
def segments (m : SourceMap) : List Segment := m.latest.reverse

/-- Records a run of code. -/
def push (m : SourceMap) (p : Push) : SourceMap :=
  match p.segment? with
  | none => m
  | some s =>
    match p, m.latest with
    | .copy start length file origin, last :: before =>
      if last.continuesWith start file origin then ⟨last.extend length :: before⟩
      else ⟨s :: m.latest⟩
    | _, _ => ⟨s :: m.latest⟩

/-- The map of a sequence of runs. -/
def ofPushes (pushes : List Push) : SourceMap := pushes.foldl push {}

/-- File and offset that an offset in the code stands for, decided by the last segment that starts at
or before it. -/
def resolve? (m : SourceMap) (offset : Nat) : Option (Path × Nat) :=
  (m.latest.find? (·.start ≤ offset)).map (·.locate offset)

end SourceMap

end SqfIndex
