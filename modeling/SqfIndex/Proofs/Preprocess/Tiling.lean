import SqfIndex.Preprocess.Run
import SqfIndex.Proofs.Preprocess.Placement

/-!
# The source map tiles the code

Code and source map are written side by side, and neither gets ahead of the other: each push of a piece starts
where the segments so far end (`Tiles.push`), so that the segments lie one after the other from the start of
the code to its end (`tiles_ofPieces`).
-/

namespace SqfIndex

/-! ## Segments one after the other -/

/-- The segments lie one after the other, from `start` to `stop`. -/
def Tiles : Nat → List Segment → Nat → Prop
  | start, [], stop => start = stop
  | start, s :: rest, stop => s.start = start ∧ s.start ≤ s.stop ∧ Tiles s.stop rest stop

theorem tiles_append {start stop : Nat} {segments : List Segment} {s : Segment} :
    Tiles start (segments ++ [s]) stop ↔ Tiles start segments s.start ∧ s.start ≤ s.stop ∧ s.stop = stop := by
  induction segments generalizing start with
  | nil =>
      simp only [List.nil_append, Tiles]
      rw [eq_comm]
  | cons t segments ih =>
      simp only [List.cons_append, Tiles, ih]
      constructor
      · rintro ⟨hstart, hle, hrest, h⟩
        exact ⟨⟨hstart, hle, hrest⟩, h⟩
      · rintro ⟨⟨hstart, hle, hrest⟩, h⟩
        exact ⟨hstart, hle, hrest, h⟩

def Push.stop : Push → Nat
  | copy start length _ _ => start + length
  | expansion _ stop _ _ _ => stop

theorem Push.stop_of_segment? {p : Push} {s : Segment} (h : p.segment? = some s) : s.stop = p.stop := by
  cases p with
  | expansion start stop file origin extent => cases h; rfl
  | copy start length file origin =>
      simp only [Push.segment?] at h
      split at h
      · cases h
      · cases h; rfl

theorem Push.stop_of_segment?_none {p : Push} (h : p.segment? = none) : p.stop = p.start := by
  cases p with
  | expansion => cases h
  | copy start length file origin =>
      simp only [Push.segment?] at h
      split at h
      · next hlength => rw [Push.stop, Push.start, hlength, Nat.add_zero]
      · cases h

/-- A push that starts where the segments end makes them reach to its own end, whether or not it is merged into
the last of them. -/
theorem Tiles.push {start : Nat} {m : SourceMap} {p : Push} (h : Tiles start m.segments p.start)
    (hle : p.start ≤ p.stop) : Tiles start (m.push p).segments p.stop := by
  unfold SourceMap.segments at h ⊢
  rcases SourceMap.push_cases m p with ⟨hnone, hpush⟩ | ⟨s, hs, hstart, hpush⟩ |
    ⟨first, length, file, origin, last, before, rfl, hs, hlatest, hcontinues, hpush⟩
  · rw [hpush, Push.stop_of_segment?_none hnone]
    exact h
  · have hstop := Push.stop_of_segment? hs
    rw [hpush, List.reverse_cons, tiles_append, hstart, hstop]
    exact ⟨h, hle, rfl⟩
  · rw [hlatest, List.reverse_cons, tiles_append] at h
    obtain ⟨hbefore, hlast, hend⟩ := h
    rw [hpush, List.reverse_cons, tiles_append]
    simp only [Segment.extend, Push.stop, Push.start] at hend ⊢
    exact ⟨hbefore, by omega, by omega⟩

/-- The span lies in the first `size` bytes. -/
def Span.Within (span : Span) (size : Nat) : Prop := span.start ≤ span.stop ∧ span.stop ≤ size

namespace Preprocess

open Text (width)

/-! ## Pieces one after the other -/

theorem Piece.stop_push (p : Piece) (start : Nat) : (p.push start).stop = start + p.size := by
  cases p <;> rfl

theorem tiles_ofPieces (ps : List Piece) : Tiles 0 (ofPieces ps).map.segments (width (ofPieces ps).code) := by
  show Tiles 0 (SourceMap.ofPushes (pushesFrom 0 ps)).segments (width (codeOf ps))
  induction ps using List.reverseRecOn with
  | nil => rfl
  | append_singleton ps p ih =>
      -- the last piece starts where the code of the others ends
      have hpushes : pushesFrom 0 (ps ++ [p]) = pushesFrom 0 ps ++ [p.push (width (codeOf ps))] := by
        rw [pushesFrom_append, Nat.zero_add]
        rfl
      have hcode : width (codeOf (ps ++ [p])) = (p.push (width (codeOf ps))).stop := by
        rw [codeOf_append, Text.width_append, p.stop_push, codeOf_cons, codeOf_nil, List.append_nil, p.width_code]
      rw [hpushes, hcode, SourceMap.ofPushes_append]
      refine Tiles.push ?_ ?_
      · rw [p.start_push]; exact ih
      · rw [p.start_push, p.stop_push]; exact Nat.le_add_right _ _

/-- Whatever was pushed before a push, the last segment starts no later than it. -/
theorem start_le_of_pushed {ps : List Piece} {before after : List Push} {p : Push}
    (h : pushesFrom 0 ps = before ++ p :: after) {last : Segment}
    (hlast : (SourceMap.ofPushes before).latest.head? = some last) : last.start ≤ p.start := by
  have hordered := pushesFrom_ordered 0 ps
  rw [h, List.pairwise_append] at hordered
  obtain ⟨q, hq, hstart, -⟩ := SourceMap.exists_push_of_mem before (List.mem_of_mem_head? hlast)
  rw [← hstart]
  exact hordered.2.2 q hq p List.mem_cons_self

theorem isSome_resolve?_of_tiles {m : SourceMap} {stop : Nat} (h : Tiles 0 m.segments stop) (hstop : 0 < stop)
    (offset : Nat) : (m.resolve? offset).isSome := by
  cases hsegments : m.segments with
  | nil =>
      rw [hsegments] at h
      exact absurd h (Nat.ne_of_lt hstop)
  | cons s rest =>
      -- the first segment starts with the code
      rw [hsegments] at h
      have hmem : s ∈ m.segments := hsegments ▸ List.mem_cons_self
      rw [SourceMap.resolve?, Option.isSome_map, List.find?_isSome]
      exact ⟨s, List.mem_reverse.mp hmem, decide_eq_true (h.1 ▸ Nat.zero_le offset)⟩

/-! ## Spans of includes and errors -/

theorem span_within {ps : List Piece} {start : Nat} {p : Piece} (h : (start, p) ∈ placed 0 ps) :
    Span.Within ⟨start, start + p.size⟩ (width (codeOf ps)) := by
  obtain ⟨before, after, rfl, rfl⟩ := mem_placed_iff.mp h
  refine ⟨Nat.le_add_right _ _, ?_⟩
  rw [codeOf_append, codeOf_cons, Text.width_append, Text.width_append, p.width_code, ← Nat.add_assoc]
  exact Nat.le_add_right _ _

theorem includes_within (ps : List Piece) : ∀ i ∈ (ofPieces ps).includes, i.span.Within (width (codeOf ps)) := by
  intro i hi
  obtain ⟨⟨start, p⟩, hmem, hinclude⟩ := List.mem_filterMap.mp hi
  simp only [includeOf?] at hinclude
  split at hinclude
  · cases hinclude
    exact span_within hmem
  · cases hinclude

theorem errors_within (ps : List Piece) : ∀ e ∈ (ofPieces ps).errors, e.place.Within (width (codeOf ps)) := by
  intro e he
  obtain ⟨⟨start, p⟩, hmem, herror⟩ := List.mem_filterMap.mp he
  simp only [errorOf?] at herror
  split at herror
  · cases herror
    exact span_within hmem
  · cases herror

/-- The segments of a preprocessed document lie one after the other from the start of the code to its end, and
there are none only if there is no code; no push starts before the last segment does. So every offset has a
place unless there is no code, and includes and errors lie in the code. -/
theorem source_map_tiles (r : Resolver) (file : Path) (text : List Char) :
    let out := preprocess r file text
    let pushes := pushesFrom 0 (pieces r file text)
    Tiles 0 out.map.segments (width out.code) ∧ (out.map.segments = [] → out.code = []) ∧
    out.map = .ofPushes pushes ∧
    (∀ before p after, pushes = before ++ p :: after →
      ∀ last, (SourceMap.ofPushes before).latest.head? = some last → last.start ≤ p.start) ∧
    (out.code ≠ [] → ∀ offset, (out.map.resolve? offset).isSome) ∧
    (∀ i ∈ out.includes, i.span.Within (width out.code)) ∧
    ∀ e ∈ out.errors, e.place.Within (width out.code) := by
  intro out pushes
  have htiles : Tiles 0 out.map.segments (width out.code) := tiles_ofPieces _
  refine ⟨htiles, ?_, rfl, ?_, ?_, includes_within _, errors_within _⟩
  · intro hnone
    rw [hnone] at htiles
    exact Text.width_eq_zero_iff.mp htiles.symm
  · intro before p after hpushes last hlast
    exact start_le_of_pushed hpushes hlast
  · intro hcode
    refine isSome_resolve?_of_tiles htiles (Nat.pos_of_ne_zero ?_)
    exact fun hzero => hcode (Text.width_eq_zero_iff.mp hzero)

end Preprocess

end SqfIndex
