import SqfIndex.Proofs.Preprocess.Placement
import SqfIndex.Proofs.Preprocess.Trace

/-!
# Files behind generated code

Whatever the source map answers is a place in the document or in a file that is recorded among the
includes: `resolve?_recorded`. The map knows only files of reached texts, and to reach a text an include
directive was worked off, which leaves its record.
-/

namespace SqfIndex

namespace Preprocess

open Text (width)

variable {r : Resolver} {file : Path} {text : List Char}

/-! ## From code to reached texts -/

/-- The file that the code of a piece stands for: for an expansion that of the macro. -/
def Piece.home : Piece → Path
  | copied file _ _ => file
  | expanded _ _ _ m _ => m.file
  | directive file _ _ _ => file
  | separator file _ => file

theorem Piece.file_push (p : Piece) (start : Nat) : (p.push start).file = p.home := by
  cases p <;> rfl

theorem Piece.Traced.reached {p : Piece} (h : p.Traced r file text) : ∃ depth t, Reached r file text depth p.home t := by
  cases p with
  | copied f offset part =>
      obtain ⟨depth, t, hr, -⟩ := h
      exact ⟨depth, t, hr⟩
  | expanded f offset written m part =>
      obtain ⟨-, ⟨depth, t, _, _, _, hr, -⟩, -⟩ := h
      exact ⟨depth, t, hr⟩
  | directive f offset d effect =>
      obtain ⟨depth, t, hr, -⟩ := h
      exact ⟨depth, t, hr⟩
  | separator f offset =>
      rcases h with ⟨depth, t, _, _, _, hr, -⟩ | ⟨depth, t, hr, -⟩
      · exact ⟨depth, t, hr⟩
      · exact ⟨depth + 1, t, hr⟩

theorem resolve?_reached {offset : Nat} {f : Path} {o : Nat}
    (h : (preprocess r file text).map.resolve? offset = some (f, o)) : ∃ depth t, Reached r file text depth f t := by
  obtain ⟨push, hpush, rfl⟩ := SourceMap.file_of_resolve? h
  obtain ⟨⟨start, p⟩, hp, rfl⟩ := List.mem_map.mp hpush
  obtain ⟨before, after, hsplit, -⟩ := mem_placed_iff.mp hp
  have hmem : p ∈ pieces r file text := by simp [hsplit]
  rw [Piece.file_push]
  exact ((traced_law r file text).pieces p hmem).reached

/-! ## From reached texts to records -/

theorem directive_subset_chunkwise (r : Resolver) (enter : Option (Path → List Char → Work)) (f : Path) (d : List Char)
    (before after : List Chunk) (offset : Nat) (ms : Macros) :
    ∃ ms', (directive r enter f (offset + width (before.flatMap Chunk.text)) d ms').1 ⊆
      (chunkwise r enter f offset (before ++ .directive d :: after) ms).1 := by
  induction before generalizing offset ms with
  | nil => exact ⟨ms, List.subset_append_left _ _⟩
  | cons c before ih =>
      have hrest (ms' : Macros) := ih (offset + width c.text) ms'
      rw [List.flatMap_cons, Text.width_append, ← Nat.add_assoc]
      cases c with
      | code line =>
          obtain ⟨ms', h⟩ := hrest _
          exact ⟨ms', List.Subset.trans h (List.subset_append_right _ _)⟩
      | directive d' =>
          obtain ⟨ms', h⟩ := hrest _
          exact ⟨ms', List.Subset.trans h (List.subset_append_right _ _)⟩

/-- To work off a text is to work off what it includes, one level deeper and under whatever macros are in
force; the directive leaves a piece. -/
theorem included_subset_work {levels : Nat} {f : Path} {t : List Char} {offset : Nat} {d requested : List Char} {path : Path}
    {t' : List Char} (hc : HasChunk t offset (.directive d)) (hcmd : readCommand f offset d = .fetch requested)
    (hfetch : fetch r true f requested = .ok (path, t')) (ms : Macros) :
    ∃ ms', .directive f offset d (.included (String.ofList requested) path) :: (work r levels path t' ms').1 ⊆
      (work r (levels + 1) f t ms).1 := by
  obtain ⟨before, after, hchunks, rfl⟩ := hc
  obtain ⟨ms', h⟩ := directive_subset_chunkwise r (some (work r levels)) f d before after 0 ms
  rw [Nat.zero_add, ← hchunks] at h
  refine ⟨ms', fun p hp => h ?_⟩
  simp only [directive, hcmd, Option.isSome_some, hfetch, List.cons_append, List.mem_cons, List.mem_append]
  rcases List.mem_cons.mp hp with hp | hp
  · exact Or.inl hp
  · exact Or.inr (Or.inl (Or.inr hp))

theorem Reached.worked {depth : Nat} {f : Path} {t : List Char} (h : Reached r file text depth f t) :
    ∃ levels ms, depth + levels = depthLimit ∧ (work r levels f t ms).1 ⊆ pieces r file text := by
  induction h with
  | document => exact ⟨depthLimit, [], Nat.zero_add _, List.Subset.refl _⟩
  | included _ hlt hc hcmd hfetch ih =>
      obtain ⟨levels, ms, hlevels, hsub⟩ := ih
      -- a further level was allowed, so that there is one left
      obtain ⟨levels, rfl⟩ : ∃ n, levels = n + 1 := ⟨levels - 1, by omega⟩
      obtain ⟨ms', hms'⟩ := included_subset_work hc hcmd hfetch ms
      exact ⟨levels, ms', by omega, fun p hp => hsub (hms' (List.mem_cons_of_mem _ hp))⟩

theorem mem_includes {p : Piece} {requested : String} {path : Path} (hp : p ∈ pieces r file text)
    (heffect : p.effect = .included requested path) : ∃ i ∈ (preprocess r file text).includes, i.path = path := by
  obtain ⟨before, after, hsplit⟩ := List.append_of_mem hp
  refine ⟨⟨requested, path, ⟨width (codeOf before), width (codeOf before) + p.size⟩⟩, ?_, rfl⟩
  refine List.mem_filterMap.mpr ⟨(width (codeOf before), p), mem_placed_iff.mpr ⟨before, after, hsplit, rfl⟩, ?_⟩
  simp [includeOf?, heffect]

theorem Reached.recorded {depth : Nat} {f : Path} {t : List Char} (h : Reached r file text depth f t) :
    f = file ∨ ∃ i ∈ (preprocess r file text).includes, i.path = f := by
  cases h with
  | document => exact Or.inl rfl
  | included hr hlt hc hcmd hfetch =>
      obtain ⟨levels, ms, hlevels, hsub⟩ := hr.worked
      obtain ⟨levels, rfl⟩ : ∃ n, levels = n + 1 := ⟨levels - 1, by omega⟩
      obtain ⟨ms', hms'⟩ := included_subset_work hc hcmd hfetch ms
      exact Or.inr (mem_includes (hsub (hms' List.mem_cons_self)) rfl)

theorem resolve?_recorded {offset : Nat} {f : Path} {o : Nat}
    (h : (preprocess r file text).map.resolve? offset = some (f, o)) :
    f = file ∨ ∃ i ∈ (preprocess r file text).includes, i.path = f := by
  obtain ⟨depth, t, hr⟩ := resolve?_reached h
  exact hr.recorded

end Preprocess

end SqfIndex
