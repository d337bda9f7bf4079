import SqfIndex.Analysis.Report
import SqfIndex.Proofs.Preprocess.Includes

/-!
# Where diagnostics of a document can stand

An analysis places errors and warnings in the document itself and in files that it includes, directly or
through others, and nowhere else: `Analysis.placed_within_targets`.
-/

namespace SqfIndex

open Preprocess (preprocess Preprocessed)

/-- The addresses of the files that were included. -/
def Report.targets (r : Report) : List Uri := r.includes.filterMap fun i => Uri.ofPath? i.path

namespace Analysis

/-- A note about the document or about an included file. -/
def Within (r : Report) (uri : Uri) (p : Placed) : Prop := p.uri = uri ∨ p.uri ∈ r.targets

section

variable {s : Subject} {r : Resolver} {text : List Char}

/-- A file without an address is spoken of under that of the document. -/
theorem uriOf_target (offset : Nat) :
    let pre := preprocess r s.base text
    let file := (Frame.target { map := pre.map, base := s.base } offset).1
    s.uriOf file = s.document ∨ ∃ i ∈ pre.includes, Uri.ofPath? i.path = some (s.uriOf file) := by
  intro pre file
  by_cases hsame : file.same s.base = true
  · exact Or.inl (if_pos hsame)
  · have huri : s.uriOf file = (Uri.ofPath? file).getD s.document := if_neg hsame
    cases hresolve : pre.map.resolve? offset with
    | none => exact absurd (by simp [file, Frame.target, hresolve, Path.same_refl]) hsame
    | some place =>
        have hfile : file = place.1 := by simp [file, Frame.target, hresolve]
        rcases Preprocess.resolve?_recorded hresolve with hbase | ⟨i, hi, hpath⟩
        · exact absurd (by rw [hfile, hbase, Path.same_refl]) hsame
        · rw [huri]
          cases haddress : Uri.ofPath? file with
          | none => exact Or.inl rfl
          | some u => exact Or.inr ⟨i, hi, by rw [hpath, ← hfile, haddress]; rfl⟩

theorem targets_report (read : Reader) (m : Mapper) (pre : Preprocessed)
    (outcome : Except Failure (List Finding × List (Variable Span))) :
    (report s read m pre outcome).targets = pre.includes.filterMap fun i => Uri.ofPath? i.path := by
  have hincludes : (report s read m pre outcome).includes =
      pre.includes.map fun i => { document := s.document, requested := i.requested, path := i.path } := by
    cases outcome <;> rfl
  rw [Report.targets, hincludes, List.filterMap_map]
  rfl

theorem within_report (read : Reader) (m : Mapper) (outcome : Except Failure (List Finding × List (Variable Span))) :
    let found := report s read m (preprocess r s.base text) outcome
    ∀ p ∈ found.errors ++ found.warnings, Within found s.document p := by
  intro found
  have hwithin (offset : Nat) (d : Diagnostic) : Within found s.document
      ⟨s.uriOf (Frame.target { map := (preprocess r s.base text).map, base := s.base } offset).1, d⟩ := by
    rcases @uriOf_target s r text offset with h | ⟨i, hi, h⟩
    · exact Or.inl h
    · refine Or.inr ?_
      rw [targets_report]
      exact List.mem_filterMap.mpr ⟨i, hi, h⟩
  cases outcome with
  | error e =>
      intro p hp
      have hp : p ∈ found.errors := by simpa [found, report] using hp
      obtain ⟨message, offset⟩ := e
      cases offset with
      | none =>
          rw [List.mem_singleton.mp hp]
          exact Or.inl rfl
      | some offset =>
          rw [List.mem_singleton.mp hp]
          exact hwithin offset _
  | ok results =>
      intro p hp
      obtain ⟨findings, vars⟩ := results
      have hnote : ∃ f ∈ (preprocess r s.base text).errors ++ findings, ∃ m,
          s.placeFinding { map := (preprocess r s.base text).map, base := s.base } m f = p := by
        rcases List.mem_append.mp hp with hp | hp
        · obtain ⟨f, hf, heq⟩ := List.mem_map.mp (List.mem_filter.mp hp).1
          exact ⟨f, hf, _, heq⟩
        · obtain ⟨f, hf, heq⟩ := List.mem_map.mp (List.mem_filter.mp hp).1
          exact ⟨f, hf, _, heq⟩
      obtain ⟨f, -, m, rfl⟩ := hnote
      exact hwithin f.place.start _

end

theorem placed_within_targets (settings : Settings) (read : Reader) (uri : Uri) (text : List Char) :
    let r := analyze Frontend.script settings read uri text
    ∀ p ∈ r.errors ++ r.warnings, Within r uri p := by
  exact within_report (s := ⟨uri, uri.toPath⟩) read _ _

end Analysis

end SqfIndex
