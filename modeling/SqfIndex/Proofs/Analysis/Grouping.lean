import Mathlib.Data.List.Induction
import SqfIndex.Analysis.Report

/-!
# Occurrences of macros

The definitions of one document are put together under their names in lower case. For each such name there is one
occurrence, which has the name and the arguments of the first definition, and all definitions in order:
`filter_groupMacros`.
-/

namespace SqfIndex.Analysis

open Preprocess (MacroRecord)

variable {frame : Frame} {m : Mapper}

/-- The definitions of a name that is given in lower case. -/
def recordsAt (key : String) (records : List MacroRecord) : List MacroRecord :=
  records.filter fun r => Text.lowered r.name = key

/-- The occurrence that the definitions of one name make. -/
def occurrence? (frame : Frame) (m : Mapper) : List MacroRecord → Option MacroOccurrence
  | [] => none
  | first :: others => some ⟨first.name, first.arguments, (first :: others).map (placeMacro frame m)⟩

/-- The occurrence with one more definition, or a new one. -/
def joinedBy (r : MacroRecord) (d : MacroDefinition) : Option MacroOccurrence → MacroOccurrence
  | none => ⟨r.name, r.arguments, [d]⟩
  | some o => { o with definitions := o.definitions ++ [d] }

theorem occurrence?_append (records : List MacroRecord) (r : MacroRecord) :
    occurrence? frame m (records ++ [r]) = some (joinedBy r (placeMacro frame m r) (occurrence? frame m records)) := by
  cases records with
  | nil => rfl
  | cons first others => simp [occurrence?, joinedBy]

/-! ## One more definition -/

section

variable {key : String} {r : MacroRecord} {d : MacroDefinition} {found : List (String × MacroOccurrence)}

theorem filter_addMacro_other {other : String} (h : other ≠ key) :
    (addMacro other r d found).filter (fun e => e.1 = key) = found.filter fun e => e.1 = key := by
  induction found with
  | nil => simp [addMacro, h]
  | cons e rest ih =>
      obtain ⟨k, o⟩ := e
      rw [addMacro]
      split
      · next hk =>
        subst hk
        simp [h]
      · rw [List.filter_cons, List.filter_cons, ih]

theorem filter_addMacro_same {old : Option MacroOccurrence} (h : found.filter (fun e => e.1 = key) = old.toList.map (key, ·)) :
    (addMacro key r d found).filter (fun e => e.1 = key) = [(key, joinedBy r d old)] := by
  induction found with
  | nil =>
      cases old with
      | none => simp [addMacro, joinedBy]
      | some o => cases h
  | cons e rest ih =>
      obtain ⟨k, o⟩ := e
      rw [addMacro]
      split
      · next hk =>
        subst hk
        cases old with
        | none => simp at h
        | some o' =>
            simp only [List.filter_cons, decide_true, if_true, Option.toList_some, List.map_cons, List.map_nil,
              List.cons.injEq, Prod.mk.injEq, true_and] at h
            simp [joinedBy, h.1, h.2]
      · next hk =>
        simp only [List.filter_cons, hk, decide_false, Bool.false_eq_true, if_false] at h ⊢
        exact ih h

theorem lowered_name_addMacro (h : ∀ e ∈ found, Text.lowered e.2.name = e.1) :
    ∀ e ∈ addMacro (Text.lowered r.name) r d found, Text.lowered e.2.name = e.1 := by
  induction found with
  | nil => simp [addMacro]
  | cons e rest ih =>
      obtain ⟨k, o⟩ := e
      obtain ⟨ho, hrest⟩ := List.forall_mem_cons.mp h
      rw [addMacro]
      split
      · exact List.forall_mem_cons.mpr ⟨ho, hrest⟩
      · exact List.forall_mem_cons.mpr ⟨ho, ih hrest⟩

end

/-! ## All definitions -/

/-- The occurrences under their keys. -/
def grouped (frame : Frame) (m : Mapper) (records : List MacroRecord) : List (String × MacroOccurrence) :=
  records.foldl (fun found r => addMacro (Text.lowered r.name) r (placeMacro frame m r) found) []

theorem grouped_append (records : List MacroRecord) (r : MacroRecord) :
    grouped frame m (records ++ [r]) = addMacro (Text.lowered r.name) r (placeMacro frame m r) (grouped frame m records) := by
  simp [grouped]

theorem lowered_name_grouped (records : List MacroRecord) :
    ∀ e ∈ grouped frame m records, Text.lowered e.2.name = e.1 := by
  induction records using List.reverseRecOn with
  | nil => simp [grouped]
  | append_singleton records r ih =>
      rw [grouped_append]
      exact lowered_name_addMacro ih

theorem filter_grouped (key : String) (records : List MacroRecord) :
    (grouped frame m records).filter (fun e => e.1 = key) =
      (occurrence? frame m (recordsAt key records)).toList.map (key, ·) := by
  -- from the end: the last definition is the last one that is added
  induction records using List.reverseRecOn with
  | nil => rfl
  | append_singleton records r ih =>
      rw [grouped_append, recordsAt, List.filter_append]
      by_cases h : Text.lowered r.name = key
      · subst h
        rw [filter_addMacro_same ih]
        simp [occurrence?_append, recordsAt]
      · rw [filter_addMacro_other h, ih]
        simp [h, recordsAt]

/-- A name has one occurrence, which is made of all its definitions. -/
theorem filter_groupMacros (key : String) (records : List MacroRecord) :
    (groupMacros frame m records).filter (fun o => Text.lowered o.name = key) =
      (occurrence? frame m (recordsAt key records)).toList := by
  have hkey : (grouped frame m records).filter (fun e => Text.lowered e.2.name = key) =
      (grouped frame m records).filter fun e => e.1 = key := by
    refine List.filter_congr ?_
    intro e he
    rw [lowered_name_grouped records e he]
  rw [show groupMacros frame m records = (grouped frame m records).map (·.2) from rfl, List.filter_map]
  simp only [Function.comp_def, hkey, filter_grouped, List.map_map, List.map_id']

end SqfIndex.Analysis
