import SqfIndex.Proofs.Analysis.IdentifierRanges
import SqfIndex.Proofs.Preprocess.LineFeeds
import SqfIndex.Proofs.Preprocess.Provenance
import SqfIndex.Proofs.Symbol.Warnings
import SqfIndex.Proofs.Workspace.Signatures

/-!
# Where macros are defined

The record of a macro tells where its name stands in the file that defines it. An analysis turns every record into
one definition, which has the range of that name, and puts the definitions together under their names in lower case,
in the order in which they were met: `macro_definitions_exact`.
-/

namespace SqfIndex

open Text (width units StandsAt)

/-! ## Ranges on one line -/

/-- Text without a line feed takes the position along its line. -/
theorem Position.after_append {front part : List Char} (h : '\n' ∉ part) :
    Position.after (front ++ part) = ⟨(Position.after front).line, (Position.after front).column + units part⟩ := by
  induction part using List.reverseRecOn with
  | nil => simp
  | append_singleton part c ih =>
      have hc : c ≠ '\n' := fun he => h (by simp [he])
      have hpart := ih fun hm => h (List.mem_append_left _ hm)
      simp only [Position.after, Position.mk.injEq] at hpart ⊢
      rw [← List.append_assoc, lastLine_append_char _ hc, Text.units_append, hpart.2, List.count_append, hpart.1]
      simp [hc, Nat.add_assoc]

/-! ## Names in their files -/

theorem Script.leadingWord_prefix (cs : List Char) : leadingWord cs <+: cs := by
  cases cs with
  | nil => exact List.prefix_refl _
  | cons c cs =>
      rw [leadingWord]
      split
      · exact (List.prefix_cons_inj c).mpr (List.takeWhile_prefix _)
      · exact List.nil_prefix

namespace Preprocess

variable {r : Resolver} {file : Path} {text : List Char}

/-- The name of a macro stands in its directive, and where the record says. -/
theorem name_of_readCommand {f : Path} {offset : Nat} {d : List Char} {m : Macro} {record : MacroRecord}
    (h : readCommand f offset d = .define m record) :
    record.file = f ∧ ∃ inner, StandsAt d inner record.name.toList ∧ record.offset = offset + inner := by
  obtain ⟨args, h, hargs⟩ := readCommand_define h
  unfold readDefine at h
  simp only at h
  split at h
  · cases h
  · cases h
    obtain ⟨before, hd⟩ := (List.dropWhile_suffix Text.isSpace).trans hargs
    obtain ⟨after, hafter⟩ := Script.leadingWord_prefix (Text.trimStart args)
    refine ⟨rfl, width before, ⟨before, after, ?_, rfl⟩, ?_⟩
    · rw [String.toList_ofList, List.append_assoc, hafter]
      exact hd.symm
    · have hwidth := congrArg width hd
      rw [Text.width_append] at hwidth
      simp only [Text.trimStart] at hwidth ⊢
      omega

theorem recorded_law (r : Resolver) (file : Path) (text : List Char) :
    PieceLaw r file text (fun _ => True) fun p => ∀ record, recordOf? p = some record →
      ∃ depth t, Reached r file text depth record.file t ∧ StandsAt t record.offset record.name.toList where
  code := by
    intro depth f t offset line ms _ _ _ p hp record hrecord
    obtain ⟨before, g, after, -, rfl⟩ := exists_fragment_of_mem_piecesOf hp
    cases g <;> cases hrecord
  directive := by
    intro depth f t offset d hr hchunk record hrecord
    obtain ⟨m, hcmd⟩ := recordOf?_directive hrecord
    obtain ⟨rfl, inner, hname, hoffset⟩ := name_of_readCommand hcmd
    exact ⟨depth, t, hr, hoffset ▸ hchunk.standsAt.trans hname⟩
  define := by simp
  leadIn := by simp [recordOf?, Piece.effect]
  leadOut := by simp [recordOf?, Piece.effect]

/-- The name of a macro stands in the text of its file, at the offset of its record. -/
theorem standsAt_of_mem_macros (h : Consistent r file text) {record : MacroRecord}
    (hmem : record ∈ (preprocess r file text).macros) :
    ∃ t, Processed r file text record.file t ∧ StandsAt t record.offset record.name.toList := by
  obtain ⟨p, hp, hrecord⟩ := List.mem_filterMap.mp hmem
  obtain ⟨depth, t, hr, hname⟩ := (recorded_law r file text).pieces p hp record hrecord
  exact ⟨t, ⟨⟨depth, hr⟩, hr.textOf h⟩, hname⟩

end Preprocess

/-! ## Definitions -/

namespace Analysis

open Preprocess (MacroRecord Consistent FixedTexts Processed preprocess)

section

variable {r : Resolver} {read : Reader} {file : Path} {text : List Char}

/-- A definition that is placed once its file is read has the range of the name in the text of the file. -/
theorem placeMacro_of_split (h : FixedTexts r read file text) {m : MacroRecord} {files : List Path} (hfile : m.file ∈ files)
    {front back : List Char} (hprocessed : Processed r file text m.file (front ++ m.name.toList ++ back))
    (hoffset : m.offset = width front) (map : SourceMap) :
    placeMacro { map, base := file } ((Mapper.preload {} file text).loadAll read files) m =
      ⟨⟨Position.after front, Position.after (front ++ m.name.toList)⟩, m.value, m.file⟩ := by
  have hfaithful := (Mapper.Faithful.preload h.readsFrom).loadAll h.readsFrom files
  have hkept := @Mapper.isSome_lines?_loadAll read (Mapper.preload {} file text) files m.file (Or.inl hfile)
  have hposition := hfaithful.position hkept (Path.same_refl m.file) hprocessed.2
  have hstart := LineIndex.position_between front (m.name.toList ++ back)
  have hstop := LineIndex.position_between (front ++ m.name.toList) back
  rw [← List.append_assoc] at hstart
  rw [Text.width_append] at hstop
  simp only [placeMacro, Frame.placeSpan, Frame.place, Frame.target, nameSpan, hoffset, hposition, hstart, hstop]

end

/-! ## Groups -/

section

variable {key : String} {r : MacroRecord} {d : MacroDefinition} {found : List (String × MacroOccurrence)}

theorem keys_addMacro_old (h : key ∈ found.map Prod.fst) : (addMacro key r d found).map Prod.fst = found.map Prod.fst := by
  induction found with
  | nil => cases h
  | cons e rest ih =>
      obtain ⟨k, o⟩ := e
      rw [addMacro]
      split
      · rfl
      · next hk =>
        have hrest : key ∈ rest.map Prod.fst := (List.mem_cons.mp h).resolve_left (Ne.symm hk)
        rw [List.map_cons, ih hrest, List.map_cons]

theorem keys_addMacro_new (h : key ∉ found.map Prod.fst) :
    (addMacro key r d found).map Prod.fst = found.map Prod.fst ++ [key] := by
  induction found with
  | nil => rfl
  | cons e rest ih =>
      obtain ⟨k, o⟩ := e
      rw [List.map_cons, List.mem_cons, not_or] at h
      rw [addMacro, if_neg (Ne.symm h.1), List.map_cons, ih h.2, List.map_cons, List.cons_append]

/-- One definition comes in, and none gets lost. -/
theorem definitions_addMacro_perm :
    ((addMacro key r d found).flatMap (·.2.definitions)).Perm (found.flatMap (·.2.definitions) ++ [d]) := by
  induction found with
  | nil => exact List.Perm.refl _
  | cons e rest ih =>
      obtain ⟨k, o⟩ := e
      rw [addMacro]
      split
      · simp only [List.flatMap_cons, List.append_assoc]
        exact List.perm_append_comm.append_left o.definitions
      · simp only [List.flatMap_cons, List.append_assoc]
        exact ih.append_left o.definitions

end

variable {frame : Frame} {m : Mapper}

/-- Groups stand in the order in which their names are first met. -/
theorem firstMet_grouped (records : List MacroRecord) :
    FirstMet (records.map fun r => Text.lowered r.name) ((grouped frame m records).map Prod.fst) := by
  induction records using List.reverseRecOn with
  | nil => exact ⟨by simp [grouped], by simp [grouped]⟩
  | append_singleton records r ih =>
      rw [grouped_append, List.map_append, List.map_singleton]
      by_cases hr : Text.lowered r.name ∈ (grouped frame m records).map Prod.fst
      · rw [keys_addMacro_old hr]
        exact ih.append_old ((ih.mem_iff _).mp hr)
      · rw [keys_addMacro_new hr]
        exact ih.append_new (mt (ih.mem_iff _).mpr hr)

theorem definitions_grouped_perm (records : List MacroRecord) :
    ((grouped frame m records).flatMap (·.2.definitions)).Perm (records.map (placeMacro frame m)) := by
  induction records using List.reverseRecOn with
  | nil => exact List.Perm.refl _
  | append_singleton records r ih =>
      rw [grouped_append, List.map_append, List.map_singleton]
      exact definitions_addMacro_perm.trans (ih.append_right _)

/-- An occurrence has the definitions of its name, in order, and no other. -/
theorem definitions_of_mem_groupMacros {records : List MacroRecord} {o : MacroOccurrence} (h : o ∈ groupMacros frame m records) :
    o.definitions = (recordsAt (Text.lowered o.name) records).map (placeMacro frame m) := by
  have hmem : o ∈ (groupMacros frame m records).filter fun o' => Text.lowered o'.name = Text.lowered o.name :=
    List.mem_filter.mpr ⟨h, by simp⟩
  rw [filter_groupMacros, Option.mem_toList] at hmem
  cases hat : recordsAt (Text.lowered o.name) records with
  | nil => rw [hat] at hmem; cases hmem
  | cons first others => rw [hat] at hmem; cases hmem; rfl

theorem keys_groupMacros (records : List MacroRecord) :
    (groupMacros frame m records).map (fun o => Text.lowered o.name) = (grouped frame m records).map Prod.fst := by
  rw [show groupMacros frame m records = (grouped frame m records).map (·.2) from rfl, List.map_map]
  exact List.map_congr_left (lowered_name_grouped records)

theorem definitions_groupMacros_perm (records : List MacroRecord) :
    ((groupMacros frame m records).flatMap (·.definitions)).Perm (records.map (placeMacro frame m)) := by
  rw [show groupMacros frame m records = (grouped frame m records).map (·.2) from rfl, List.flatMap_map]
  exact definitions_grouped_perm records

/-! ## All macros of a document -/

/-- Records become definitions: each has the range of its name in the text of its file, which lies on one line, and
the occurrences that are found put the definitions together under their names in lower case. -/
structure Places (r : Resolver) (file : Path) (text : List Char) (place : MacroRecord → MacroDefinition)
    (found : List MacroOccurrence) : Prop where
  at_name : ∀ m ∈ (preprocess r file text).macros, ∃ front back,
    Processed r file text m.file (front ++ m.name.toList ++ back) ∧ m.offset = width front ∧
      place m = ⟨⟨Position.after front, Position.after (front ++ m.name.toList)⟩, m.value, m.file⟩
  on_line : ∀ m ∈ (preprocess r file text).macros, (place m).position.stop =
    ⟨(place m).position.start.line, (place m).position.start.column + units m.name.toList⟩
  complete : (found.flatMap (·.definitions)).Perm ((preprocess r file text).macros.map place)
  ordered : FirstMet ((preprocess r file text).macros.map fun m => Text.lowered m.name) (found.map fun o => Text.lowered o.name)
  in_order : ∀ o ∈ found, o.definitions =
    ((preprocess r file text).macros.filter fun m => Text.lowered m.name = Text.lowered o.name).map place

/-- The record of a macro tells where its name stands in the text of its file. If every file has one text, an analysis
of the document turns each record into one definition, in this file and with the range of the name. Definitions are
put together under their names in lower case: the names come in the order in which they are first met, the
definitions of a name in the order in which they are met. -/
theorem macro_definitions_exact (settings : Settings) (read : Reader) (uri : Uri) (text : List Char)
    (h : FixedTexts (Include.resolver settings.includePrefixes read) read uri.toPath text) :
    (∀ r : Resolver, Consistent r uri.toPath text → ∀ m ∈ (preprocess r uri.toPath text).macros,
      ∃ t, Processed r uri.toPath text m.file t ∧ StandsAt t m.offset m.name.toList) ∧
    ∃ place, Places (Include.resolver settings.includePrefixes read) uri.toPath text place
      (analyze Frontend.script settings read uri text).macros := by
  refine ⟨fun r hr m hm => Preprocess.standsAt_of_mem_macros hr hm, ?_⟩
  rw [Workspace.macros_analyze settings read uri text]
  generalize hpre : preprocess (Include.resolver settings.includePrefixes read) uri.toPath text = pre
  have hat (m : MacroRecord) (hm : m ∈ pre.macros) : ∃ front back,
      Processed (Include.resolver settings.includePrefixes read) uri.toPath text m.file (front ++ m.name.toList ++ back) ∧
        m.offset = width front ∧
        placeMacro { map := pre.map, base := uri.toPath }
            ((Mapper.preload {} uri.toPath text).loadAll read (pre.macros.map (·.file))) m =
          ⟨⟨Position.after front, Position.after (front ++ m.name.toList)⟩, m.value, m.file⟩ := by
    obtain ⟨t, hprocessed, front, back, rfl, hoffset⟩ := Preprocess.standsAt_of_mem_macros h.document (hpre ▸ hm)
    exact ⟨front, back, hprocessed, hoffset, placeMacro_of_split h (List.mem_map_of_mem hm) hprocessed hoffset pre.map⟩
  refine ⟨placeMacro _ _, ⟨hpre ▸ hat, ?_, ?_, ?_, ?_⟩⟩
  · rw [hpre]
    intro m hm
    obtain ⟨front, back, -, -, hplace⟩ := hat m hm
    rw [hplace]
    exact Position.after_append (Script.notMem_lineFeed (Preprocess.isIdentifier_of_mem_macros (hpre ▸ hm)))
  · rw [hpre]
    exact definitions_groupMacros_perm pre.macros
  · rw [hpre, keys_groupMacros]
    exact firstMet_grouped pre.macros
  · rw [hpre]
    exact fun o ho => definitions_of_mem_groupMacros ho

/-- Texts in memory are fixed if that of the document is not among them. -/
theorem fixedTexts_of_memory {entries : List (String × String)} {files : MemoryFiles} {file : Path}
    (h : ∀ e ∈ files, e.1.same file = false) (text : List Char) :
    FixedTexts (Include.resolver entries files.read) files.read file text := by
  have hread {f : Path} {t : List Char} (hload : (Include.resolver entries files.read).load f = .ok t) :
      ∃ p, files.find? (fun e => e.1.same f) = some (p, t) := by
    simp only [Include.resolver, MemoryFiles.read] at hload
    cases hfind : files.find? fun e => e.1.same f with
    | none => simp [hfind, Except.mapError] at hload
    | some e =>
        simp only [hfind, Except.mapError, Except.ok.injEq] at hload
        exact ⟨e.1, by rw [← hload]⟩
  constructor
  · intro f t hsame hload
    obtain ⟨p, hfind⟩ := hread hload
    have hp : p.same f = true := @List.find?_some _ (fun e : Path × List Char => e.1.same f) _ _ hfind
    have hother := h _ (List.mem_of_find?_eq_some hfind)
    rw [Path.same_trans hp hsame] at hother
    cases hother
  · intro path f t hsame _ hload
    obtain ⟨p, hfind⟩ := hread hload
    have hfind' : files.find? (fun e => e.1.same path) = some (p, t) := by
      simpa only [Path.same, Path.same_iff.mp hsame] using hfind
    simp [MemoryFiles.read, hfind']

/-- A file that defines two macros, one of them on two lines. -/
def twoMacros : MemoryFiles := [(.ofText "/sub/m.hpp", "// é\n\t#  define  Max(a) \\\n a\n#define B\n".toList)]

/-- The document defines one of them again, with other capitals. -/
def oneAgain : List Char := "x #y\n # define\tmAX 1\n#include \"sub/m.hpp\"\n#define MAX 2".toList

theorem oneAgain_placed :
    (analyze Frontend.script {} twoMacros.read "file:///a.sqf" oneAgain).macros =
        [⟨"mAX", none, [⟨⟨⟨1, 10⟩, ⟨1, 13⟩⟩, "1", .ofText "/a.sqf"⟩, ⟨⟨⟨1, 12⟩, ⟨1, 15⟩⟩, "  a", .ofText "/sub/m.hpp"⟩,
            ⟨⟨⟨3, 8⟩, ⟨3, 11⟩⟩, "2", .ofText "/a.sqf"⟩]⟩,
          ⟨"B", none, [⟨⟨⟨3, 8⟩, ⟨3, 9⟩⟩, "", .ofText "/sub/m.hpp"⟩]⟩] ∧
      (∀ r : Resolver, Consistent r (.ofText "/a.sqf") oneAgain → ∀ m ∈ (preprocess r (.ofText "/a.sqf") oneAgain).macros,
        ∃ t, Processed r (.ofText "/a.sqf") oneAgain m.file t ∧ StandsAt t m.offset m.name.toList) ∧
      ∃ place, Places (Include.resolver [] twoMacros.read) (.ofText "/a.sqf") oneAgain place
        (analyze Frontend.script {} twoMacros.read "file:///a.sqf" oneAgain).macros :=
  ⟨by decide +kernel, macro_definitions_exact {} twoMacros.read "file:///a.sqf" oneAgain
    (fixedTexts_of_memory (by decide +kernel) oneAgain)⟩

end Analysis

end SqfIndex
