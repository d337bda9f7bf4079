import SqfIndex.Proofs.Analysis.Grouping
import SqfIndex.Proofs.Preprocess.Trace
import SqfIndex.Proofs.Script.Mentions
import SqfIndex.Proofs.Symbol.Macros
import SqfIndex.Workspace.State

/-!
# Arguments of macros

A macro that a document defines again and again has all these definitions in the table once the document is
analyzed, in the order in which they were met. The table lets the latest occurrence of a macro decide on its
arguments, but an analysis makes one occurrence of all definitions of a document, and gives it the arguments of
the first: `signature_is_first_met`.
-/

namespace SqfIndex

/-! ## Keys of names -/

namespace Text

/-- Lower case of an ASCII character is one in lower case. -/
theorem toLower_of_ascii {c : Char} (h : c.toNat < 0x80) : c.toLower.toNat < 0x80 ∧ c.toLower.toLower = c.toLower := by
  have hall : ∀ n : Fin 0x80,
      (Char.ofNat n).toLower.toNat < 0x80 ∧ (Char.ofNat n).toLower.toLower = (Char.ofNat n).toLower := by
    decide
  simpa using hall ⟨c.toNat, h⟩

theorem lowered_lowered_of_ascii {s : String} (h : ∀ c ∈ s.toList, c.toNat < 0x80) : lowered (lowered s) = lowered s := by
  have hlower : ∀ c ∈ (asciiLower s).toList, c.toNat < 0x80 := by
    intro c hc
    rw [asciiLower, String.toList_ofList] at hc
    obtain ⟨d, hd, rfl⟩ := List.mem_map.mp hc
    exact (toLower_of_ascii (h d hd)).1
  rw [lowered_of_ascii h, lowered_of_ascii hlower, asciiLower, asciiLower, String.toList_ofList, List.map_map]
  exact congrArg String.ofList (List.map_congr_left fun c hc => (toLower_of_ascii (h c hc)).2)

end Text

theorem Script.isIdentifier_leadingWord {cs : List Char} (h : leadingWord cs ≠ []) : isIdentifier (leadingWord cs) = true := by
  cases cs with
  | nil => exact absurd rfl h
  | cons c rest =>
      rw [leadingWord] at h ⊢
      by_cases hstart : isWordStart c = true
      · simp [isIdentifier, hstart]
      · simp [hstart] at h

namespace Preprocess

variable {r : Resolver} {file : Path} {text : List Char}

theorem isIdentifier_of_readCommand {f : Path} {offset : Nat} {d : List Char} {m : Macro} {record : MacroRecord}
    (h : readCommand f offset d = .define m record) : Script.isIdentifier record.name.toList = true := by
  obtain ⟨args, h, -⟩ := readCommand_define h
  unfold readDefine at h
  simp only at h
  split at h
  · cases h
  · next hword =>
    cases h
    rw [String.toList_ofList]
    exact Script.isIdentifier_leadingWord hword

theorem recordOf?_directive {f : Path} {offset : Nat} {d : List Char} {nested : Bool} {record : MacroRecord}
    (h : recordOf? (.directive f offset d (effectOf r nested f offset d)) = some record) :
    ∃ m, readCommand f offset d = .define m record := by
  unfold recordOf? Piece.effect effectOf at h
  cases hcmd : readCommand f offset d with
  | define m record' =>
      simp only [hcmd, Option.some.injEq] at h
      exact ⟨m, h ▸ rfl⟩
  | nothing | undefine name => simp [hcmd] at h
  | fetch requested =>
      simp only [hcmd] at h
      cases hfetch : fetch r nested f requested <;> simp [hfetch] at h

theorem named_law (r : Resolver) (file : Path) (text : List Char) :
    PieceLaw r file text (fun _ => True) fun p =>
      ∀ record, recordOf? p = some record → Script.isIdentifier record.name.toList = true where
  code := by
    intro depth f t offset line ms _ _ _ p hp record hrecord
    obtain ⟨before, g, after, -, rfl⟩ := exists_fragment_of_mem_piecesOf hp
    cases g <;> cases hrecord
  directive := by
    intro depth f t offset d _ _ record hrecord
    obtain ⟨m, hcmd⟩ := recordOf?_directive hrecord
    exact isIdentifier_of_readCommand hcmd
  define := by simp
  leadIn := by simp [recordOf?, Piece.effect]
  leadOut := by simp [recordOf?, Piece.effect]

/-- The names of macros are identifiers. -/
theorem isIdentifier_of_mem_macros {record : MacroRecord} (h : record ∈ (preprocess r file text).macros) :
    Script.isIdentifier record.name.toList = true := by
  obtain ⟨p, hp, hrecord⟩ := List.mem_filterMap.mp h
  exact (named_law r file text).pieces p hp record hrecord

end Preprocess

/-! ## Tables after an analysis -/

namespace Tables

/-- A macro that the document of a call defines is in the table, with the arguments of its last occurrence there and
with the definitions of all of them. -/
theorem exists_macro_apply {c : Call} {key : String} {o : MacroOccurrence} (hlast : (c.macrosAt key).getLast? = some o)
    (hdefined : (c.macrosAt key).flatMap (·.definitions) ≠ []) (s : Store) :
    ∃ m, (c.apply s).tables.macros[key]? = some m ∧ m.arguments = o.arguments ∧
      entry m.definitions c.uri = (c.macrosAt key).flatMap (·.definitions) := by
  obtain ⟨old, hold⟩ : ∃ old, (s.tables.macros[key]?).or (GlobalMacro.fresh (c.macrosAt key)) = some old := by
    cases hos : c.macrosAt key with
    | nil => simp [hos] at hlast
    | cons o os => cases s.tables.macros[key]? <;> simp [GlobalMacro.fresh]
  have hentry : entry (old.renew c.uri (c.macrosAt key)).definitions c.uri = (c.macrosAt key).flatMap (·.definitions) := by
    rw [entry_renew, if_pos rfl]
  -- a macro with a definition stays, whatever the settings say about orphans
  have hkept : keeps c.settings (old.renew c.uri (c.macrosAt key)) = true := by
    have hisDefined := (GlobalMacro.isDefined_iff _).mpr ⟨c.uri, hentry ▸ hdefined⟩
    simp [keeps, hisDefined]
  refine ⟨old.renew c.uri (c.macrosAt key), ?_, ?_, hentry⟩
  · rw [getElem?_macros_apply, hold, Option.map_some, Option.filter_some, if_pos hkept]
  · rw [GlobalMacro.arguments_renew, hlast]
    rfl

end Tables

namespace Workspace

open Analysis (recordsAt occurrence? groupMacros filter_groupMacros placeMacro)
open Preprocess (MacroRecord preprocess)

variable {s : Surroundings} {w : Workspace} {u : Uri}

/-- What an analysis says to the store. -/
def analysisCall (s : Surroundings) (w : Workspace) (u : Uri) (text : List Char) : Call :=
  .reconcile w.settings s.owns u (Analysis.analyze Frontend.script w.settings s.read u text)

theorem macros_analyze (settings : Settings) (read : Reader) (u : Uri) (text : List Char) :
    let pre := preprocess (Include.resolver settings.includePrefixes read) u.toPath text
    (Analysis.analyze Frontend.script settings read u text).macros =
      groupMacros { map := pre.map, base := u.toPath }
        ((Mapper.preload {} u.toPath text).loadAll read (pre.macros.map (·.file))) pre.macros := by
  show (Analysis.report _ _ _ _ (Frontend.script.examine _)).macros = _
  cases Frontend.script.examine _ <;> rfl

/-- The definitions that an analysis of a document meets under a key, in the document and in the files it includes. -/
def definitionsMet (s : Surroundings) (w : Workspace) (u : Uri) (text : List Char) (key : String) : List MacroRecord :=
  recordsAt key (preprocess (Include.resolver w.settings.includePrefixes s.read) u.toPath text).macros

theorem lowered_of_mem_definitionsMet {text : List Char} {key : String} {r : MacroRecord}
    (h : r ∈ definitionsMet s w u text key) : Text.lowered key = key := by
  obtain ⟨hmem, hkey⟩ := List.mem_filter.mp h
  have hword := Preprocess.isIdentifier_of_mem_macros hmem
  have hkey : Text.lowered r.name = key := by simpa using hkey
  rw [← hkey]
  exact Text.lowered_lowered_of_ascii fun c hc => Script.toNat_lt_of_isWordChar (Script.isWordChar_of_mem hword hc)

/-- What an analysis says about a macro is one occurrence. -/
theorem macrosAt_analyze {text : List Char} {key : String} :
    ∃ frame mapper, (analysisCall s w u text).macrosAt key = (occurrence? frame mapper (definitionsMet s w u text key)).toList :=
  ⟨_, _, (congrArg (List.filter _) (macros_analyze ..)).trans (filter_groupMacros key _)⟩

/-- Let an analysis of a document meet definitions of a macro. After it the macro is found, and has these definitions in
the document, in the order in which they were met. Its arguments are those of the first of them. -/
theorem signature_is_first_met (s : Surroundings) (w : Workspace) (u : Uri) (text : List Char) (key : String)
    (first : MacroRecord) (others : List MacroRecord) (hmet : definitionsMet s w u text key = first :: others) :
    ∃ m, (w.analyze s u text).1.store.tables.findMacro? key = some m ∧ m.arguments = first.arguments ∧
      (Tables.entry m.definitions u).map (fun d => (d.value, d.file)) =
        (first :: others).map fun r => (r.value, r.file) := by
  obtain ⟨frame, mapper, hat⟩ := @macrosAt_analyze s w u text key
  rw [hmet] at hat
  obtain ⟨m, hfound, harguments, hentry⟩ := Tables.exists_macro_apply (by rw [hat]; rfl) (by simp [hat, occurrence?]) w.store
  refine ⟨m, ?_, harguments, ?_⟩
  · rw [Tables.findMacro?, lowered_of_mem_definitionsMet (hmet ▸ List.mem_cons_self)]
    exact hfound
  · rw [show Tables.entry m.definitions u = _ from hentry, hat, occurrence?, Option.toList_some, List.flatMap_singleton,
      List.map_map]
    rfl

/-- A file that defines a macro. -/
def header : Surroundings where
  read := MemoryFiles.read [(.ofText "/add.hpp", "#define ADD(a) a\n".toList)]

/-- The macro of the included file is taken back and defined with other arguments and capitals. -/
def redefinition : List Char := "#include \"add.hpp\"\n#undef ADD\n#define Add(a,b) b\n".toList

theorem redefinition_found :
    definitionsMet header (.ofSettings {}) "file:///a.sqf" redefinition "add" =
        [⟨"ADD", some "(a)", "a", .ofText "/add.hpp", 8⟩, ⟨"Add", some "(a, b)", "b", .ofText "/a.sqf", 38⟩] ∧
      ∃ m, ((Workspace.ofSettings {}).analyze header "file:///a.sqf" redefinition).1.store.tables.findMacro? "add" = some m ∧
        m.arguments = some "(a)" ∧ (Tables.entry m.definitions "file:///a.sqf").map (fun d => (d.value, d.file)) =
          [("a", .ofText "/add.hpp"), ("b", .ofText "/a.sqf")] := by
  have hmet : definitionsMet header (.ofSettings {}) "file:///a.sqf" redefinition "add" =
      [⟨"ADD", some "(a)", "a", .ofText "/add.hpp", 8⟩, ⟨"Add", some "(a, b)", "b", .ofText "/a.sqf", 38⟩] := by
    decide +kernel
  exact ⟨hmet, signature_is_first_met header _ _ redefinition "add" _ _ hmet⟩

/-- The last definition that is met has two arguments, the macro that is found has one. -/
theorem last_signature_not_kept :
    let text := "#define ADD(a) a\n#define ADD(a,b) b\n".toList
    (definitionsMet header (.ofSettings {}) "file:///a.sqf" text "add").getLast?.map (·.arguments) = some (some "(a, b)") ∧
      (((Workspace.ofSettings {}).analyze header "file:///a.sqf" text).1.store.tables.findMacro? "add").map (·.arguments) =
        some (some "(a)") := by
  decide +kernel

end Workspace

end SqfIndex
