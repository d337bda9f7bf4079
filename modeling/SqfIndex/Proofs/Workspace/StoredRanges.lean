import SqfIndex.Proofs.Position.Covered
import SqfIndex.Proofs.Preprocess.Sources
import SqfIndex.Proofs.Script.Mentions
import SqfIndex.Proofs.Symbol.Reordering
import SqfIndex.Proofs.Workspace.Shown

/-!
# Ranges in the tables and the texts they belong to

A range that is stored for a document stands for an identifier of the code that the document's last text was
turned into. If the text itself has this identifier, the range covers it there: `stored_range_covers_own_word`.
Nothing of the kind holds of the other identifiers that come out of an invocation or out of an included file,
since their ends are looked up one by one, in whichever files they lead to: `borrowed_words_are_not_covered`.
-/

namespace SqfIndex

open Preprocess (preprocess Written Invoked Included OwnWord)

/-! ## From reports to words -/

namespace Analysis

variable {settings : Settings} {read : Reader} {uri : Uri} {text : List Char}

theorem mem_places_placeVariable {s : Subject} {frame : Frame} {m : Mapper} {v : Variable Span} {k : Mention}
    {range : Range} (h : range ∈ (s.placeVariable frame m v).places k) :
    ∃ span ∈ v.places k, (frame.placeSpan m span).2 = range ∧
      (k = .usage → (frame.placeSpan m span).1.same s.base = true) := by
  cases k with
  | definition =>
      obtain ⟨span, hspan, rfl⟩ := List.mem_map.mp h
      exact ⟨span, hspan, rfl, by simp⟩
  | usage =>
      obtain ⟨span, hspan, hrange⟩ := List.mem_filterMap.mp h
      simp only at hrange
      split at hrange
      · next hsame =>
        cases hrange
        exact ⟨span, hspan, rfl, fun _ => hsame⟩
      · cases hrange

/-- The variables of a report are those of the script, placed by a mapper that began with the document. -/
theorem exists_variable_of_mem_vars {v : Variable Range} (h : v ∈ (analyze Frontend.script settings read uri text).vars) :
    let pre := preprocess (Include.resolver settings.includePrefixes read) uri.toPath text
    ∃ tokens v' paths, Script.lex pre.code = .ok tokens ∧ v' ∈ Script.variablesOf (Script.significant tokens) tokens ∧
      v = Subject.placeVariable ⟨uri, uri.toPath⟩ { map := pre.map, base := uri.toPath }
        ((Mapper.preload {} uri.toPath text).loadAll read paths) v' := by
  intro pre
  have hreport : analyze Frontend.script settings read uri text =
      report ⟨uri, uri.toPath⟩ read (Mapper.preload {} uri.toPath text) pre (Frontend.script.examine pre.code) := rfl
  rw [hreport] at h
  cases hlex : Script.lex pre.code with
  | error e =>
      have hexamine : Frontend.script.examine pre.code = .error e := by
        simp [Frontend.examine, Frontend.script, hlex, bind, Except.bind]
      rw [hexamine] at h
      cases h
  | ok tokens =>
      let found := Script.bracketFindings (Script.significant tokens) ++ Script.undefinedLocals (Script.significant tokens)
      let vars := Script.variablesOf (Script.significant tokens) tokens
      have hexamine : Frontend.script.examine pre.code = .ok (found, vars) := by
        simp only [Frontend.examine, Frontend.script, hlex, bind, Except.bind]
        rfl
      rw [hexamine] at h
      obtain ⟨v', hv', rfl⟩ := List.mem_map.mp h
      -- the mapper has loaded the files of the macros and then those of all places
      refine ⟨tokens, v', pre.macros.map (·.file) ++
        filesOf { map := pre.map, base := uri.toPath } (pre.errors ++ found) vars, rfl, hv', ?_⟩
      exact congrArg (fun m => Subject.placeVariable _ _ m v') List.foldl_append.symm

section

variable {map : SourceMap} {file f : Path} {o : Nat} {span : Span}

theorem file_placeSpan (h : map.resolve? span.start = some (f, o)) (m : Mapper) :
    (Frame.placeSpan { map, base := file } m span).1 = f := by
  simp only [Frame.placeSpan, Frame.place, Frame.target, h, Option.getD_some]

theorem start_placeSpan (h : map.resolve? span.start = some (f, o)) (hsame : f.same file = true) (text : List Char)
    (read : Reader) (paths : List Path) :
    (Frame.placeSpan { map, base := file } ((Mapper.preload {} file text).loadAll read paths) span).2.start =
      (LineIndex.ofText text).position o := by
  simp only [Frame.placeSpan, Frame.place, Frame.target, h, Option.getD_some]
  exact Mapper.position_document hsame text read paths o

theorem stop_placeSpan (h : map.resolve? span.stop = some (f, o)) (hsame : f.same file = true) (text : List Char)
    (read : Reader) (paths : List Path) :
    (Frame.placeSpan { map, base := file } ((Mapper.preload {} file text).loadAll read paths) span).2.stop =
      (LineIndex.ofText text).position o := by
  simp only [Frame.placeSpan, Frame.place, Frame.target, h, Option.getD_some]
  exact Mapper.position_document hsame text read paths o

/-- A span both ends of which lie in the document has the range of its text there. -/
theorem placeSpan_in_document {front part back : List Char}
    (hstart : SameAnswer (map.resolve? span.start) (some (file, Text.width front)))
    (hstop : SameAnswer (map.resolve? span.stop) (some (file, Text.width front + Text.width part))) (read : Reader)
    (paths : List Path) :
    (Frame.placeSpan { map, base := file } ((Mapper.preload {} file (front ++ part ++ back)).loadAll read paths) span).2 =
      ⟨Position.after front, Position.after (front ++ part)⟩ := by
  obtain ⟨g, hg, hsame⟩ := hstart.exists_some
  obtain ⟨g', hg', hsame'⟩ := hstop.exists_some
  have hfirst := start_placeSpan hg hsame (front ++ part ++ back) read paths
  have hlast := stop_placeSpan hg' hsame' (front ++ part ++ back) read paths
  rw [List.append_assoc, LineIndex.position_between front (part ++ back), ← List.append_assoc] at hfirst
  rw [← Text.width_append, LineIndex.position_between (front ++ part) back] at hlast
  rw [← hfirst, ← hlast]

end

/-- The word behind a range of a variable that is not local. -/
theorem word_of_place {v : Variable Range} (h : v ∈ (analyze Frontend.script settings read uri text).vars) :
    let pre := preprocess (Include.resolver settings.includePrefixes read) uri.toPath text
    Script.isIdentifier v.name.toList = true ∧
    (Name.isLocal v.name = false → ∀ k, ∀ range ∈ v.places k,
      ∃ tokens t paths, Script.lex pre.code = .ok tokens ∧ t ∈ tokens ∧ t.kind = .identifier ∧
        Text.lowered (String.ofList t.text) = Text.lowered v.name ∧
        let placed := Frame.placeSpan { map := pre.map, base := uri.toPath }
          ((Mapper.preload {} uri.toPath text).loadAll read paths) t.span
        placed.2 = range ∧ (k = .usage → placed.1.same uri.toPath = true)) := by
  intro pre
  obtain ⟨tokens, v', paths, hlex, hv', rfl⟩ := exists_variable_of_mem_vars h
  obtain ⟨hname, hplaces⟩ := Script.identifier_of_place hlex hv'
  refine ⟨hname, ?_⟩
  intro hlocal k range hrange
  obtain ⟨span, hspan, hplaced, husage⟩ := mem_places_placeVariable hrange
  obtain ⟨t, ht, hkind, rfl, hlowered⟩ := hplaces hlocal k span hspan
  exact ⟨tokens, t, paths, hlex, ht, hkind, hlowered, hplaced, husage⟩

end Analysis

/-! ## The tables after a run -/

namespace Tables

theorem mem_gathered {vs : List (Variable Range)} {m : Mention} {key : String} {range : Range} :
    range ∈ gathered vs m key ↔ ∃ v ∈ vs, Text.lowered v.name = key ∧ range ∈ v.places m := by
  simp [gathered, and_assoc]

/-- A global goes by the name under which some call mentioned it. -/
theorem exists_call_of_name (calls : List Call) {key : String} {g : Global}
    (h : (Store.after calls).tables.globals[key]? = some g) : ∃ c ∈ calls, ∃ v ∈ c.tracked, v.name = g.name := by
  induction calls using List.reverseRecOn generalizing g with
  | nil => simp [Store.after] at h
  | append_singleton calls c ih =>
      rw [Store.after_append, getElem?_globals_apply, Option.filter_eq_some_iff, Option.map_eq_some_iff] at h
      obtain ⟨⟨old, hold, rfl⟩, -⟩ := h
      rw [Global.name_renew]
      rcases Option.or_eq_some_iff.mp hold with hold | ⟨-, hfresh⟩
      · obtain ⟨c', hc', hname⟩ := ih hold
        exact ⟨c', List.mem_append_left _ hc', hname⟩
      · obtain ⟨v, hv, rfl⟩ := Option.map_eq_some_iff.mp hfresh
        exact ⟨c, by simp, v, (List.mem_filter.mp (List.mem_of_head? hv)).1, rfl⟩

end Tables

/-- What an action says to the store. -/
def Action.call (s : Surroundings) (settings : Settings) : Action → Call
  | analyze uri text => .reconcile settings s.owns uri (Analysis.analyze Frontend.script settings s.read uri text)
  | remove uri => .remove settings uri

theorem Action.uri_call (s : Surroundings) (settings : Settings) (a : Action) : (a.call s settings).uri = a.uri := by
  cases a <;> rfl

theorem Action.tracked_call {s : Surroundings} {settings : Settings} {a : Action} {v : Variable Range}
    (h : v ∈ (a.call s settings).tracked) :
    ∃ uri text, v ∈ (Analysis.analyze Frontend.script settings s.read uri text).vars := by
  cases a with
  | analyze uri text => exact ⟨uri, text, (List.mem_filter.mp h).1⟩
  | remove uri => cases h

namespace Workspace

theorem store_run (s : Surroundings) (w : Workspace) (actions : List Action) :
    (run s w actions).1.store = w.store.run (actions.map (Action.call s w.settings)) := by
  induction actions using List.reverseRecOn with
  | nil => rfl
  | append_singleton actions a ih =>
      have hsettings := @settings_run s w actions
      rw [run_append, List.map_append, Store.run_append, ← ih, ← hsettings]
      cases a <;> rfl

theorem store_of_run (s : Surroundings) (settings : Settings) (actions : List Action) :
    (run s (.ofSettings settings) actions).1.store = Store.after (actions.map (Action.call s settings)) :=
  store_run s (.ofSettings settings) actions

end Workspace

theorem latest_of_last (before : List Call) {after : List Call} {c : Call} {u : Uri} (hc : c.uri = u)
    (h : ∀ c' ∈ after, c'.uri ≠ u) : latest (before ++ c :: after) u = c.account? := by
  induction after using List.reverseRecOn with
  | nil => rw [latest_append, if_pos hc]
  | append_singleton after c' ih =>
      rw [← List.cons_append, ← List.append_assoc, latest_append, if_neg (h c' (by simp))]
      exact ih fun d hd => h d (by simp [hd])

/-! ## Stored ranges -/

section

variable {s : Surroundings} {settings : Settings} {key : String} {g : Global} {u : Uri} {text : List Char}

/-- The names of globals are identifiers, and they go with their keys. -/
theorem name_of_run {actions : List Action}
    (h : (Workspace.run s (.ofSettings settings) actions).1.store.tables.globals[key]? = some g) :
    Script.isIdentifier g.name.toList = true ∧ Text.lowered g.name = key := by
  rw [Workspace.store_of_run] at h
  obtain ⟨c, hc, v, hv, hname⟩ := Tables.exists_call_of_name _ h
  obtain ⟨a, -, rfl⟩ := List.mem_map.mp hc
  obtain ⟨uri, text, hv⟩ := Action.tracked_call hv
  rw [← hname]
  exact ⟨(Analysis.word_of_place hv).1, hname ▸ Tables.named_after _ key g h⟩

/-- What is stored for a document comes from its last analysis. -/
theorem exists_variable_of_stored {before after : List Action} (hlast : ∀ a ∈ after, a.uri ≠ u)
    (hg : (Workspace.run s (.ofSettings settings) (before ++ .analyze u text :: after)).1.store.tables.globals[key]? = some g)
    {m : Mention} {ranges : List Range} (hranges : (g.places m)[u]? = some ranges) {range : Range} (hrange : range ∈ ranges) :
    ∃ v ∈ (Analysis.analyze Frontend.script settings s.read u text).vars,
      Name.isLocal v.name = false ∧ Text.lowered v.name = key ∧ range ∈ v.places m := by
  rw [Workspace.store_of_run, List.map_append, List.map_cons] at hg
  have huri : (Action.call s settings (.analyze u text)).uri = u := rfl
  have hcalls : ∀ c ∈ after.map (Action.call s settings), c.uri ≠ u := by
    simpa [Action.uri_call] using hlast
  have hstored : range ∈ Tables.entry (g.places m) u := by
    rw [Tables.entry, hranges]
    exact hrange
  rw [← Tables.placesIn_of_getElem? hg, (Tables.reflects_after _).places, latest_of_last _ huri hcalls] at hstored
  obtain ⟨v, hv, hkey, hplace⟩ := Tables.mem_gathered.mp hstored
  obtain ⟨hv, htracked⟩ := List.mem_filter.mp hv
  simp only [Tables.isTracked, Bool.and_eq_true, Bool.not_eq_true'] at htracked
  exact ⟨v, hv, htracked.1.1.1, hkey, hplace⟩

end

/-- After any actions, a range that is stored for a document under a global stands for an identifier of the code
that the text of its last analysis becomes, and this is the name of the global up to the case of ASCII letters.
The range covers the identifier in the text if the text itself has it. In any case the identifier begins in the
text, in what an invocation turned into or in an included file, and each end of the range that leads to the
document is the position of where it leads to; the start of a usage always does. -/
theorem stored_range_covers_own_word (s : Surroundings) (settings : Settings) (before after : List Action) (u : Uri)
    (text : List Char) (hlast : ∀ a ∈ after, a.uri ≠ u) (key : String) (g : Global)
    (hg : (Workspace.run s (.ofSettings settings) (before ++ .analyze u text :: after)).1.store.tables.globals[key]? = some g)
    (m : Mention) (ranges : List Range) (hranges : (g.places m)[u]? = some ranges) (range : Range) (hrange : range ∈ ranges) :
    let r := Include.resolver settings.includePrefixes s.read
    let pre := preprocess r u.toPath text
    ∃ tokens t, Script.lex pre.code = .ok tokens ∧ t ∈ tokens ∧ t.kind = .identifier ∧
      Text.sameIgnoringAsciiCase (String.ofList t.text) g.name = true ∧
      (OwnWord r u.toPath text t → range.start.le range.stop = true ∧ covered? text range = some t.text) ∧
      (Written r u.toPath text t.start ∨ Invoked r u.toPath text t.start ∨ Included r u.toPath text t.start) ∧
      (∃ f o, pre.map.resolve? t.start = some (f, o) ∧ (m = .usage → f.same u.toPath = true) ∧
        (f.same u.toPath = true → range.start = (LineIndex.ofText text).position o)) ∧
      ∀ f o, pre.map.resolve? t.stop = some (f, o) → f.same u.toPath = true →
        range.stop = (LineIndex.ofText text).position o := by
  intro r pre
  obtain ⟨hname, hkey⟩ := name_of_run hg
  obtain ⟨v, hv, hlocal, hvkey, hplace⟩ := exists_variable_of_stored hlast hg hranges hrange
  obtain ⟨-, hwords⟩ := Analysis.word_of_place hv
  obtain ⟨tokens, t, paths, hlex, ht, hkind, hlowered, rfl, husage⟩ := hwords hlocal m range hplace
  have hword : Script.isIdentifier (String.ofList t.text).toList = true := by
    obtain ⟨_, _, _, _, hword⟩ := Script.inText_of_mem_lex hlex ht
    rw [String.toList_ofList]
    exact (hword hkind).1
  refine ⟨tokens, t, hlex, ht, hkind, ?_, ?_, Preprocess.source_of_identifier hlex ht hkind, ?_, ?_⟩
  · exact Script.same_of_lowered_eq hword hname (by rw [hlowered, hvkey, hkey])
  · intro hown
    obtain ⟨front, back, rfl, hstart, hstop⟩ := hown.located hlex ht hkind
    refine and_iff_right_of_imp le_of_covered? |>.mpr ?_
    rw [covered?_eq_some_iff]
    exact ⟨front, back, rfl, Analysis.placeSpan_in_document hstart hstop s.read paths⟩
  · obtain ⟨f, o, hresolve⟩ := Preprocess.resolve?_identifier hlex ht hkind
    refine ⟨f, o, hresolve, ?_, ?_⟩
    · intro hm
      have hsame := husage hm
      rwa [Analysis.file_placeSpan hresolve] at hsame
    · intro hsame
      exact Analysis.start_placeSpan hresolve hsame text s.read paths
  · intro f o hresolve hsame
    exact Analysis.stop_placeSpan hresolve hsame text s.read paths

/-- The name of a global, and what is stored for a document under it. -/
def storedFor (s : Surroundings) (actions : List Action) (key : String) (m : Mention) (u : Uri) :
    Option (String × Option (List Range)) :=
  ((Workspace.run s (.ofSettings {}) actions).1.store.tables.globals[key]?).map fun g => (g.name, (g.places m)[u]?)

/-! ### A word in the body of a macro -/

def noFiles : Surroundings where
  read := MemoryFiles.read []

/-- The document writes the name in the body of a macro. -/
def getterText : List Char := "#define GET (TAG_x)\nGET".toList

def getterRun : List Action :=
  [.analyze "file:///a.sqf" "tag_X".toList, .analyze "file:///a.sqf" getterText, .remove "file:///b.sqf"]

def getterWord : Script.Token := ⟨.identifier, [], 21, "TAG_x".toList⟩

theorem getterWord_own : OwnWord (Include.resolver [] noFiles.read) (.ofText "/a.sqf") getterText getterWord := by
  refine Or.inr ⟨20, 20, "GET".toList, ⟨"GET".toList, none, "(TAG_x)".toList, .ofText "/a.sqf", 12, 7⟩, "(TAG_x)".toList, 0,
    "#define GET (TAG_x)\n".toList, ⟨"GET", none, "(TAG_x)", .ofText "/a.sqf", 8⟩, "(TAG_x)".toList, ?_, by decide, by decide,
    rfl, ?_, by decide +kernel, ?_, by decide, by decide, by decide⟩
  · exact ⟨[.directive "#define GET (TAG_x)\n".toList], "GET".toList, [], [], [], by decide +kernel, by decide +kernel,
      by decide +kernel⟩
  · exact ⟨[], [.code "GET".toList], by decide +kernel, rfl⟩
  · exact ⟨"#define GET ".toList, "\nGET".toList, by decide, by decide⟩

theorem eq_getterWord {tokens : List Script.Token} {t : Script.Token}
    (hlex : Script.lex (preprocess (Include.resolver [] noFiles.read) (.ofText "/a.sqf") getterText).code = .ok tokens)
    (ht : t ∈ tokens) (hkind : t.kind = .identifier) : t = getterWord := by
  have hall : ∀ t ∈ (Script.lex (preprocess (Include.resolver [] noFiles.read) (.ofText "/a.sqf") getterText).code).toOption.getD [],
      t.kind = .identifier → t = getterWord := by decide +kernel
  rw [hlex] at hall
  exact hall t ht hkind

theorem getterText_covered :
    storedFor noFiles getterRun "tag_x" .usage "file:///a.sqf" = some ("tag_X", some [⟨⟨0, 13⟩, ⟨0, 18⟩⟩]) ∧
      ∃ t, OwnWord (Include.resolver [] noFiles.read) (.ofText "/a.sqf") getterText t ∧
        Text.sameIgnoringAsciiCase (String.ofList t.text) "tag_X" = true ∧
        covered? getterText ⟨⟨0, 13⟩, ⟨0, 18⟩⟩ = some t.text := by
  have hstored : storedFor noFiles getterRun "tag_x" .usage "file:///a.sqf" = some ("tag_X", some [⟨⟨0, 13⟩, ⟨0, 18⟩⟩]) := by
    decide +kernel
  refine ⟨hstored, getterWord, getterWord_own, ?_⟩
  obtain ⟨g, hg, hplaces⟩ := Option.map_eq_some_iff.mp hstored
  obtain ⟨hname, hranges⟩ := Prod.mk.inj hplaces
  obtain ⟨tokens, t, hlex, ht, hkind, hsame, hown, -⟩ := stored_range_covers_own_word noFiles {}
    [.analyze "file:///a.sqf" "tag_X".toList] [.remove "file:///b.sqf"] "file:///a.sqf" getterText (by decide) "tag_x" g hg
    .usage _ hranges _ List.mem_cons_self
  -- the text has but one identifier
  rw [eq_getterWord hlex ht hkind] at hsame hown
  rw [hname] at hsame
  exact ⟨hsame, (hown getterWord_own).2⟩

/-! ### Words from elsewhere -/

/-- There is one file to include. It invokes a macro of the document, and it defines a name. -/
def lendingInclude : Surroundings where
  read := MemoryFiles.read [(.ofText "/b.hpp", "M; bar = 1".toList)]

/-- Names at the end of a body, in an argument, in a body of two lines, and in an included file. -/
def borrowingText : List Char :=
  "#define M foo\nM;\n#define F(x) (x)\nF(qux);\n#define G (\\\n baz)\nG;\n#include \"b.hpp\"".toList

/-- None of them is covered by what is stored for it: the end of a body leads to where the invocation ends,
possibly in another file, offsets of an expansion are counted in the body as it is written, and definitions in
an included file are stored as if they were in the document. -/
theorem borrowed_words_are_not_covered :
    let stored := storedFor lendingInclude [.analyze "file:///a.sqf" borrowingText]
    stored "foo" .usage "file:///a.sqf" = some ("foo", some [⟨⟨0, 10⟩, ⟨1, 1⟩⟩, ⟨⟨0, 10⟩, ⟨0, 1⟩⟩]) ∧
      stored "qux" .usage "file:///a.sqf" = some ("qux", some [⟨⟨2, 14⟩, ⟨2, 16⟩⟩]) ∧
      stored "baz" .usage "file:///a.sqf" = some ("baz", some [⟨⟨5, 0⟩, ⟨5, 3⟩⟩]) ∧
      stored "bar" .definition "file:///a.sqf" = some ("bar", some [⟨⟨0, 3⟩, ⟨0, 6⟩⟩]) ∧
      covered? borrowingText ⟨⟨0, 10⟩, ⟨1, 1⟩⟩ = some "foo\nM".toList ∧
      Position.le ⟨0, 10⟩ ⟨0, 1⟩ = false ∧
      covered? borrowingText ⟨⟨2, 14⟩, ⟨2, 16⟩⟩ = some "x)".toList ∧
      covered? borrowingText ⟨⟨5, 0⟩, ⟨5, 3⟩⟩ = some " ba".toList ∧
      covered? borrowingText ⟨⟨0, 3⟩, ⟨0, 6⟩⟩ = some "fin".toList := by
  decide +kernel

end SqfIndex
