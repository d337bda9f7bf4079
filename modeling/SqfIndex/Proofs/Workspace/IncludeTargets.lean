import SqfIndex.Proofs.Include.Enumeration
import SqfIndex.Proofs.Workspace.Shown

/-!
# Targets of includes

A workspace keeps the includes that the last analysis of a document followed, those of the document and those of the
files it includes in one row. The target of an include of the document is looked up among all of them, so that it
is that of the first include written alike, wherever that one stands: `include_target_is_first_alike`.
-/

namespace SqfIndex

namespace Preprocess

/-! ## Includes that are followed -/

/-- An include that is followed: where it stands, the path as written, and the file that it leads to. -/
structure Followed where
  file : Path
  offset : Nat
  requested : String
  path : Path
deriving DecidableEq, Repr

def Piece.followed? : Piece → Option Followed
  | .directive file offset _ (.included requested path) => some ⟨file, offset, requested, path⟩
  | _ => none

/-- The includes that are followed for a document, its own and those of included files, as they are met. -/
def followedFor (r : Resolver) (file : Path) (text : List Char) : List Followed :=
  (pieces r file text).filterMap Piece.followed?

variable {r : Resolver} {file : Path} {text : List Char}

theorem Piece.followed?_eq_some {p : Piece} {i : Followed} (h : p.followed? = some i) :
    ∃ d, p = .directive i.file i.offset d (.included i.requested i.path) := by
  cases p with
  | directive file offset d effect =>
      cases effect with
      | included requested path =>
          cases h
          exact ⟨d, rfl⟩
      | none | defined | undefined | refused => cases h
  | copied | expanded | separator => cases h

theorem includeOf?_eq (start : Nat) (p : Piece) :
    includeOf? start p = p.followed?.map fun i => ⟨i.requested, i.path, ⟨start, start + p.size⟩⟩ := by
  cases p with
  | directive file offset d effect => cases effect <;> rfl
  | copied | expanded | separator => rfl

theorem map_includeOf?_placed {α : Type} (f : String → Path → α) (start : Nat) (ps : List Piece) :
    ((placed start ps).filterMap fun (start, p) => includeOf? start p).map (fun i => f i.requested i.path) =
      (ps.filterMap Piece.followed?).map fun i => f i.requested i.path := by
  simp only [includeOf?_eq]
  induction ps generalizing start with
  | nil => rfl
  | cons p ps ih =>
      rw [placed, List.filterMap_cons, List.filterMap_cons]
      cases p.followed? with
      | none => exact ih _
      | some i => exact congrArg (_ :: ·) (ih _)

theorem resolve_of_fetch {nested : Bool} {requested t : List Char} {path : Path}
    (h : fetch r nested file requested = .ok (path, t)) : r.resolve (String.ofList requested) file = .ok path := by
  unfold fetch at h
  split at h
  · cases h
  · split at h
    · cases h
    · split at h
      · cases h
      · next hresolve =>
        split at h
        · cases h
        · cases h
          exact hresolve

theorem fetch_of_resolve {requested t : List Char} {path : Path} (hne : requested ≠ [])
    (hresolve : r.resolve (String.ofList requested) file = .ok path) (hload : r.load path = .ok t) :
    fetch r true file requested = .ok (path, t) := by
  simp [fetch, hne, hresolve, hload]

theorem followed_law (r : Resolver) (file : Path) (text : List Char) :
    PieceLaw r file text (fun _ => True) fun p => ∀ i, p.followed? = some i → r.resolve i.requested i.file = .ok i.path where
  code := by
    intro depth f t offset line ms _ _ _ p hp i hi
    obtain ⟨before, g, after, -, rfl⟩ := exists_fragment_of_mem_piecesOf hp
    cases g <;> cases hi
  directive := by
    intro depth f t offset d _ _ i hi
    obtain ⟨d', hpiece⟩ := Piece.followed?_eq_some hi
    simp only [Piece.directive.injEq] at hpiece
    obtain ⟨rfl, rfl, rfl, heffect⟩ := hpiece
    unfold effectOf at heffect
    split at heffect
    · cases heffect
    · cases heffect
    · cases heffect
    · split at heffect
      · next hfetch =>
        simp only [Effect.included.injEq] at heffect
        rw [← heffect.1, ← heffect.2]
        exact resolve_of_fetch hfetch
      · cases heffect
  define := by simp
  leadIn := by simp [Piece.followed?]
  leadOut := by simp [Piece.followed?]

/-- What is followed was found from the file in which it is written. -/
theorem resolve_of_followed {i : Followed} (h : i ∈ followedFor r file text) : r.resolve i.requested i.file = .ok i.path := by
  obtain ⟨p, hp, hi⟩ := List.mem_filterMap.mp h
  exact (followed_law r file text).pieces p hp i hi

theorem own_followed {offset : Nat} {d requested t : List Char} {path : Path} (hc : HasChunk text offset (.directive d))
    (hcmd : readCommand file offset d = .fetch requested) (hfetch : fetch r true file requested = .ok (path, t)) :
    ⟨file, offset, String.ofList requested, path⟩ ∈ followedFor r file text := by
  obtain ⟨ms, hsub⟩ := @included_subset_work r (depthLimit - 1) file text offset d requested path t hc hcmd hfetch []
  exact List.mem_filterMap.mpr ⟨_, hsub List.mem_cons_self, rfl⟩

end Preprocess

namespace Workspace

open Preprocess (followedFor Followed HasChunk readCommand fetch_of_resolve own_followed)

variable {s : Surroundings} {w : Workspace} {u : Uri}

/-! ## Includes that are kept -/

theorem includes_analyze (settings : Settings) (read : Reader) (u : Uri) (text : List Char) :
    (Analysis.analyze Frontend.script settings read u text).includes =
      (followedFor (Include.resolver settings.includePrefixes read) u.toPath text).map fun i => ⟨u, i.requested, i.path⟩ := by
  have hincludes : (Analysis.analyze Frontend.script settings read u text).includes =
      (Preprocess.preprocess (Include.resolver settings.includePrefixes read) u.toPath text).includes.map
        fun i => ⟨u, i.requested, i.path⟩ := by
    show (Analysis.report _ _ _ _ (Frontend.script.examine _)).includes = _
    cases Frontend.script.examine _ <;> rfl
  rw [hincludes]
  exact Preprocess.map_includeOf?_placed (IncludeInfo.mk u) 0 _

theorem includesOf_perform_other {a : Action} (h : a.uri ≠ u) : (a.perform s w).1.includesOf u = w.includesOf u := by
  cases a with
  | analyze uri text => simp [Action.perform, Workspace.analyze, includesOf, Std.ExtTreeMap.getElem?_insert, show ¬ uri = u from h]
  | remove uri => simp [Action.perform, Workspace.remove, includesOf, Std.ExtTreeMap.getElem?_erase, show ¬ uri = u from h]

theorem includesOf_run {before after : List Action} {text : List Char} (hlast : ∀ a ∈ after, a.uri ≠ u) :
    (run s w (before ++ .analyze u text :: after)).1.includesOf u =
      (followedFor (Include.resolver w.settings.includePrefixes s.read) u.toPath text).map fun i => ⟨u, i.requested, i.path⟩ := by
  induction after using List.reverseRecOn with
  | nil =>
      rw [run_append, ← @settings_run s w before, ← includes_analyze]
      simp [Action.perform, Workspace.analyze, includesOf]
  | append_singleton after a ih =>
      rw [← List.cons_append, ← List.append_assoc, run_append, includesOf_perform_other (hlast a (by simp))]
      exact ih fun b hb => hlast b (by simp [hb])

/-! ## Targets -/

/-- Whether two include paths count as written alike: up to ASCII case, kind of slashes and blanks around them. -/
def alike (written written' : String) : Bool := Text.sameIgnoringAsciiCase (comparable written) (comparable written')

theorem alike_refl (written : String) : alike written written = true := by
  simp [alike, Text.sameIgnoringAsciiCase]

theorem includeTarget?_run {before after : List Action} {text : List Char} (hlast : ∀ a ∈ after, a.uri ≠ u) (written : String) :
    (run s w (before ++ .analyze u text :: after)).1.includeTarget? u written =
      ((followedFor (Include.resolver w.settings.includePrefixes s.read) u.toPath text).find?
        fun i => alike i.requested written).map (·.path) := by
  rw [includeTarget?, includesOf_run hlast, List.find?_map, Option.map_map]
  rfl

theorem requested_ne_nil {entries : List (String × String)} {read : Reader} {requested : List Char} {file path : Path}
    (h : (Include.resolver entries read).resolve (String.ofList requested) file = .ok path) : requested ≠ [] := by
  rintro rfl
  rw [Include.resolve_resolver, Include.resolve_eq, if_pos (by rfl)] at h
  cases h

/-- An own include that is followed is among the first that is written alike and those after it. -/
theorem exists_first_alike {r : Resolver} {file : Path} {text : List Char} {i : Followed} (hi : i ∈ followedFor r file text) :
    ∃ earlier first later, followedFor r file text = earlier ++ first :: later ∧
      (∀ j ∈ earlier, alike j.requested i.requested = false) ∧ alike first.requested i.requested = true ∧
      i ∈ first :: later ∧ r.resolve first.requested first.file = .ok first.path ∧
      (followedFor r file text).find? (fun j => alike j.requested i.requested) = some first := by
  cases hfind : (followedFor r file text).find? fun j => alike j.requested i.requested with
  | none => exact absurd (alike_refl _) (List.find?_eq_none.mp hfind _ hi)
  | some first =>
      obtain ⟨halike, earlier, later, hsplit, hearlier⟩ := List.find?_eq_some_iff_append.mp hfind
      have hnot : ∀ j ∈ earlier, alike j.requested i.requested = false := by
        intro j hj
        simpa using hearlier j hj
      refine ⟨earlier, first, later, hsplit, hnot, halike, ?_, ?_, rfl⟩
      · rw [hsplit, List.mem_append] at hi
        refine hi.resolve_left fun hmem => ?_
        exact absurd (hnot _ hmem) (by simp [alike_refl])
      · exact Preprocess.resolve_of_followed (List.mem_of_find?_eq_some hfind)

/-- Let the last action about a document be its analysis, and let a directive of its own text include a file that was
found and read. The target that is kept for this include is that of the first include written alike that was
followed: the directive itself, or one that was met before it, in the document or in an included file. That
include leads to where it leads from the file in which it is written. -/
theorem include_target_is_first_alike (s : Surroundings) (w : Workspace) (before after : List Action) (u : Uri)
    (text : List Char) (hlast : ∀ a ∈ after, a.uri ≠ u) :
    let r := Include.resolver w.settings.includePrefixes s.read
    let target := (run s w (before ++ .analyze u text :: after)).1.includeTarget? u
    ∀ offset d requested path t, HasChunk text offset (.directive d) → readCommand u.toPath offset d = .fetch requested →
      r.resolve (String.ofList requested) u.toPath = .ok path → r.load path = .ok t →
      ∃ earlier first later, followedFor r u.toPath text = earlier ++ first :: later ∧
        (∀ i ∈ earlier, alike i.requested (String.ofList requested) = false) ∧
        alike first.requested (String.ofList requested) = true ∧
        ⟨u.toPath, offset, String.ofList requested, path⟩ ∈ first :: later ∧
        r.resolve first.requested first.file = .ok first.path ∧ target (String.ofList requested) = some first.path := by
  intro r target offset d requested path t hc hcmd hresolve hload
  have hne : requested ≠ [] := requested_ne_nil hresolve
  obtain ⟨earlier, first, later, hsplit, hnot, halike, hown, hfirst, hfind⟩ :=
    exists_first_alike (own_followed hc hcmd (fetch_of_resolve hne hresolve hload))
  refine ⟨earlier, first, later, hsplit, hnot, halike, hown, hfirst, ?_⟩
  exact (includeTarget?_run hlast _).trans (congrArg (Option.map (·.path)) hfind)

/-- Files of one name in two directories, and one that includes its neighbour. -/
def namesakes : Surroundings where
  read := MemoryFiles.read [(.ofText "/sub/a.hpp", "#include \"b.hpp\"\n".toList), (.ofText "/sub/b.hpp", []), (.ofText "/b.hpp", [])]

theorem eq_ok_of_toOption {ε α : Type} {x : Except ε α} {a : α} (h : x.toOption = some a) : x = .ok a := by
  cases x with
  | error e => cases h
  | ok b => cases h; rfl

theorem namesakes_own_first :
    (∀ a ∈ [Action.remove "file:///v.sqf"], a.uri ≠ "file:///u.sqf") ∧
      (run namesakes (.ofSettings {}) [.analyze "file:///u.sqf" "#include \"b.hpp\"".toList, .remove "file:///v.sqf"]).1.includeTarget?
        "file:///u.sqf" "b.hpp" = some (.ofText "/b.hpp") := by
  have hlast : ∀ a ∈ [Action.remove "file:///v.sqf"], a.uri ≠ "file:///u.sqf" := by decide
  have hfollowed : followedFor (Include.resolver [] namesakes.read) (Uri.toPath "file:///u.sqf") "#include \"b.hpp\"".toList =
      [⟨.ofText "/u.sqf", 0, "b.hpp", .ofText "/b.hpp"⟩] := by
    decide +kernel
  obtain ⟨earlier, first, later, hsplit, -, -, -, -, htarget⟩ :=
    include_target_is_first_alike namesakes (.ofSettings {}) [] _ "file:///u.sqf" "#include \"b.hpp\"".toList hlast
      0 "#include \"b.hpp\"".toList "b.hpp".toList (.ofText "/b.hpp") [] ⟨[], [], by decide +kernel, rfl⟩ (by decide +kernel)
      (eq_ok_of_toOption (by decide +kernel)) (eq_ok_of_toOption (by decide +kernel))
  have hfirst : first ∈ [Followed.mk (.ofText "/u.sqf") 0 "b.hpp" (.ofText "/b.hpp")] := by
    rw [← hfollowed]
    exact hsplit ▸ List.mem_append_right _ List.mem_cons_self
  rw [List.mem_singleton.mp hfirst] at htarget
  exact ⟨hlast, htarget⟩

/-- The document's own include leads to `/b.hpp`, but an include of that name in another directory was met before it. -/
theorem namesake_of_nested_include_shown :
    let r := Include.resolver [] namesakes.read
    let text := "#include \"sub/a.hpp\"\n#include \"b.hpp\"\n".toList
    HasChunk text 21 (.directive "#include \"b.hpp\"\n".toList) ∧
      readCommand (Uri.toPath "file:///u.sqf") 21 "#include \"b.hpp\"\n".toList = .fetch "b.hpp".toList ∧
      (r.resolve "b.hpp" (Uri.toPath "file:///u.sqf")).toOption = some (.ofText "/b.hpp") ∧
      (r.load (.ofText "/b.hpp")).toOption = some [] ∧
      (run namesakes (.ofSettings {}) [.analyze "file:///u.sqf" text]).1.includeTarget? "file:///u.sqf" "b.hpp" =
        some (.ofText "/sub/b.hpp") := by
  refine ⟨⟨[.directive "#include \"sub/a.hpp\"\n".toList], [], ?_, ?_⟩, ?_, ?_, ?_, ?_⟩
  all_goals decide +kernel

end Workspace

end SqfIndex
