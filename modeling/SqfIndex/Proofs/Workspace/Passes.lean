import SqfIndex.Proofs.Symbol.Reordering
import SqfIndex.Proofs.Uri.Distinct
import SqfIndex.Workspace.Indexing

/-!
# Two passes are enough

A pass makes one call to the store for each file that can be read, and the call is the same in every
pass. So the second pass warns about what is undefined when it is over, a third one changes nothing, and
the order of the files does not matter for the places: `two_passes_suffice`.
-/

namespace SqfIndex

namespace Surroundings

/-- What a file says to the store; nothing if it cannot be analyzed. -/
def callOf? (s : Surroundings) (settings : Settings) (path : Path) : Option Call :=
  match Uri.ofPath? path, s.read path with
  | some uri, .ok text =>
    some (.reconcile settings s.owns uri (Analysis.analyze Frontend.script settings s.read uri text))
  | _, _ => none

def callsOf (s : Surroundings) (settings : Settings) (files : List Path) : List Call :=
  files.filterMap (s.callOf? settings)

theorem callOf?_eq_some {s : Surroundings} {settings : Settings} {path : Path} {c : Call} (h : s.callOf? settings path = some c) :
    Uri.ofPath? path = some c.uri ∧ c.settings = settings := by
  unfold callOf? at h
  split at h
  · next huri _ => cases h; exact ⟨huri, rfl⟩
  · cases h

variable (s : Surroundings) (settings : Settings) {files : List Path}

theorem nodup_callsOf (hdistinct : files.Pairwise fun p q => ¬ p.same q) :
    ((s.callsOf settings files).map Call.uri).Nodup := by
  unfold callsOf
  rw [List.Nodup, List.pairwise_map, List.pairwise_filterMap]
  refine hdistinct.imp ?_
  intro p q hpq c hc c' hc' huri
  have hp := (callOf?_eq_some hc).1
  have hq := (callOf?_eq_some hc').1
  rw [← huri] at hq
  exact hpq (Uri.ofPath?_inj hp hq)

theorem evict_callsOf (files : List Path) :
    ∀ c ∈ s.callsOf settings files, c.settings.evictOrphanMacros = settings.evictOrphanMacros := by
  intro c hc
  obtain ⟨path, -, hpath⟩ := List.mem_filterMap.mp hc
  rw [(callOf?_eq_some hpath).2]

end Surroundings

namespace Workspace

/-! ## The calls of a pass -/

variable (s : Surroundings) (total interval : Nat) (second twice : Bool)

theorem analyzeFile_effect (path : Path) (w : Workspace) :
    (w.analyzeFile s path).1.1.settings = w.settings ∧
      (w.analyzeFile s path).1.1.store = w.store.run (s.callOf? w.settings path).toList := by
  unfold analyzeFile Surroundings.callOf?
  cases Uri.ofPath? path with
  | none => exact ⟨rfl, rfl⟩
  | some uri => cases s.read path <;> exact ⟨rfl, rfl⟩

theorem visitFrom_effect (i : Nat) (files : List Path) (run : Progress) :
    (visitFrom s total interval second twice i files run).workspace.settings = run.workspace.settings ∧
      (visitFrom s total interval second twice i files run).workspace.store =
        run.workspace.store.run (s.callsOf run.workspace.settings files) := by
  induction files generalizing i run with
  | nil => exact ⟨rfl, rfl⟩
  | cons path files ih =>
      obtain ⟨hsettings, hstore⟩ := ih (i + 1) (visit s total interval second twice run i path)
      obtain ⟨hone, hcall⟩ := analyzeFile_effect s path run.workspace
      have hsplit : s.callsOf run.workspace.settings (path :: files) =
          (s.callOf? run.workspace.settings path).toList ++ s.callsOf run.workspace.settings files := by
        cases hpath : s.callOf? run.workspace.settings path <;> simp [Surroundings.callsOf, hpath]
      refine ⟨hsettings.trans hone, ?_⟩
      rw [hsplit, Store.run_append, ← hcall, ← hone]
      exact hstore

theorem pass_effect (files : List Path) (run : Progress) :
    (pass s files interval second twice run).workspace.settings = run.workspace.settings ∧
      (pass s files interval second twice run).workspace.store =
        run.workspace.store.run (s.callsOf run.workspace.settings files) :=
  visitFrom_effect s files.length interval second twice 0 files run

/-! ## The warnings of a pass -/

/-- The warnings about undefined globals that the analysis of a file gives. -/
def undefinedIn (w : Workspace) (path : Path) : List Diagnostic :=
  match Uri.ofPath? path, s.read path with
  | some uri, .ok text =>
    (w.store.reconcile w.settings s.owns uri (Analysis.analyze Frontend.script w.settings s.read uri text)).2
  | _, _ => []

/-- The warnings of the visits from place `i` on, file by file. -/
def undefinedFrom : Nat → List Path → Progress → List (Path × List Diagnostic)
  | _, [], _ => []
  | i, path :: paths, run =>
    (path, undefinedIn s run.workspace path) ::
      undefinedFrom (i + 1) paths (visit s total interval second twice run i path)

def undefinedInPass (files : List Path) (run : Progress) : List (Path × List Diagnostic) :=
  undefinedFrom s files.length interval second twice 0 files run

/-- The warnings about a file that can be read off some tables. -/
def undefinedBy (settings : Settings) (t : Tables) (path : Path) : List Diagnostic :=
  match Uri.ofPath? path, s.read path with
  | some uri, .ok text =>
    t.undefined settings s.owns uri (Analysis.analyze Frontend.script settings s.read uri text)
  | _, _ => []

variable {s interval second twice}

theorem undefinedFrom_eq_map {files : List Path} {run : Progress} {f : Path → List Diagnostic} (i : Nat)
    (h : ∀ before path after, files = before ++ path :: after →
      undefinedIn s (visitFrom s total interval second twice i before run).workspace path = f path) :
    undefinedFrom s total interval second twice i files run = files.map fun path => (path, f path) := by
  induction files generalizing i run with
  | nil => rfl
  | cons path files ih =>
      -- nothing was visited before the first file; before a later one, the first was
      have hhead : undefinedIn s run.workspace path = f path := h [] path files rfl
      rw [undefinedFrom, hhead, List.map_cons, ih (i + 1)]
      intro before path' after hsplit
      exact h (path :: before) path' after (by rw [hsplit, List.cons_append])

section

variable {settings : Settings} {files : List Path} (hdistinct : files.Pairwise fun p q => ¬ p.same q) (store : Store)
include hdistinct

theorem undefinedIn_again {before after : List Path} {path : Path} (hsplit : files = before ++ path :: after) {w : Workspace}
    (hsettings : w.settings = settings)
    (hstore : w.store = (store.run (s.callsOf settings files)).run (s.callsOf settings before)) :
    undefinedIn s w path =
      undefinedBy s settings ((store.run (s.callsOf settings files)).run (s.callsOf settings files)).tables path := by
  subst hsettings
  unfold undefinedIn undefinedBy
  split
  · next uri text huri hread =>
    have hcalls : s.callsOf w.settings files = s.callsOf w.settings before ++
        .reconcile w.settings s.owns uri (Analysis.analyze Frontend.script w.settings s.read uri text) ::
          s.callsOf w.settings after := by
      simp [hsplit, Surroundings.callsOf, Surroundings.callOf?, huri, hread]
    rw [hstore]
    exact Store.warnings_of_second_run (s.nodup_callsOf w.settings hdistinct) (s.evict_callsOf w.settings files) store hcalls
  · rfl

/-- A pass that was made before gives the warnings that can be read off the tables at its end. -/
theorem undefinedInPass_again {run : Progress} (hsettings : run.workspace.settings = settings)
    (hstore : run.workspace.store = store.run (s.callsOf settings files)) :
    undefinedInPass s interval second twice files run = files.map fun path =>
      (path, undefinedBy s settings ((store.run (s.callsOf settings files)).run (s.callsOf settings files)).tables path) := by
  refine undefinedFrom_eq_map files.length 0 ?_
  intro before path after hsplit
  obtain ⟨hkept, hmet⟩ := visitFrom_effect s files.length interval second twice 0 before run
  rw [hsettings] at hkept hmet
  rw [hstore] at hmet
  exact undefinedIn_again hdistinct store hsplit hkept hmet

theorem placesIn_of_mem {path : Path} (hpath : path ∈ files) {uri : Uri} {text : List Char}
    (huri : Uri.ofPath? path = some uri) (hread : s.read path = .ok text) (m : Mention) (key : String) :
    Tables.placesIn (store.run (s.callsOf settings files)).tables.globals m key uri =
      Tables.gathered
        ((Analysis.analyze Frontend.script settings s.read uri text).vars.filter (Tables.isTracked s.owns)) m key := by
  have htold := Tables.told_run (s.nodup_callsOf settings hdistinct) (s.evict_callsOf settings files) store
  have hcall : s.callOf? settings path =
      some (.reconcile settings s.owns uri (Analysis.analyze Frontend.script settings s.read uri text)) := by
    simp [Surroundings.callOf?, huri, hread]
  exact htold.places _ (List.mem_filterMap.mpr ⟨path, hpath, hcall⟩) m key

open Classical in
theorem undefinedBy_exact {path : Path} (hpath : path ∈ files) {uri : Uri} {text : List Char}
    (huri : Uri.ofPath? path = some uri) (hread : s.read path = .ok text) :
    let t := (store.run (s.callsOf settings files)).tables
    let tracked := (Analysis.analyze Frontend.script settings s.read uri text).vars.filter (Tables.isTracked s.owns)
    ∃ ks, FirstMet (tracked.map fun v => Text.lowered v.name) ks ∧
      undefinedBy s settings t path = ks.flatMap fun key =>
        if Tables.Unexplained settings t key then
          (Tables.gathered tracked .usage key).map fun range =>
            ⟨.warning, "Possibly undefined variable " ++ t.nameOf key, range⟩
        else [] := by
  intro t tracked
  refine ⟨_, firstMet_eraseDups _, ?_⟩
  simp only [undefinedBy, huri, hread, Tables.undefined]
  congr 1
  funext key
  rw [Tables.undefinedAt_eq, placesIn_of_mem hdistinct store hpath huri hread]

theorem warned_places_perm {files' : List Path} (hperm : files.Perm files') (hempty : store.tables = {}) (path : Path) :
    (undefinedBy s settings ((store.run (s.callsOf settings files')).run (s.callsOf settings files')).tables path).map (·.place) =
      (undefinedBy s settings ((store.run (s.callsOf settings files)).run (s.callsOf settings files)).tables path).map (·.place) := by
  have hafter (calls : List Call) : ((store.run calls).run calls).tables = (Store.after (calls ++ calls)).tables := by
    rw [← Store.run_append]
    exact Store.tables_run_congr hempty (calls ++ calls)
  unfold undefinedBy
  split
  · rw [hafter, hafter]
    exact Store.warned_places_perm (s.nodup_callsOf settings hdistinct) (s.evict_callsOf settings files)
      (hperm.filterMap _) _ _ _ _
  · rfl

end

end Workspace

open Classical in
/-- Three passes over different files. In the second one the analysis of a file warns about the keys of its
tracked variables, in the order of their first mention: about a key exactly if the tables at the end of the
pass leave it unexplained, and then at every place at which the file uses it. The third pass gives the same
warnings and leaves the store as it is. If there was nothing in the tables at first, then the places do not
depend on the order of the files. -/
theorem two_passes_suffice (s : Surroundings) (files : List Path) (hdistinct : files.Pairwise fun p q => ¬ p.same q)
    (interval : Nat) (twice : Bool) (w : Workspace) :
    let first := Workspace.pass s files interval false twice { workspace := w }
    let second := Workspace.pass s files interval true twice first
    let third := Workspace.pass s files interval true twice second
    let warnings := Workspace.undefinedInPass s interval true twice
    let final := second.workspace.store.tables
    ((warnings files first).map (·.1) = files ∧
      ∀ path ds, (path, ds) ∈ warnings files first → ∀ uri text, Uri.ofPath? path = some uri → s.read path = .ok text →
        let tracked := (Analysis.analyze Frontend.script w.settings s.read uri text).vars.filter (Tables.isTracked s.owns)
        ∃ ks, FirstMet (tracked.map fun v => Text.lowered v.name) ks ∧
          ds = ks.flatMap fun key =>
            if Tables.Unexplained w.settings final key then
              (Tables.gathered tracked .usage key).map fun range =>
                ⟨.warning, "Possibly undefined variable " ++ final.nameOf key, range⟩
            else []) ∧
    (warnings files second = warnings files first ∧ third.workspace.store = second.workspace.store) ∧
    (w.store.tables.Named → final.Named) ∧
    (w.store.tables = {} → ∀ files', files.Perm files' →
      let first' := Workspace.pass s files' interval false twice { workspace := w }
      ∀ path ds ds', (path, ds) ∈ warnings files first → (path, ds') ∈ warnings files' first' →
        ds'.map (·.place) = ds.map (·.place)) := by
  intro first second third warnings final
  obtain ⟨hsettings, hfirst⟩ := Workspace.pass_effect s interval false twice files { workspace := w }
  obtain ⟨hsettings', hsecond⟩ := Workspace.pass_effect s interval true twice files first
  obtain ⟨-, hthird⟩ := Workspace.pass_effect s interval true twice files second
  rw [hsettings] at hsettings' hsecond
  rw [hsettings'] at hthird
  -- the second and the third pass both start from a store that has seen all files
  have hthis : warnings files first = _ := Workspace.undefinedInPass_again hdistinct w.store hsettings hfirst
  have hnext : warnings files second = _ := Workspace.undefinedInPass_again hdistinct first.workspace.store hsettings' hsecond
  have hend : final = ((w.store.run (s.callsOf w.settings files)).run (s.callsOf w.settings files)).tables := by
    rw [← hfirst, ← hsecond]
  have hsame : third.workspace.store = second.workspace.store := by
    rw [hthird, hsecond, hfirst]
    exact Store.run_third (s.nodup_callsOf w.settings hdistinct) (s.evict_callsOf w.settings files) w.store
  refine ⟨⟨?_, ?_⟩, ⟨?_, hsame⟩, ?_, ?_⟩
  · simp [hthis, Function.comp_def]
  · intro path ds hds uri text huri hread
    rw [hthis] at hds
    obtain ⟨path', hpath, heq⟩ := List.mem_map.mp hds
    obtain ⟨rfl, rfl⟩ := Prod.mk.inj heq
    rw [hend]
    exact Workspace.undefinedBy_exact hdistinct _ hpath huri hread
  · rw [hnext, hthis, ← hend, ← hsecond, ← hthird, hsame]
  · intro hnamed
    rw [hend]
    exact (hnamed.run _).run _
  · intro hempty files' hperm first' path ds ds' hds hds'
    have hdistinct' := (hperm.pairwise_iff fun hne => mt Path.same_symm hne).mp hdistinct
    obtain ⟨hsettings'', hfirst'⟩ := Workspace.pass_effect s interval false twice files' { workspace := w }
    have hother : warnings files' first' = _ := Workspace.undefinedInPass_again hdistinct' w.store hsettings'' hfirst'
    rw [hthis] at hds
    rw [hother] at hds'
    obtain ⟨p, -, heq⟩ := List.mem_map.mp hds
    obtain ⟨p', -, heq'⟩ := List.mem_map.mp hds'
    obtain ⟨rfl, rfl⟩ := Prod.mk.inj heq
    obtain ⟨rfl, rfl⟩ := Prod.mk.inj heq'
    exact Workspace.warned_places_perm hdistinct w.store hperm hempty p'

/-- A file that uses one name of a later file, and one that no file defines. -/
def forwardReference : Surroundings where
  read := MemoryFiles.read
    [(.ofText "/a.sqf", "LATE; NEVER".toList), (.ofText "/b.sqf", "LATE = 1".toList)]

theorem forwardReference_passes :
    let files := [Path.ofText "/a.sqf", .ofText "/b.sqf"]
    let first := Workspace.pass forwardReference files 10 false true { workspace := .ofSettings {} }
    let second := Workspace.pass forwardReference files 10 true true first
    let third := Workspace.pass forwardReference files 10 true true second
    files.Pairwise (fun p q => ¬ p.same q) ∧
      (Workspace.undefinedInPass forwardReference 10 false true files { workspace := .ofSettings {} }).map
          (fun warned => warned.2.map (·.place)) = [[⟨⟨0, 0⟩, ⟨0, 4⟩⟩, ⟨⟨0, 6⟩, ⟨0, 11⟩⟩], []] ∧
      (Workspace.undefinedInPass forwardReference 10 true true files second).map
          (fun warned => warned.2.map (·.place)) = [[⟨⟨0, 6⟩, ⟨0, 11⟩⟩], []] ∧
      third.workspace.store = second.workspace.store := by
  intro files first second third
  have hdistinct : files.Pairwise fun p q => ¬ p.same q := by decide +kernel
  obtain ⟨-, ⟨hwarnings, hstore⟩, -⟩ := two_passes_suffice forwardReference files hdistinct 10 true (.ofSettings {})
  refine ⟨hdistinct, by decide +kernel, ?_, hstore⟩
  rw [hwarnings]
  decide +kernel

end SqfIndex
