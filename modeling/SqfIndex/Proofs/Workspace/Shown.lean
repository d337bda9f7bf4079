import Mathlib.Data.List.Induction
import SqfIndex.Proofs.Workspace.Routing
import SqfIndex.Workspace.State

/-!
# What is shown for a file

Documents are analyzed and removed one after the other. What is shown for a file is what was last
published for it, and an action publishes for its document and for the files that the document includes,
and for no others (`published_perform`). So the last such action decides: `shown_of_last` and
`exists_last_of_shown`. Nobody takes back what an action said about an included file once the document no
longer includes it, and nobody says again what a file's own analysis said after an includer had its word.
-/

namespace SqfIndex

/-- Something that happens to one document. -/
inductive Action
  | analyze (uri : Uri) (text : List Char)
  | remove (uri : Uri)
deriving DecidableEq

namespace Action

def uri : Action → Uri
  | analyze uri _ => uri
  | remove uri => uri

def perform (s : Surroundings) (w : Workspace) : Action → Workspace × List Notice
  | analyze uri text => w.analyze s uri text
  | remove uri => w.remove uri

/-- The files that an action publishes for: the document and what it includes. -/
def affected (s : Surroundings) (settings : Settings) : Action → List Uri
  | analyze uri text => uri :: (Analysis.analyze Frontend.script settings s.read uri text).targets
  | remove uri => [uri]

def routed (s : Surroundings) (w : Workspace) (f : Uri) : Action → List Diagnostic
  | analyze uri text =>
    let r := Analysis.analyze Frontend.script w.settings s.read uri text
    Workspace.routed w.settings uri r (w.store.reconcile w.settings s.owns uri r).2 f
  | remove _ => []

end Action

namespace Workspace

/-- The workspace after some actions, and all that was seen. -/
def run (s : Surroundings) (w : Workspace) (actions : List Action) : Workspace × List Notice :=
  actions.foldl (fun (w, seen) a => ((a.perform s w).1, seen ++ (a.perform s w).2)) (w, [])

def shownBy (f : Uri) : Notice → Option (List Diagnostic)
  | .published p => if p.uri = f then some p.diagnostics else none
  | _ => none

/-- What is shown for a file in the end: the last publication counts. -/
def shown (seen : List Notice) (f : Uri) : Option (List Diagnostic) := seen.reverse.findSome? (shownBy f)

variable {s : Surroundings} {w : Workspace} {f : Uri}

/-! ## One action -/

theorem shown_append (seen more : List Notice) (f : Uri) : shown (seen ++ more) f = (shown more f).or (shown seen f) := by
  simp [shown, List.findSome?_append]

theorem published_of_shown {seen : List Notice} {ds : List Diagnostic} (h : shown seen f = some ds) :
    .published ⟨f, ds⟩ ∈ seen := by
  obtain ⟨notice, hmem, hnotice⟩ := List.exists_of_findSome?_eq_some h
  cases notice with
  | published p =>
      simp only [shownBy] at hnotice
      split at hnotice
      · next hp => cases hnotice; cases hp; exact List.mem_reverse.mp hmem
      · cases hnotice
  | progress | cleared | reads | completed => cases hnotice

theorem not_published_of_shown {seen : List Notice} (h : shown seen f = none) (ds : List Diagnostic) :
    .published ⟨f, ds⟩ ∉ seen := by
  intro hmem
  have hnone := List.findSome?_eq_none_iff.mp h _ (List.mem_reverse.mpr hmem)
  simp [shownBy] at hnone

/-- All that an analysis places lies in files that it publishes for anyway. -/
theorem mem_sheetsOf_analyze (settings : Settings) (uri : Uri) (text : List Char) (undefined : List Diagnostic) :
    f ∈ sheetsOf settings uri (Analysis.analyze Frontend.script settings s.read uri text) undefined ↔
      f ∈ (Action.analyze uri text).affected s settings := by
  have hwithin := Analysis.placed_within_targets settings s.read uri text
  rw [mem_sheetsOf, Action.affected, List.mem_cons]
  constructor
  · rintro (h | h | h | ⟨-, h⟩)
    · exact Or.inl h
    · exact Or.inr h
    · obtain ⟨p, hp, rfl⟩ := List.mem_map.mp h
      exact hwithin p (List.mem_append_left _ hp)
    · obtain ⟨p, hp, rfl⟩ := List.mem_map.mp h
      exact hwithin p (List.mem_append_right _ hp)
  · rintro (h | h)
    · exact Or.inl h
    · exact Or.inr (Or.inl h)

theorem settings_perform (a : Action) : (a.perform s w).1.settings = w.settings := by
  cases a <;> rfl

theorem published_perform (a : Action) (f : Uri) (ds : List Diagnostic) :
    .published ⟨f, ds⟩ ∈ (a.perform s w).2 ↔ f ∈ a.affected s w.settings ∧ ds = a.routed s w f := by
  cases a with
  | analyze uri text =>
      rw [← mem_sheetsOf_analyze]
      refine Iff.trans ?_ (mem_publications ⟨f, ds⟩)
      simp [Action.perform, Workspace.analyze]
  | remove uri => simp [Action.perform, Workspace.remove, Action.affected, Action.routed]

theorem shown_perform (a : Action) (f : Uri) :
    shown (a.perform s w).2 f = if f ∈ a.affected s w.settings then some (a.routed s w f) else none := by
  cases h : shown (a.perform s w).2 f with
  | none =>
      have hnot := not_published_of_shown h (a.routed s w f)
      rw [published_perform] at hnot
      rw [if_neg fun hf => hnot ⟨hf, rfl⟩]
  | some ds =>
      obtain ⟨hf, rfl⟩ := (published_perform a f ds).mp (published_of_shown h)
      rw [if_pos hf]

/-! ## Runs -/

theorem run_append (actions : List Action) (a : Action) :
    run s w (actions ++ [a]) =
      ((a.perform s (run s w actions).1).1, (run s w actions).2 ++ (a.perform s (run s w actions).1).2) := by
  simp [run]

theorem settings_run (actions : List Action) : (run s w actions).1.settings = w.settings := by
  induction actions using List.reverseRecOn with
  | nil => rfl
  | append_singleton actions a ih => rw [run_append, settings_perform, ih]

theorem shown_run_append (actions : List Action) (a : Action) (f : Uri) :
    shown (run s w (actions ++ [a])).2 f =
      if f ∈ a.affected s w.settings then some (a.routed s (run s w actions).1 f) else shown (run s w actions).2 f := by
  rw [run_append, shown_append, shown_perform, settings_run]
  split <;> rfl

theorem shown_of_last {before after : List Action} {a : Action} (ha : f ∈ a.affected s w.settings)
    (hafter : ∀ b ∈ after, f ∉ b.affected s w.settings) :
    shown (run s w (before ++ a :: after)).2 f = some (a.routed s (run s w before).1 f) := by
  induction after using List.reverseRecOn with
  | nil => rw [shown_run_append, if_pos ha]
  | append_singleton after b ih =>
      rw [← List.cons_append, ← List.append_assoc, shown_run_append, if_neg (hafter b (by simp))]
      exact ih fun c hc => hafter c (by simp [hc])

theorem exists_last_of_shown {actions : List Action} {ds : List Diagnostic} (h : shown (run s w actions).2 f = some ds) :
    ∃ before a after, actions = before ++ a :: after ∧ f ∈ a.affected s w.settings ∧
      (∀ b ∈ after, f ∉ b.affected s w.settings) ∧ ds = a.routed s (run s w before).1 f := by
  induction actions using List.reverseRecOn with
  | nil => cases h
  | append_singleton actions a ih =>
      rw [shown_run_append] at h
      split at h
      · next ha =>
        cases h
        exact ⟨actions, a, [], rfl, ha, by simp, rfl⟩
      · next ha =>
        obtain ⟨before, b, after, rfl, hb, hafter, rfl⟩ := ih h
        refine ⟨before, b, after ++ [a], by simp, hb, ?_, rfl⟩
        intro c hc
        rcases List.mem_append.mp hc with hc | hc
        · exact hafter c hc
        · rwa [List.mem_singleton.mp hc]

theorem uri_mem_affected (a : Action) (settings : Settings) : a.uri ∈ a.affected s settings := by
  cases a with
  | analyze uri text => exact List.mem_cons_self
  | remove uri => exact List.mem_singleton_self uri

/-! ## Diagnostics that stay too long -/

/-- Of no document the last action has anything to say about a file. -/
def Quiet (s : Surroundings) (w : Workspace) (actions : List Action) (f : Uri) : Prop :=
  ∀ before a after, actions = before ++ a :: after → (∀ b ∈ after, b.uri ≠ a.uri) → a.routed s (run s w before).1 f = []

/-- What is said about a file that should be quiet comes from a document that had a later action. -/
theorem Quiet.superseded {before after : List Action} {a : Action} (h : Quiet s w (before ++ a :: after) f)
    (hne : a.routed s (run s w before).1 f ≠ []) : ∃ b ∈ after, b.uri = a.uri := by
  by_contra hnone
  refine hne (h before a after rfl ?_)
  intro b hb huri
  exact hnone ⟨b, hb, huri⟩

theorem quiet_of_second {a b : Action} (huri : b.uri = a.uri) (h : b.routed s (run s w [a]).1 f = []) : Quiet s w [a, b] f := by
  intro before c after hsplit hlast
  cases before with
  | nil =>
      cases hsplit
      exact absurd huri (hlast b (by simp))
  | cons x before =>
      cases before with
      | nil => cases hsplit; exact h
      | cons y before => simp at hsplit

/-- A file that no document has anything to say about still shows diagnostics exactly if they come from a
document that included it, and that was analyzed anew or removed while since then nothing affected the file. -/
theorem stale_iff_includer_superseded (s : Surroundings) (w : Workspace) (actions : List Action) (f : Uri)
    (hquiet : Quiet s w actions f) (ds : List Diagnostic) (hds : ds ≠ []) :
    shown (run s w actions).2 f = some ds ↔
      ∃ before d text after, actions = before ++ .analyze d text :: after ∧ d ≠ f ∧
        f ∈ (Analysis.analyze Frontend.script w.settings s.read d text).targets ∧ (∃ b ∈ after, b.uri = d) ∧
        (∀ b ∈ after, f ∉ b.affected s w.settings) ∧ ds = (Action.analyze d text).routed s (run s w before).1 f := by
  constructor
  · intro h
    obtain ⟨before, a, after, rfl, ha, hafter, rfl⟩ := exists_last_of_shown h
    obtain ⟨b, hb, huri⟩ := hquiet.superseded hds
    cases a with
    | remove uri => exact absurd rfl hds
    | analyze d text =>
        have hne : d ≠ f := by
          -- the later action about `d` would have affected it
          rintro rfl
          have hmem := uri_mem_affected (s := s) b w.settings
          rw [huri] at hmem
          exact hafter b hb hmem
        refine ⟨before, d, text, after, rfl, hne, ?_, ⟨b, hb, huri⟩, hafter, rfl⟩
        exact (List.mem_cons.mp ha).resolve_left hne.symm
  · rintro ⟨before, d, text, after, rfl, -, htarget, -, hafter, rfl⟩
    exact shown_of_last (List.mem_cons_of_mem d htarget) hafter

/-- There is one file to include, and it is at fault. -/
def faultyInclude : Surroundings where
  read := MemoryFiles.read [(.ofText "/b.hpp", ")".toList)]

def includesFaulty : Action := .analyze "file:///a.sqf" "#include \"b.hpp\"".toList

theorem faultyInclude_quiet (last : Action) (h : last = .analyze "file:///a.sqf" [] ∨ last = .remove "file:///a.sqf") :
    Quiet faultyInclude (.ofSettings {}) [includesFaulty, last] "file:///b.hpp" := by
  rcases h with rfl | rfl
  · exact quiet_of_second rfl (by decide +kernel)
  · exact quiet_of_second rfl rfl

theorem faultyInclude_superseded :
    Quiet faultyInclude (.ofSettings {}) [includesFaulty, .remove "file:///a.sqf"] "file:///b.hpp" ∧
      shown (run faultyInclude (.ofSettings {}) [includesFaulty, .remove "file:///a.sqf"]).2 "file:///b.hpp" ≠ some [] := by
  have hquiet := faultyInclude_quiet _ (Or.inr rfl)
  have hrouted : includesFaulty.routed faultyInclude (.ofSettings {}) "file:///b.hpp" ≠ [] := by decide +kernel
  have hstale := (stale_iff_includer_superseded faultyInclude (.ofSettings {}) _ "file:///b.hpp" hquiet _ hrouted).mpr
    ⟨[], "file:///a.sqf", _, [.remove "file:///a.sqf"], rfl, by decide, by decide +kernel, ⟨_, List.mem_cons_self, rfl⟩,
      by simp [Action.affected], rfl⟩
  refine ⟨hquiet, ?_⟩
  rw [hstale]
  intro h
  exact hrouted (Option.some.inj h)

/-- The document no longer includes the file, or is removed, and the file shows the error as before. -/
theorem faultyInclude_stays_shown :
    (Quiet faultyInclude (.ofSettings {}) [includesFaulty, .analyze "file:///a.sqf" []] "file:///b.hpp" ∧
      shown (run faultyInclude (.ofSettings {}) [includesFaulty, .analyze "file:///a.sqf" []]).2 "file:///b.hpp" =
        some [⟨.error, "Unexpected ')'", ⟨⟨0, 0⟩, ⟨0, 1⟩⟩⟩]) ∧
    Quiet faultyInclude (.ofSettings {}) [includesFaulty, .remove "file:///a.sqf"] "file:///b.hpp" ∧
      shown (run faultyInclude (.ofSettings {}) [includesFaulty, .remove "file:///a.sqf"]).2 "file:///b.hpp" =
        some [⟨.error, "Unexpected ')'", ⟨⟨0, 0⟩, ⟨0, 1⟩⟩⟩] := by
  refine ⟨⟨faultyInclude_quiet _ (Or.inl rfl), ?_⟩, faultyInclude_quiet _ (Or.inr rfl), ?_⟩
  · decide +kernel
  · decide +kernel

/-! ## Diagnostics that go too early -/

/-- What the analysis of a document shows for it stays until an action affects the document: one about it,
or the analysis of a document that includes it. The latter shows what it has to say itself. -/
theorem own_diagnostics_stay_until_affected (s : Surroundings) (w : Workspace) (before : List Action) (d : Uri)
    (text : List Char) (after : List Action) :
    let own := (Action.analyze d text).routed s (run s w before).1 d
    let final := shown (run s w (before ++ .analyze d text :: after)).2 d
    shown (run s w (before ++ [.analyze d text])).2 d = some own ∧
    ((∀ a ∈ after, d ∉ a.affected s w.settings) → final = some own) ∧
    ∀ between e t rest, after = between ++ .analyze e t :: rest →
      d ∈ (Analysis.analyze Frontend.script w.settings s.read e t).targets →
      (∀ a ∈ rest, d ∉ a.affected s w.settings) →
      final = some ((Action.analyze e t).routed s (run s w (before ++ .analyze d text :: between)).1 d) := by
  intro own final
  have hown : d ∈ (Action.analyze d text).affected s w.settings := uri_mem_affected _ _
  refine ⟨shown_of_last hown (by simp), shown_of_last hown, ?_⟩
  rintro between e t rest rfl htarget hrest
  have hlast := @shown_of_last s w d (before ++ .analyze d text :: between) rest (.analyze e t) (List.mem_cons_of_mem e htarget) hrest
  simpa [final] using hlast

/-- There is one file to include, and it uses a name that no document defines. -/
def puzzlingInclude : Surroundings where
  read := MemoryFiles.read [(.ofText "/b.hpp", "TAG_x;".toList)]

theorem puzzlingInclude_kept :
    let others := [Action.analyze "file:///c.sqf" "1".toList, .remove "file:///a.sqf"]
    (∀ a ∈ others, "file:///b.hpp" ∉ a.affected puzzlingInclude {}) ∧
      shown (run puzzlingInclude (.ofSettings {}) (.analyze "file:///b.hpp" "TAG_x;".toList :: others)).2 "file:///b.hpp" =
        some [⟨.warning, "Possibly undefined variable TAG_x", ⟨⟨0, 0⟩, ⟨0, 5⟩⟩⟩] := by
  intro others
  have hothers : ∀ a ∈ others, "file:///b.hpp" ∉ a.affected puzzlingInclude {} := by decide +kernel
  have hkept := (own_diagnostics_stay_until_affected puzzlingInclude (.ofSettings {}) [] "file:///b.hpp" "TAG_x;".toList others).2.1
  refine ⟨hothers, (hkept hothers).trans ?_⟩
  decide +kernel

/-- The analysis of a document that includes the file takes the file's own warning away. -/
theorem puzzlingInclude_cleared :
    let own := Action.analyze "file:///b.hpp" "TAG_x;".toList
    let includer := Action.analyze "file:///a.sqf" "#include \"b.hpp\"".toList
    includer.uri ≠ "file:///b.hpp" ∧
      shown (run puzzlingInclude (.ofSettings {}) [own]).2 "file:///b.hpp" =
        some [⟨.warning, "Possibly undefined variable TAG_x", ⟨⟨0, 0⟩, ⟨0, 5⟩⟩⟩] ∧
      shown (run puzzlingInclude (.ofSettings {}) [own, includer]).2 "file:///b.hpp" = some [] := by
  intro own includer
  refine ⟨by decide, ?_, ?_⟩
  · decide +kernel
  · decide +kernel

end Workspace

end SqfIndex
