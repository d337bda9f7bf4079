import Mathlib.Algebra.Order.Floor.Div
import SqfIndex.Workspace.Indexing

/-!
# What indexing shows

Every pass of an indexing makes one attempt at each file, in order, and shows the percentages that can be told from the
number of files alone (`reports`). These never go down, the two passes of one run share the hundred between them, and the
progress is cleared after all of them: `indexing_progress_exact`.
-/

namespace SqfIndex

/-- The percentage that a notice shows. -/
def Notice.percent? : Notice → Option Nat
  | .progress percent => some percent
  | _ => none

/-- The percentages among what was seen. -/
def percentages (notices : List Notice) : List Nat := notices.filterMap Notice.percent?

theorem percentages_append (as bs : List Notice) : percentages (as ++ bs) = percentages as ++ percentages bs :=
  List.filterMap_append

namespace Workspace

/-! ## Percentages -/

section

variable {done done' total : Nat} {second twice : Bool}

theorem percent_eq (done total : Nat) (second twice : Bool) :
    percent done total second twice =
      if !twice then 100 * done / total else if second then 50 + 100 * done / total / 2 else 100 * done / total / 2 := by
  cases total <;> simp [percent]

theorem percent_mono (h : done ≤ done') : percent done total second twice ≤ percent done' total second twice := by
  have hshare : 100 * done / total ≤ 100 * done' / total := Nat.div_le_div_right (Nat.mul_le_mul_left 100 h)
  rw [percent_eq, percent_eq]
  split_ifs <;> omega

theorem share_lt (h : done < total) : 100 * done / total < 100 := Nat.div_lt_of_lt_mul (by omega)

theorem percent_lt (h : done < total) : percent done total second twice < 100 := by
  have hshare := share_lt h
  rw [percent_eq]
  split_ifs <;> omega

theorem percent_first_lt (h : done < total) : percent done total false true < 50 := by
  have hshare := share_lt h
  simp only [percent_eq, Bool.not_true, Bool.false_eq_true, ↓reduceIte]
  omega

theorem le_percent_second (done total : Nat) : 50 ≤ percent done total true true := by simp [percent_eq]

end

/-! ## The reports of a pass -/

/-- The percentages that a pass over so many files shows. -/
def reports (total interval : Nat) (second twice : Bool) : List Nat :=
  ((List.range total).filter (· % max interval 1 = 0)).map (percent · total second twice)

section

variable {total interval : Nat} {second twice : Bool}

theorem mem_reports {n : Nat} (h : n ∈ reports total interval second twice) :
    ∃ done < total, percent done total second twice = n := by
  obtain ⟨done, hdone, hn⟩ := List.mem_map.mp h
  exact ⟨done, List.mem_range.mp (List.mem_filter.mp hdone).1, hn⟩

theorem pairwise_reports (total interval : Nat) (second twice : Bool) :
    (reports total interval second twice).Pairwise (· ≤ ·) := by
  refine List.pairwise_map.mpr (List.Pairwise.filter _ ?_)
  exact List.pairwise_lt_range.imp fun h => percent_mono (Nat.le_of_lt h)

theorem countP_range_mod (total : Nat) {k : Nat} (hk : 0 < k) :
    (List.range total).countP (· % k = 0) = total ⌈/⌉ k := by
  induction total with
  | zero => simp
  | succ n ih =>
      -- one place more is one report more if the interval divides it
      have hdiv : (n + 1 + k - 1) / k = (n + k - 1) / k + if n % k = 0 then 1 else 0 := by
        have hsucc : n + 1 + k - 1 = (n + k - 1) + 1 := by omega
        have hdvd : k ∣ (n + k - 1) + 1 ↔ n % k = 0 := by
          rw [Nat.sub_add_cancel (by omega), Nat.dvd_add_self_right, Nat.dvd_iff_mod_eq_zero]
        rw [hsucc, Nat.succ_div]
        simp only [hdvd]
      rw [List.range_succ, List.countP_append, ih, Nat.ceilDiv_eq_add_pred_div, Nat.ceilDiv_eq_add_pred_div, hdiv]
      simp

theorem length_reports (total interval : Nat) (second twice : Bool) :
    (reports total interval second twice).length = total ⌈/⌉ max interval 1 := by
  rw [reports, List.length_map, ← List.countP_eq_length_filter]
  exact countP_range_mod total (by omega)

theorem head?_reports_second (h : 0 < total) : (reports total interval true true).head? = some 50 := by
  obtain ⟨n, rfl⟩ := Nat.exists_eq_add_one.mpr h
  simp [reports, List.range_succ_eq_map, percent_eq]

end

/-! ## Attempts -/

/-- One file of a pass: what was seen of its analysis, and how that ended. -/
structure Attempt where
  path : Path
  notices : List Notice
  outcome : Except FileError Unit

def Attempt.failed (a : Attempt) : Bool := !a.outcome.isOk

/-- Files are analyzed one after the other, each in the workspace that the one before left. -/
inductive Attempted (s : Surroundings) : Workspace → List Attempt → Workspace → Prop
  | nil (w : Workspace) : Attempted s w [] w
  | cons {w w' w'' : Workspace} {a : Attempt} {as : List Attempt}
      (h : w.analyzeFile s a.path = ((w', a.notices), a.outcome)) (has : Attempted s w' as w'') :
      Attempted s w (a :: as) w''

theorem Attempted.append {s : Surroundings} {w w' w'' : Workspace} {as bs : List Attempt} (has : Attempted s w as w')
    (hbs : Attempted s w' bs w'') : Attempted s w (as ++ bs) w'' := by
  induction has with
  | nil => exact hbs
  | cons h _ ih => exact .cons h (ih hbs)

/-- The analysis of a file has no part in the progress. -/
theorem analyzeFile_quiet (s : Surroundings) (path : Path) (w : Workspace) :
    ∀ n ∈ (w.analyzeFile s path).1.2, n.percent? = none ∧ n ≠ .cleared := by
  unfold analyzeFile
  cases Uri.ofPath? path with
  | none => simp
  | some uri =>
      cases s.read path with
      | error cause => simp [Notice.percent?]
      | ok text =>
          simp only [analyze, List.mem_cons, List.mem_map]
          rintro n (rfl | rfl | rfl | ⟨p, -, rfl⟩) <;> simp [Notice.percent?]

theorem Attempted.quiet {s : Surroundings} {w w' : Workspace} {as : List Attempt} (h : Attempted s w as w') :
    ∀ a ∈ as, ∀ n ∈ a.notices, n.percent? = none ∧ n ≠ .cleared := by
  induction h with
  | nil => simp
  | @cons w w' w'' a as h _ ih =>
      have hquiet := analyzeFile_quiet s a.path w
      rw [h] at hquiet
      exact List.forall_mem_cons.mpr ⟨hquiet, ih⟩

/-! ## Passes -/

/-- A pass as it was seen. -/
structure Pass where
  second : Bool
  attempts : List Attempt
  notices : List Notice

section

variable (s : Surroundings) (total interval : Nat) (second twice : Bool)

/-- A visit shows the progress if it is due, and makes one attempt. -/
theorem visit_attempt (run : Progress) (i : Nat) (path : Path) :
    let run' := visit s total interval second twice run i path
    ∃ a seen, a.path = path ∧ run.workspace.analyzeFile s a.path = ((run'.workspace, a.notices), a.outcome) ∧
      run'.failed = run.failed + [a].countP Attempt.failed ∧ run'.notices = run.notices ++ seen ∧
      seen.filter (·.percent?.isNone) = a.notices ∧
      percentages seen = ([i].filter (· % max interval 1 = 0)).map (percent · total second twice) := by
  intro run'
  let tried := run.workspace.analyzeFile s path
  let shown : List Notice := if i % max interval 1 = 0 then [.progress (percent i total second twice)] else []
  have hquiet : ∀ n ∈ tried.1.2, n.percent? = none := fun n hn => (analyzeFile_quiet s path run.workspace n hn).1
  have hkept : tried.1.2.filter (·.percent?.isNone) = tried.1.2 :=
    List.filter_eq_self.mpr fun n hn => by rw [hquiet n hn, Option.isNone_none]
  have hnone : percentages tried.1.2 = [] := List.filterMap_eq_nil_iff.mpr hquiet
  refine ⟨⟨path, tried.1.2, tried.2⟩, shown ++ tried.1.2, rfl, rfl, ?_, List.append_assoc _ _ _, ?_, ?_⟩
  · show run.failed + (if tried.2.isOk then 0 else 1) = _
    rw [List.countP_singleton, Attempt.failed]
    cases tried.2.isOk <;> rfl
  · rw [List.filter_append, hkept]
    by_cases hdue : i % max interval 1 = 0 <;> simp [shown, hdue, Notice.percent?]
  · rw [percentages_append, hnone, List.append_nil]
    by_cases hdue : i % max interval 1 = 0 <;> simp [shown, hdue, percentages, Notice.percent?]

theorem visitFrom_attempts (i : Nat) (files : List Path) (run : Progress) :
    let run' := visitFrom s total interval second twice i files run
    ∃ attempts seen, attempts.map (·.path) = files ∧ Attempted s run.workspace attempts run'.workspace ∧
      run'.failed = run.failed + attempts.countP Attempt.failed ∧ run'.notices = run.notices ++ seen ∧
      seen.filter (·.percent?.isNone) = attempts.flatMap (·.notices) ∧
      percentages seen =
        ((List.range' i files.length).filter (· % max interval 1 = 0)).map (percent · total second twice) := by
  induction files generalizing i run with
  | nil => exact ⟨[], [], rfl, .nil _, rfl, (List.append_nil _).symm, rfl, rfl⟩
  | cons path files ih =>
      intro run'
      obtain ⟨a, now, rfl, hanalyze, hfailed, hnotices, hseen, hpercent⟩ :=
        visit_attempt s total interval second twice run i path
      obtain ⟨attempts, later, rfl, hattempted, hfailed', hnotices', hseen', hpercent'⟩ :=
        ih (i + 1) (visit s total interval second twice run i a.path)
      refine ⟨a :: attempts, now ++ later, rfl, .cons hanalyze hattempted, ?_, ?_, ?_, ?_⟩
      · rw [← List.singleton_append, List.countP_append, ← Nat.add_assoc, ← hfailed, ← hfailed']
        rfl
      · rw [← List.append_assoc, ← hnotices, ← hnotices']
        rfl
      · rw [List.filter_append, hseen, hseen', List.flatMap_cons]
      · rw [percentages_append, hpercent, hpercent', ← List.map_append, ← List.filter_append, List.length_cons,
          List.range'_succ, List.singleton_append]

/-- A pass over some files makes one attempt at each, in order, and gives the reports for so many files. -/
structure Pass.Covers (interval : Nat) (twice : Bool) (files : List Path) (p : Pass) : Prop where
  paths : p.attempts.map (·.path) = files
  seen : p.notices.filter (·.percent?.isNone) = p.attempts.flatMap (·.notices) ++ [.completed (.pass p.second)]
  reported : percentages p.notices = reports files.length interval p.second twice

theorem pass_covers (files : List Path) (run : Progress) :
    let run' := pass s files interval second twice run
    ∃ p : Pass, p.second = second ∧ p.Covers interval twice files ∧
      Attempted s run.workspace p.attempts run'.workspace ∧
      run'.failed = run.failed + p.attempts.countP Attempt.failed ∧ run'.notices = run.notices ++ p.notices := by
  intro run'
  obtain ⟨attempts, seen, hpaths, hattempted, hfailed, hnotices, hseen, hpercent⟩ :=
    visitFrom_attempts s files.length interval second twice 0 files run
  refine ⟨⟨second, attempts, seen ++ [.completed (.pass second)]⟩, rfl, ⟨hpaths, ?_, ?_⟩, hattempted, hfailed, ?_⟩
  · rw [List.filter_append, hseen]
    rfl
  · rw [percentages_append, hpercent, reports, List.range_eq_range']
    exact List.append_nil _
  · rw [← List.append_assoc, ← hnotices]
    rfl

/-- Passes one after the other. -/
theorem foldl_pass_covers (files : List Path) (order : List Bool) (run : Progress) :
    let run' := order.foldl (fun run now => pass s files interval now twice run) run
    ∃ passes : List Pass, passes.map (·.second) = order ∧ (∀ p ∈ passes, p.Covers interval twice files) ∧
      Attempted s run.workspace (passes.flatMap (·.attempts)) run'.workspace ∧
      run'.failed = run.failed + (passes.flatMap (·.attempts)).countP Attempt.failed ∧
      run'.notices = run.notices ++ passes.flatMap (·.notices) := by
  induction order generalizing run with
  | nil => exact ⟨[], rfl, by simp, .nil _, rfl, (List.append_nil _).symm⟩
  | cons now order ih =>
      intro run'
      obtain ⟨p, rfl, hcovers, hattempted, hfailed, hnotices⟩ := pass_covers s interval now twice files run
      obtain ⟨passes, rfl, hcovers', hattempted', hfailed', hnotices'⟩ := ih (pass s files interval p.second twice run)
      refine ⟨p :: passes, rfl, List.forall_mem_cons.mpr ⟨hcovers, hcovers'⟩, ?_, ?_, ?_⟩
      · exact hattempted.append hattempted'
      · rw [List.flatMap_cons, List.countP_append, ← Nat.add_assoc, ← hfailed, ← hfailed']
        rfl
      · rw [List.flatMap_cons, ← List.append_assoc, ← hnotices, ← hnotices']
        rfl

end

/-! ## Whole runs -/

/-- The passes that an indexing makes, each by whether it is the second one. -/
def passesOf (second twice : Bool) : List Bool := if !second && twice then [false, true] else [second]

theorem indexFiles_eq (s : Surroundings) (files : List Path) (second : Bool) (w : Workspace) :
    w.indexFiles s files second =
      let order := passesOf second w.settings.indexWorkspaceTwice
      let run := order.foldl
        (fun run now => pass s files w.settings.progressInterval now w.settings.indexWorkspaceTwice run) { workspace := w }
      (run.workspace, run.notices ++ [.cleared], ⟨files.length, run.failed, order.length⟩) := by
  cases second <;> cases htwice : w.settings.indexWorkspaceTwice <;> simp [indexFiles, passesOf, htwice]

theorem pairwise_reports_passesOf (total interval : Nat) (second twice : Bool) :
    ((passesOf second twice).flatMap fun now => reports total interval now twice).Pairwise (· ≤ ·) := by
  unfold passesOf
  split
  · next hagain =>
    obtain rfl : twice = true := (Bool.and_eq_true_iff.mp hagain).2
    rw [List.flatMap_cons, List.flatMap_singleton]
    refine List.pairwise_append.mpr ⟨pairwise_reports _ _ _ _, pairwise_reports _ _ _ _, ?_⟩
    intro n hn n' hn'
    obtain ⟨done, hdone, rfl⟩ := mem_reports hn
    obtain ⟨done', -, rfl⟩ := mem_reports hn'
    -- across the two passes, 50 lies between
    have hlow := percent_first_lt hdone
    have hhigh := le_percent_second done' total
    omega
  · rw [List.flatMap_singleton]
    exact pairwise_reports _ _ _ _

/-- Nothing is cleared during a pass. -/
theorem Pass.Covers.cleared_notMem {interval : Nat} {twice : Bool} {files : List Path} {p : Pass}
    (h : p.Covers interval twice files) (hquiet : ∀ a ∈ p.attempts, ∀ n ∈ a.notices, n.percent? = none ∧ n ≠ .cleared) :
    .cleared ∉ p.notices := by
  intro hmem
  have hkept : .cleared ∈ p.notices.filter (·.percent?.isNone) := List.mem_filter.mpr ⟨hmem, rfl⟩
  rw [h.seen, List.mem_append, List.mem_flatMap] at hkept
  rcases hkept with ⟨a, ha, hn⟩ | hkept
  · exact (hquiet a ha _ hn).2 rfl
  · cases List.mem_singleton.mp hkept

theorem percentages_flatMap {interval : Nat} {twice : Bool} {files : List Path} {passes : List Pass}
    (h : ∀ p ∈ passes, p.Covers interval twice files) :
    percentages (passes.flatMap (·.notices)) =
      (passes.map (·.second)).flatMap fun now => reports files.length interval now twice := by
  induction passes with
  | nil => rfl
  | cons p passes ih =>
      obtain ⟨hp, hpasses⟩ := List.forall_mem_cons.mp h
      rw [List.flatMap_cons, percentages_append, hp.reported, ih hpasses, List.map_cons, List.flatMap_cons]

/-- What an indexing shows, for any number of files, any settings, and whatever files cannot be analyzed. There is one
pass, or a first and a second one. Each makes one attempt at every file, in order, and gives one report for every
`progressInterval` files that it begins; of two passes the first stays below 50 and the second begins with 50. The
percentages never go down and stay below 100, and the progress is cleared once, after all of them. The files that failed
are counted over all passes. -/
theorem indexing_progress_exact (s : Surroundings) (root : Path) (second : Bool) (w : Workspace) :
    let files := s.scripts root w.settings.exclude
    let twice := w.settings.indexWorkspaceTwice
    let (w', notices, summary) := w.index s root second
    ∃ passes : List Pass, passes.map (·.second) = (if !second && twice then [false, true] else [second]) ∧
      Attempted s w (passes.flatMap (·.attempts)) w' ∧
      (∀ p ∈ passes, p.attempts.map (·.path) = files ∧
        p.notices.filter (·.percent?.isNone) = p.attempts.flatMap (·.notices) ++ [.completed (.pass p.second)] ∧
        (percentages p.notices).length = files.length ⌈/⌉ max w.settings.progressInterval 1 ∧
        (twice = true → p.second = false → ∀ n ∈ percentages p.notices, n < 50) ∧
        (twice = true → p.second = true → ∀ n ∈ percentages p.notices, 50 ≤ n) ∧
        (twice = true → p.second = true → files ≠ [] → (percentages p.notices).head? = some 50)) ∧
      (percentages notices).Pairwise (· ≤ ·) ∧ (∀ n ∈ percentages notices, n < 100) ∧
      notices = passes.flatMap (·.notices) ++ [.cleared] ∧ .cleared ∉ passes.flatMap (·.notices) ∧
      summary = ⟨files.length, (passes.flatMap (·.attempts)).countP Attempt.failed, passes.length⟩ := by
  intro files twice
  rw [index, indexFiles_eq]
  obtain ⟨passes, horder, hcovers, hattempted, hfailed, hnotices⟩ :=
    foldl_pass_covers s w.settings.progressInterval twice files (passesOf second twice) { workspace := w }
  have hall : percentages (passes.flatMap (·.notices) ++ [.cleared]) =
      (passesOf second twice).flatMap fun now => reports files.length w.settings.progressInterval now twice := by
    rw [percentages_append, percentages_flatMap hcovers, horder]
    exact List.append_nil _
  rw [List.nil_append] at hnotices
  rw [Nat.zero_add] at hfailed
  dsimp only
  rw [hnotices, hfailed, hall]
  refine ⟨passes, horder, hattempted, ?_, pairwise_reports_passesOf _ _ _ _, ?_, rfl, ?_, ?_⟩
  · intro p hp
    obtain ⟨hpaths, hseen, hpercent⟩ := hcovers p hp
    rw [hpercent]
    refine ⟨hpaths, hseen, length_reports _ _ _ _, ?_, ?_, ?_⟩
    · intro htwice hfirst n hn
      rw [htwice, hfirst] at hn
      obtain ⟨done, hdone, rfl⟩ := mem_reports hn
      exact percent_first_lt hdone
    · intro htwice hsecond n hn
      rw [htwice, hsecond] at hn
      obtain ⟨done, -, rfl⟩ := mem_reports hn
      exact le_percent_second done _
    · intro htwice hsecond hne
      rw [htwice, hsecond]
      exact head?_reports_second (List.length_pos_iff.mpr hne)
  · intro n hn
    obtain ⟨now, -, hn⟩ := List.mem_flatMap.mp hn
    obtain ⟨done, hdone, rfl⟩ := mem_reports hn
    exact percent_lt hdone
  · intro hmem
    obtain ⟨p, hp, hmem⟩ := List.mem_flatMap.mp hmem
    refine (hcovers p hp).cleared_notMem ?_ hmem
    intro a ha
    exact hattempted.quiet a (List.mem_flatMap.mpr ⟨p, hp, ha⟩)
  · rw [← horder, List.length_map]

/-- Three scripts, of which the second cannot be read. -/
def threeScripts : Surroundings where
  read := MemoryFiles.read [(.ofText "/a.sqf", "x = 1".toList), (.ofText "/c.sqf", "x".toList)]
  scripts _ _ := [.ofText "/a.sqf", .ofText "/b.sqf", .ofText "/c.sqf"]

theorem threeScripts_progress :
    let w := Workspace.ofSettings { indexWorkspaceTwice := true, progressInterval := 2 }
    let (_, notices, summary) := w.index threeScripts (.ofText "/") false
    w.settings.indexWorkspaceTwice = true ∧ percentages notices = [0, 33, 50, 83] ∧ summary = ⟨3, 2, 2⟩ ∧
      ∃ passes : List Pass, passes.map (·.second) = [false, true] ∧
        ∀ p ∈ passes, p.second = true → (percentages p.notices).head? = some 50 := by
  intro w
  obtain ⟨passes, horder, -, hpasses, -⟩ := indexing_progress_exact threeScripts (.ofText "/") false w
  refine ⟨rfl, by decide +kernel, by decide +kernel, passes, horder, ?_⟩
  intro p hp hsecond
  exact (hpasses p hp).2.2.2.2.2 rfl hsecond (by simp [threeScripts])

end Workspace

end SqfIndex
