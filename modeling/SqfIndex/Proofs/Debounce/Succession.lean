import Mathlib.Data.List.Induction
import SqfIndex.Proofs.Debounce.Safety

/-!
# Schedulers that take over from one another

A change of the delay disarms the timers of the scheduler in use and puts a new scheduler in its place. The tasks
of the old one go on, but the new one knows nothing of them. Schedulers are numbered by the changes before them
(`Succession.era`), and what is done under each of them is a run of its own (`Accounted`). So an action keeps
others of its key out only until the delay is changed: `refused_until_change`.
-/

namespace SqfIndex.Debounce

open Std (ExtTreeMap)

/-! ## Starts and ends in one run -/

section

variable {delay : Nat} {moves : List Move} {m : Move} {s s' : Tasks} {t t' : Ticket}

theorem Run.split {before after : List Move} (h : Run delay moves s) (hmoves : moves = before ++ m :: after) :
    ∃ s₁ s₂, Run delay before s₁ ∧ Step s₁ m s₂ := by
  induction h generalizing after with
  | nil => simp at hmoves
  | @step moves last s s' hrun hstep ih =>
      cases after using List.reverseRecOn with
      | nil =>
          obtain ⟨rfl, hlast⟩ := List.append_inj' hmoves rfl
          cases hlast
          exact ⟨s, s', hrun, hstep⟩
      | append_singleton after _ =>
          rw [← List.cons_append, ← List.append_assoc] at hmoves
          exact ih (List.append_inj' hmoves rfl).1

/-- Only starts and ends change what executes. -/
theorem Step.executing_eq (h : Step s m s') (hstart : ∀ t, m ≠ .start t) (hfinish : ∀ t, m ≠ .finish t) :
    s'.executing = s.executing := by
  cases h with
  | accept hrequest => exact (Tasks.request?_eq_some hrequest).2.2.1
  | refuse hrefused => rw [Tasks.run_of_refused hrefused]
  | elapse | abandon | expire | cancelAll => rfl
  | @start _ _ _ t => exact absurd rfl (hstart t)
  | @finish _ _ t => exact absurd rfl (hfinish t)

/-- An action executes exactly if it was started and has not ended. -/
theorem Run.executing_iff (h : Run delay moves s) :
    (∀ t, t ∈ s.executing ↔ .start t ∈ moves ∧ .finish t ∉ moves) ∧ ∀ t, .finish t ∈ moves → .start t ∈ moves := by
  induction h with
  | nil => simp
  | @step moves m s s' hrun hstep ih =>
      obtain ⟨ih, ihstarted⟩ := ih
      have hsound := hrun.sound
      cases m with
      | start t =>
          have hunstarted := (hstep.current_of_start hsound).2
          cases hstep
          constructor
          · intro t'
            simp only [List.mem_append, List.mem_singleton, Move.start.injEq, reduceCtorEq, or_false, ih]
            constructor
            · rintro (⟨hstarted, hunfinished⟩ | rfl)
              · exact ⟨Or.inl hstarted, hunfinished⟩
              · exact ⟨Or.inr rfl, fun hfinished => hunstarted (ihstarted _ hfinished)⟩
            · rintro ⟨hstarted | rfl, hunfinished⟩
              · exact Or.inl ⟨hstarted, hunfinished⟩
              · exact Or.inr rfl
          · intro t' hfinished
            exact List.mem_append_left _ (ihstarted t' (by simpa using hfinished))
      | finish t =>
          cases hstep with
          | @finish before after _ hexecuting =>
              have hnodup := hsound.single.of_map
              rw [hexecuting, List.nodup_middle, List.nodup_cons] at hnodup
              constructor
              · intro t'
                have hmem : t' ∈ before ++ after ↔ t' ∈ s.executing ∧ t' ≠ t := by
                  rw [hexecuting]
                  constructor
                  · intro h
                    refine ⟨?_, fun heq => hnodup.1 (heq ▸ h)⟩
                    simp only [List.mem_append, List.mem_cons] at h ⊢
                    tauto
                  · rintro ⟨h, hne⟩
                    simpa [hne] using h
                simp only [hmem, ih, List.mem_append, List.mem_singleton, Move.finish.injEq, reduceCtorEq, or_false,
                  not_or, and_assoc, ne_eq]
              · intro t' hfinished
                rcases List.mem_append.mp hfinished with hfinished | heq
                · exact List.mem_append_left _ (ihstarted t' hfinished)
                · cases List.mem_singleton.mp heq
                  exact List.mem_append_left _ ((ih t).mp (by simp [hexecuting])).1
      | accept | refuse | elapse | abandon | expire | cancelAll =>
          rw [hstep.executing_eq (by simp) (by simp)]
          simpa using ⟨ih, ihstarted⟩

theorem Run.finish_notMem_before {before after : List Move} (h : Run delay (before ++ .start t :: after) s) :
    .finish t ∉ before := by
  intro hfinished
  obtain ⟨s₁, s₂, hrun, hstep⟩ := h.split rfl
  exact (hstep.current_of_start hrun.sound).2 (hrun.executing_iff.2 t hfinished)

/-- Under one scheduler an action ends before the next one of its key starts. -/
theorem Run.finish_between_starts {before between after : List Move}
    (h : Run delay (before ++ .start t :: (between ++ .start t' :: after)) s) (hkey : t.key = t'.key) :
    .finish t ∈ between := by
  have hfinish := h.finish_notMem_before
  have hsplit : before ++ .start t :: (between ++ .start t' :: after) =
      (before ++ .start t :: between) ++ .start t' :: after := by simp
  obtain ⟨s₁, s₂, hrun, hstep⟩ := h.split hsplit
  have hidle : t ∉ s₁.executing := by
    intro hexecutes
    cases hstep with
    | start _ hstart =>
        have hpending := (Scheduler.start?_eq_some_iff.mp hstart).1
        have hrunning := (hrun.sound.running t'.key).mpr ⟨t, hexecutes, hkey⟩
        refine hrun.sound.apart _ hrunning ?_
        rw [ExtTreeMap.mem_iff_isSome_getElem?, hpending]
        rfl
  rw [hrun.executing_iff.1] at hidle
  simp only [List.mem_append, List.mem_cons, reduceCtorEq, false_or, true_or, or_true, hfinish, true_and,
    not_not] at hidle
  exact hidle

end

/-! ## One scheduler after the other -/

/-- The scheduler in use with its tasks, and those before it. -/
structure Succession where
  current : Tasks
  retired : List Tasks := []

/-- A move, and under which scheduler it is made. -/
structure Deed where
  era : Nat
  move : Move
deriving DecidableEq, Repr

/-- A move that somebody asks for; the others are those of tasks. -/
def Move.IsCall : Move → Prop
  | accept _ | refuse _ | cancelAll => True
  | _ => False

namespace Succession

def ofDelay (delay : Nat) : Succession := { current := { scheduler := { delay } } }

/-- The number of the scheduler in use. -/
def era (s : Succession) : Nat := s.retired.length

/-- All actions that execute, whichever scheduler started them. -/
def executing (s : Succession) : List Ticket := s.retired.flatMap (·.executing) ++ s.current.executing

/-- Changes the delay. The same delay changes nothing. -/
def setDelay (s : Succession) (delay : Nat) : Succession :=
  if s.current.scheduler.delay = delay then s
  else { current := { scheduler := { delay } }, retired := s.retired ++ [s.current.cancelAll] }

inductive Step : Succession → Deed → Succession → Prop
  /-- Callers speak to the scheduler in use. -/
  | act {s : Succession} {m : Move} {tasks : Tasks} (h : Debounce.Step s.current m tasks) (hm : m ≠ .cancelAll) :
      Step s ⟨s.era, m⟩ { s with current := tasks }
  /-- The tasks of the others go on. -/
  | linger {s : Succession} {m : Move} {before after : List Tasks} {tasks tasks' : Tasks}
      (hretired : s.retired = before ++ tasks :: after) (h : Debounce.Step tasks m tasks') (hm : ¬ m.IsCall) :
      Step s ⟨before.length, m⟩ { s with retired := before ++ tasks' :: after }
  | change {s : Succession} {delay : Nat} (h : s.current.scheduler.delay ≠ delay) :
      Step s ⟨s.era, .cancelAll⟩ (s.setDelay delay)

/-- What was done from the first scheduler on. -/
inductive Run (delay : Nat) : List Deed → Succession → Prop
  | nil : Run delay [] (ofDelay delay)
  | step {history : List Deed} {d : Deed} {s s' : Succession} (h : Run delay history s) (hstep : Step s d s') :
      Run delay (history ++ [d]) s'
  | keep {history : List Deed} {s : Succession} {delay' : Nat} (h : Run delay history s)
      (hsame : s.current.scheduler.delay = delay') : Run delay history (s.setDelay delay')

end Succession

/-- The moves that were made under one scheduler. -/
def movesOf (era : Nat) (history : List Deed) : List Move := (history.filter (·.era = era)).map (·.move)

/-- How often the delay was changed. -/
def changes (history : List Deed) : Nat := history.countP (·.move = .cancelAll)

section

variable {era : Nat} {history : List Deed} {m : Move}

theorem movesOf_append (era : Nat) (before after : List Deed) :
    movesOf era (before ++ after) = movesOf era before ++ movesOf era after := by
  simp [movesOf]

theorem movesOf_cons_self (era : Nat) (m : Move) (history : List Deed) :
    movesOf era (⟨era, m⟩ :: history) = m :: movesOf era history := by
  simp [movesOf]

theorem movesOf_append_self (era : Nat) (m : Move) (history : List Deed) :
    movesOf era (history ++ [⟨era, m⟩]) = movesOf era history ++ [m] := by
  simp [movesOf]

theorem movesOf_append_of_ne {d : Deed} (history : List Deed) (h : d.era ≠ era) :
    movesOf era (history ++ [d]) = movesOf era history := by
  simp [movesOf, h]

theorem mem_movesOf : m ∈ movesOf era history ↔ ⟨era, m⟩ ∈ history := by
  simp only [movesOf, List.mem_map, List.mem_filter, decide_eq_true_eq]
  constructor
  · rintro ⟨d, ⟨hd, rfl⟩, rfl⟩
    exact hd
  · intro h
    exact ⟨_, ⟨h, rfl⟩, rfl⟩

theorem changes_append (before after : List Deed) : changes (before ++ after) = changes before + changes after :=
  List.countP_append

theorem changes_eq_zero_iff : changes history = 0 ↔ ∀ e, ⟨e, .cancelAll⟩ ∉ history := by
  simp only [changes, List.countP_eq_zero, decide_eq_true_eq]
  constructor
  · intro h e hmem
    exact h _ hmem rfl
  · rintro h ⟨e, m⟩ hd rfl
    exact h e hd

end

/-! ## The run under each scheduler -/

namespace Succession

variable {delay : Nat} {history : List Deed} {d : Deed} {s s' : Succession}

/-- The history is made up of a run under each scheduler, and those that are not in use have no timer armed. -/
structure Accounted (history : List Deed) (s : Succession) : Prop where
  current : ∃ delay, Debounce.Run delay (movesOf s.era history) s.current
  retired : ∀ i tasks, s.retired[i]? = some tasks →
    (∃ delay, Debounce.Run delay (movesOf i history) tasks) ∧ tasks.scheduler.pending = ∅
  later : ∀ e, s.era < e → movesOf e history = []
  era : s.era = changes history

theorem Accounted.nil (delay : Nat) : Accounted [] (ofDelay delay) where
  current := ⟨delay, .nil⟩
  retired := by simp [ofDelay]
  later := by simp [movesOf]
  era := rfl

/-- Where no timer is armed, none starts its action. -/
theorem idle_of_step {tasks tasks' : Tasks} {m : Move} (h : Debounce.Step tasks m tasks') (hm : ¬ m.IsCall)
    (hidle : tasks.scheduler.pending = ∅) : (∀ t, m ≠ .start t) ∧ tasks'.scheduler.pending = ∅ := by
  cases h with
  | accept | refuse | cancelAll => exact absurd trivial hm
  | elapse | abandon | expire => exact ⟨by simp, hidle⟩
  | finish => exact ⟨by simp, hidle⟩
  | start _ hstart =>
      have hpending := (Scheduler.start?_eq_some_iff.mp hstart).1
      rw [hidle] at hpending
      simp at hpending

theorem Accounted.act (h : Accounted history s) {m : Move} {tasks : Tasks} (hstep : Debounce.Step s.current m tasks)
    (hm : m ≠ .cancelAll) : Accounted (history ++ [⟨s.era, m⟩]) { s with current := tasks } where
  current := by
    obtain ⟨delay, hrun⟩ := h.current
    refine ⟨delay, ?_⟩
    show Debounce.Run delay (movesOf s.era _) tasks
    rw [movesOf_append_self]
    exact hrun.step hstep
  retired := by
    intro i tasks' htasks
    have hlt : i < s.era := (List.getElem?_eq_some_iff.mp htasks).1
    rw [movesOf_append_of_ne history (Nat.ne_of_gt hlt)]
    exact h.retired i tasks' htasks
  later := by
    intro e he
    rw [movesOf_append_of_ne history (Nat.ne_of_lt he)]
    exact h.later e he
  era := by
    show s.era = _
    rw [changes_append]
    simpa [changes, hm] using h.era

theorem Accounted.linger (h : Accounted history s) {m : Move} {before after : List Tasks} {tasks tasks' : Tasks}
    (hretired : s.retired = before ++ tasks :: after) (hstep : Debounce.Step tasks m tasks') (hm : ¬ m.IsCall) :
    Accounted (history ++ [⟨before.length, m⟩]) { s with retired := before ++ tasks' :: after } := by
  have hera : Succession.era { s with retired := before ++ tasks' :: after } = s.era := by
    simp [Succession.era, hretired]
  have hlt : before.length < s.era := by
    simp [Succession.era, hretired]
  obtain ⟨⟨delay, hrun⟩, hidle⟩ := h.retired before.length tasks (by simp [hretired])
  constructor
  · rw [hera, movesOf_append_of_ne history (Nat.ne_of_lt hlt)]
    exact h.current
  · intro i tasks'' hi
    by_cases heq : before.length = i
    · subst heq
      obtain rfl : tasks' = tasks'' := by simpa using hi
      rw [movesOf_append_self]
      exact ⟨⟨delay, hrun.step hstep⟩, (idle_of_step hstep hm hidle).2⟩
    · -- the other schedulers are where they were
      rw [movesOf_append_of_ne history heq]
      refine h.retired i tasks'' ?_
      rw [hretired]
      simp only [List.getElem?_append, List.getElem?_cons] at hi ⊢
      grind
  · intro e he
    rw [hera] at he
    rw [movesOf_append_of_ne history (by show before.length ≠ e; omega)]
    exact h.later e he
  · have hcall : m ≠ .cancelAll := by
      rintro rfl
      exact hm trivial
    rw [hera, changes_append]
    simpa [changes, hcall] using h.era

theorem Accounted.change (h : Accounted history s) {delay' : Nat} (hdelay : s.current.scheduler.delay ≠ delay') :
    Accounted (history ++ [⟨s.era, .cancelAll⟩]) (s.setDelay delay') := by
  have hera : (s.setDelay delay').era = s.era + 1 := by
    simp [setDelay, hdelay, Succession.era]
  constructor
  · rw [hera, movesOf_append_of_ne history (by simp), h.later _ (Nat.lt_succ_self _)]
    refine ⟨delay', ?_⟩
    simp only [setDelay, hdelay, if_false]
    exact .nil
  · intro i tasks hi
    simp only [setDelay, hdelay, if_false] at hi
    by_cases heq : s.era = i
    · subst heq
      obtain rfl : s.current.cancelAll = tasks := by simpa [Succession.era] using hi
      obtain ⟨delay, hrun⟩ := h.current
      rw [movesOf_append_self]
      exact ⟨⟨delay, hrun.step .cancelAll⟩, rfl⟩
    · rw [movesOf_append_of_ne history heq]
      refine h.retired i tasks ?_
      unfold Succession.era at heq
      grind
  · intro e he
    rw [hera] at he
    rw [movesOf_append_of_ne history (by show s.era ≠ e; omega)]
    exact h.later e (by omega)
  · rw [hera, changes_append, h.era]
    rfl

theorem setDelay_same {delay' : Nat} (h : s.current.scheduler.delay = delay') : s.setDelay delay' = s := if_pos h

theorem Run.accounted (h : Run delay history s) : Accounted history s := by
  induction h with
  | nil => exact .nil delay
  | step _ hstep ih =>
      cases hstep with
      | act h hm => exact ih.act h hm
      | linger hretired h hm => exact ih.linger hretired h hm
      | change hdelay => exact ih.change hdelay
  | keep _ hsame ih =>
      rw [setDelay_same hsame]
      exact ih

theorem Run.split {before after : List Deed} (h : Run delay history s) (hhistory : history = before ++ d :: after) :
    ∃ s₁ s₂, Run delay before s₁ ∧ Step s₁ d s₂ := by
  induction h generalizing after with
  | nil => simp at hhistory
  | @step history last s s' hrun hstep ih =>
      cases after using List.reverseRecOn with
      | nil =>
          obtain ⟨rfl, hlast⟩ := List.append_inj' hhistory rfl
          cases hlast
          exact ⟨s, s', hrun, hstep⟩
      | append_singleton after _ =>
          rw [← List.cons_append, ← List.append_assoc] at hhistory
          exact ih (List.append_inj' hhistory rfl).1
  | keep _ _ ih => exact ih hhistory

/-- Actions start under the scheduler in use. -/
theorem Run.era_of_start {before after : List Deed} {era : Nat} {t : Ticket}
    (h : Run delay history s) (hhistory : history = before ++ ⟨era, .start t⟩ :: after) : era = changes before := by
  obtain ⟨s₁, s₂, hrun, hstep⟩ := h.split hhistory
  cases hstep with
  | act => exact hrun.accounted.era
  | @linger _ earlier later tasks tasks' hretired hstep hm =>
      obtain ⟨-, hidle⟩ := hrun.accounted.retired earlier.length tasks (by simp [hretired])
      exact absurd rfl ((idle_of_step hstep hm hidle).1 t)

/-- What was done under one scheduler is a run of its own. -/
theorem Run.movesOf_run (h : Run delay history s) (era : Nat) :
    ∃ delay' tasks, Debounce.Run delay' (movesOf era history) tasks := by
  have haccounted := h.accounted
  rcases Nat.lt_trichotomy era s.era with hlt | rfl | hlt
  · obtain ⟨⟨delay', hrun⟩, -⟩ := haccounted.retired era _ (List.getElem?_eq_getElem hlt)
    exact ⟨delay', _, hrun⟩
  · obtain ⟨delay', hrun⟩ := haccounted.current
    exact ⟨delay', _, hrun⟩
  · rw [haccounted.later era hlt]
    exact ⟨0, _, .nil⟩

end Succession

/-- Whatever callers, timers, tasks and changes of the delay do, in whichever order: a call is refused exactly if
an action of its key was started that has not ended, with no change of the delay since it started; and between
two starts for a key the first action ended or the delay was changed. -/
theorem refused_until_change {delay : Nat} {history : List Deed} {s : Succession}
    (h : Succession.Run delay history s) (key : String) :
    ((s.current.run key).1 = false ↔
      ∃ before era t after, history = before ++ ⟨era, .start t⟩ :: after ∧ t.key = key ∧
        ⟨era, .finish t⟩ ∉ after ∧ ∀ e, ⟨e, .cancelAll⟩ ∉ after) ∧
    ∀ before era t between era' t' after,
      history = before ++ ⟨era, .start t⟩ :: between ++ ⟨era', .start t'⟩ :: after →
      t.key = key → t'.key = key → ⟨era, .finish t⟩ ∈ between ∨ ∃ e, ⟨e, .cancelAll⟩ ∈ between := by
  have haccounted := h.accounted
  constructor
  · obtain ⟨delay', hrun⟩ := haccounted.current
    rw [Tasks.run_eq_false_iff, hrun.sound.running]
    constructor
    · rintro ⟨t, hexecutes, hkey⟩
      obtain ⟨hstarted, hunfinished⟩ := (hrun.executing_iff.1 t).mp hexecutes
      obtain ⟨before, after, rfl⟩ := List.append_of_mem (mem_movesOf.mp hstarted)
      refine ⟨before, s.era, t, after, rfl, hkey, ?_, ?_⟩
      · intro hfinished
        exact hunfinished (mem_movesOf.mpr (by simp [hfinished]))
      · -- as many changes before the start as in all
        have hera := h.era_of_start rfl
        have htotal := haccounted.era
        rw [← List.singleton_append, changes_append, changes_append] at htotal
        exact changes_eq_zero_iff.mp (by omega)
    · rintro ⟨before, era, t, after, rfl, hkey, hunfinished, hunchanged⟩
      have hera : era = s.era := by
        rw [h.era_of_start rfl, haccounted.era, ← List.singleton_append, changes_append, changes_append,
          changes_eq_zero_iff.mpr hunchanged]
        rfl
      subst hera
      rw [movesOf_append, movesOf_cons_self] at hrun
      refine ⟨t, (hrun.executing_iff.1 t).mpr ⟨by simp, ?_⟩, hkey⟩
      simp only [List.mem_append, List.mem_cons, reduceCtorEq, false_or, not_or]
      exact ⟨hrun.finish_notMem_before, fun hfinished => hunfinished (mem_movesOf.mp hfinished)⟩
  · rintro before era t between era' t' after hhistory rfl hkey
    by_cases hchanged : ∃ e, ⟨e, .cancelAll⟩ ∈ between
    · exact Or.inr hchanged
    · -- without a change both start under one scheduler
      obtain rfl : era = era' := by
        rw [h.era_of_start (hhistory.trans (List.append_assoc _ _ _)), h.era_of_start hhistory, changes_append,
          ← List.singleton_append, changes_append, changes_eq_zero_iff.mpr (not_exists.mp hchanged)]
        rfl
      obtain ⟨delay', tasks, hrun⟩ := h.movesOf_run era
      rw [hhistory, movesOf_append, movesOf_append, movesOf_cons_self, movesOf_cons_self, List.append_assoc,
        List.cons_append] at hrun
      exact Or.inl (mem_movesOf.mp (hrun.finish_between_starts hkey.symm))

/-- The delay is changed while an action executes, and its key is requested once more. -/
def changedMeanwhile : List Deed :=
  [⟨0, .accept ⟨"a", 1⟩⟩, ⟨0, .elapse ⟨"a", 1⟩⟩, ⟨0, .start ⟨"a", 1⟩⟩, ⟨0, .cancelAll⟩,
    ⟨1, .accept ⟨"a", 1⟩⟩, ⟨1, .elapse ⟨"a", 1⟩⟩, ⟨1, .start ⟨"a", 1⟩⟩]

theorem run_changedMeanwhile :
    (∃ s, Succession.Run 300 (changedMeanwhile.take 4) s ∧ s.executing = [⟨"a", 1⟩] ∧ s.current.scheduler.running = ∅) ∧
    ∃ s, Succession.Run 300 changedMeanwhile s ∧ s.executing = [⟨"a", 1⟩, ⟨"a", 1⟩] := by
  have h0 : Succession.Run 300 [] (.ofDelay 300) := .nil
  have h1 := h0.step (.act (.accept (rfl : Tasks.request? _ "a" = some (⟨"a", 1⟩, _))) (by simp))
  have h2 := h1.step (.act (@Step.elapse _ [] [] ⟨"a", 1⟩ rfl) (by simp))
  have h3 := h2.step (.act (@Step.start _ _ [] [] ⟨"a", 1⟩ rfl rfl) (by simp))
  have h4 := h3.step (@Succession.Step.change _ 100 (by decide))
  have h5 := h4.step (.act (.accept (rfl : Tasks.request? _ "a" = some (⟨"a", 1⟩, _))) (by simp))
  have h6 := h5.step (.act (@Step.elapse _ [] [] ⟨"a", 1⟩ rfl) (by simp))
  have h7 := h6.step (.act (@Step.start _ _ [] [] ⟨"a", 1⟩ rfl rfl) (by simp))
  exact ⟨⟨_, h4, rfl, rfl⟩, _, h7, rfl⟩

/-- A request is accepted while an action of its key executes, and then two of them execute. -/
theorem executing_twice_after_change :
    (∃ s, Succession.Run 300 (changedMeanwhile.take 4) s ∧ s.executing = [⟨"a", 1⟩] ∧ (s.current.run "a").1 = true) ∧
    ∃ s, Succession.Run 300 changedMeanwhile s ∧ s.executing = [⟨"a", 1⟩, ⟨"a", 1⟩] := by
  obtain ⟨⟨s, hrun, hexecuting, hrunning⟩, htwice⟩ := run_changedMeanwhile
  refine ⟨⟨s, hrun, hexecuting, ?_⟩, htwice⟩
  rw [← Bool.not_eq_false, Tasks.run_eq_false_iff, hrunning]
  simp

theorem refused_under_new_delay :
    ∃ s, Succession.Run 300 changedMeanwhile s ∧ s.executing = [⟨"a", 1⟩, ⟨"a", 1⟩] ∧ (s.current.run "a").1 = false := by
  obtain ⟨-, s, hrun, hexecuting⟩ := run_changedMeanwhile
  refine ⟨s, hrun, hexecuting, (refused_until_change hrun "a").1.mpr ?_⟩
  exact ⟨changedMeanwhile.take 6, 1, ⟨"a", 1⟩, [], rfl, rfl, by simp, by simp⟩

end SqfIndex.Debounce
