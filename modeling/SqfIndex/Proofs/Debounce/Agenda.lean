import SqfIndex.Debounce.Agenda
import SqfIndex.Proofs.Debounce.Succession
import SqfIndex.Proofs.Debounce.Timeline

/-!
# Agendas as runs

An agenda is to a succession of schedulers what a timeline is to one of them: its state is that of a run
(`Agenda.Traced`), with the actions that are detached still executing under the schedulers before.
-/

namespace SqfIndex.Debounce

variable {α : Type} {delay : Nat}

/-! ## Ends of detached actions -/

namespace Succession

variable {history : List Deed}

theorem exists_executing {retired : List Tasks} {before after : List Ticket} {t : Ticket}
    (h : retired.flatMap (·.executing) = before ++ t :: after) :
    ∃ earlier tasks later started others, retired = earlier ++ tasks :: later ∧ tasks.executing = started ++ t :: others ∧
      before = earlier.flatMap (·.executing) ++ started ∧ after = others ++ later.flatMap (·.executing) := by
  induction retired generalizing before with
  | nil => simp at h
  | cons tasks retired ih =>
      rw [List.flatMap_cons, List.append_eq_append_iff] at h
      rcases h with ⟨rest, rfl, hrest⟩ | ⟨rest, hexecuting, hrest⟩
      · obtain ⟨earlier, tasks', later, started, others, rfl, hexecuting, rfl, rfl⟩ := ih hrest
        exact ⟨tasks :: earlier, tasks', later, started, others, rfl, hexecuting, by simp, rfl⟩
      · cases rest with
        | nil =>
            obtain ⟨earlier, tasks', later, started, others, rfl, hexecuting', hbefore, rfl⟩ :=
              @ih [] (by simpa using hrest.symm)
            refine ⟨tasks :: earlier, tasks', later, started, others, rfl, hexecuting', ?_, rfl⟩
            rw [List.append_nil] at hexecuting
            rw [List.flatMap_cons, List.append_assoc, ← hbefore, hexecuting, List.append_nil]
        | cons t' others =>
            cases hrest
            exact ⟨[], tasks, retired, before, others, rfl, hexecuting, rfl, rfl⟩

/-- An action of an earlier scheduler ends, and nothing else changes. -/
theorem Run.finish_retired {retired : List Tasks} {tasks : Tasks} (h : Run delay history ⟨tasks, retired⟩)
    {before after : List Ticket} {t : Ticket} (hexecuting : retired.flatMap (·.executing) = before ++ t :: after) :
    ∃ history' retired', Run delay history' ⟨tasks, retired'⟩ ∧ retired'.flatMap (·.executing) = before ++ after := by
  obtain ⟨earlier, tasks', later, started, others, rfl, htasks, rfl, rfl⟩ := exists_executing hexecuting
  refine ⟨_, _, h.step (.linger rfl (.finish htasks) (by simp [Move.IsCall])), ?_⟩
  simp

theorem Run.keep_retired {retired : List Tasks} {tasks : Tasks} (h : Run delay history ⟨tasks, retired⟩)
    (p : Execution α → Bool) {kept : List Ticket} {es : List (Execution α)}
    (hexecuting : retired.flatMap (·.executing) = kept ++ es.map Execution.ticket) :
    ∃ history' retired', Run delay history' ⟨tasks, retired'⟩ ∧
      retired'.flatMap (·.executing) = kept ++ (es.filter p).map Execution.ticket := by
  induction es generalizing history retired kept with
  | nil => exact ⟨history, retired, h, hexecuting⟩
  | cons e es ih =>
      by_cases he : p e
      · rw [List.map_cons, List.append_cons] at hexecuting
        rw [List.filter_cons_of_pos he, List.map_cons, List.append_cons]
        exact ih h hexecuting
      · obtain ⟨history', retired', h', hretired'⟩ := h.finish_retired hexecuting
        rw [List.filter_cons_of_neg he]
        exact ih h' hretired'

end Succession

/-! ## The run of an agenda -/

namespace Agenda

variable {a a' : Agenda α}

/-- Tasks that some run leads to, with the given ones under the schedulers before. -/
def Reached (delay : Nat) (retired : List Tasks) (tasks : Tasks) : Prop :=
  ∃ history, Succession.Run delay history ⟨tasks, retired⟩

theorem kept_reached (delay : Nat) (retired : List Tasks) : Kept (Reached delay retired) := by
  rintro s m s' ⟨history, hrun⟩ hstep hm
  exact ⟨_, hrun.step (.act hstep hm)⟩

/-- Some run leads to where the agenda is. -/
def Traced (delay : Nat) (a : Agenda α) : Prop :=
  ∃ retired, Followed (Reached delay retired) a.timeline ∧ retired.flatMap (·.executing) = a.detached.map Execution.ticket

theorem Traced.ofDelay (delay : Nat) : Traced delay (ofDelay delay : Agenda α) :=
  ⟨[], ⟨_, ⟨[], .nil⟩, ⟨rfl, rfl, rfl, rfl⟩⟩, rfl⟩

theorem Traced.request? (h : Traced delay a) {key : String} {action : α} (hrequest : a.request? key action = some a') :
    Traced delay a' := by
  obtain ⟨retired, hfollowed, hdetached⟩ := h
  obtain ⟨timeline, htimeline, rfl⟩ := Option.map_eq_some_iff.mp hrequest
  exact ⟨retired, hfollowed.request? (kept_reached delay retired) htimeline, hdetached⟩

theorem Traced.setDelay (h : Traced delay a) (delay' : Nat) : Traced delay (a.setDelay delay') := by
  unfold Agenda.setDelay
  split
  · exact h
  · next hdelay =>
    obtain ⟨retired, ⟨tasks, ⟨history, hrun⟩, hfollows⟩, hdetached⟩ := h
    have hchange : tasks.scheduler.delay ≠ delay' := by rwa [hfollows.scheduler]
    have hnext := hrun.step (.change hchange)
    rw [Succession.setDelay, if_neg hchange] at hnext
    refine ⟨_, ⟨_, ⟨_, hnext⟩, ⟨rfl, rfl, rfl, rfl⟩⟩, ?_⟩
    rw [List.flatMap_append, List.flatMap_singleton, hdetached, List.map_append, ← hfollows.executing]
    rfl

theorem Traced.advance (h : Traced delay a) (hold : α → Nat) (target : Nat) : Traced delay (a.advance hold target).1 := by
  obtain ⟨retired, hfollowed, hdetached⟩ := h
  obtain ⟨tasks, ⟨history, hrun⟩, hfollows⟩ := hfollowed.advance (kept_reached delay retired) hold target
  rw [← List.nil_append (a.detached.map _)] at hdetached
  obtain ⟨history', retired', hrun', hretired'⟩ := hrun.keep_retired (target < ·.stop) hdetached
  exact ⟨retired', ⟨tasks, ⟨history', hrun'⟩, hfollows⟩, hretired'⟩

/-- The timeline in use is where a run under its scheduler leads to. -/
theorem Traced.timeline (h : Traced delay a) : ∃ delay', Debounce.Traced delay' a.timeline := by
  obtain ⟨retired, ⟨tasks, ⟨history, hrun⟩, hfollows⟩, -⟩ := h
  obtain ⟨delay', hcurrent⟩ := hrun.accounted.current
  exact ⟨delay', tasks, ⟨_, hcurrent⟩, hfollows⟩

/-- A request is dropped exactly if an action of its key executes that was started under the delay in force, of
which there is one at most. -/
theorem Traced.request?_eq_none_iff (h : Traced delay a) (key : String) (action : α) :
    a.request? key action = none ↔ ∃ e, a.timeline.executing.filter (·.key = key) = [e] := by
  obtain ⟨delay', htimeline⟩ := h.timeline
  rw [← htimeline.running_iff, ← Scheduler.request?_eq_none_iff]
  simp [Agenda.request?, Timeline.request?]

end Agenda

end SqfIndex.Debounce
