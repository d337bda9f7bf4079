import Mathlib.Data.List.Induction
import SqfIndex.Proofs.Debounce.Agenda
import SqfIndex.Proofs.Debounce.Lanes
import SqfIndex.Proofs.Workspace.Scheduling

/-!
# Edits that are dropped

An analysis that goes on keeps edits of its document out until it ends, or until the delay is changed:
`edit_dropped_until_change`. What executes is told by what was started since the last change (`mem_stops_play`). With
analyses that take no time, as `Workspace.sleep` lets them be, no edit is dropped: `accepted_after_sleep`.
-/

namespace SqfIndex.Workspace

open Debounce

/-- An analysis of the document was started that takes until `stop`, and the delay was not changed since. -/
def StartedUntil (s : Surroundings) (hold : Edit → Nat) (w : Workspace) (inputs : List Input) (uri : Uri) (stop : Nat) :
    Prop :=
  ∃ before ms after, inputs = before ++ .sleep ms :: after ∧
    (∃ p ∈ startsFor Edit.uri uri ((w.play s hold before).1.sleepWith s hold ms).2, p.1 + wait (hold p.2) = stop) ∧
    ∀ settings, .configure settings ∈ after → settings.debounceMs = (w.play s hold before).1.settings.debounceMs

variable {s : Surroundings} {hold : Edit → Nat} {w : Workspace} {uri : Uri} {stop time delay : Nat} {input : Input}
  {inputs : List Input}

/-! ## Runs -/

theorem traced_perform (h : w.agenda.Traced delay) (s : Surroundings) (hold : Edit → Nat) (input : Input) :
    (input.perform s hold w).1.agenda.Traced delay := by
  cases input with
  | schedule uri text =>
      refine perform_schedule (·.agenda.Traced delay) h fun w' haccepted => ?_
      obtain ⟨agenda, hagenda, rfl⟩ := Option.map_eq_some_iff.mp haccepted
      exact h.request? hagenda
  | configure settings => exact h.setDelay settings.debounceMs
  | sleep ms =>
      rw [Input.perform, sleepWith_agenda]
      exact h.advance _ _

theorem traced_play (h : w.agenda.Traced delay) (s : Surroundings) (hold : Edit → Nat) (inputs : List Input) :
    (w.play s hold inputs).1.agenda.Traced delay := by
  induction inputs generalizing w with
  | nil => exact h
  | cons input inputs ih => exact ih (traced_perform h s hold input)

theorem play_append (s : Surroundings) (hold : Edit → Nat) (w : Workspace) (before after : List Input) :
    (w.play s hold (before ++ after)).1 = ((w.play s hold before).1.play s hold after).1 := by
  induction before generalizing w with
  | nil => rfl
  | cons input before ih => exact ih (input.perform s hold w).1

theorem play_concat (s : Surroundings) (hold : Edit → Nat) (w : Workspace) (inputs : List Input) (input : Input) :
    (w.play s hold (inputs ++ [input])).1 = (input.perform s hold (w.play s hold inputs).1).1 :=
  play_append s hold w inputs [input]

theorem elapsed_append (before after : List Input) : elapsed (before ++ after) = elapsed before + elapsed after := by
  induction before with
  | nil => rw [List.nil_append, elapsed, Nat.zero_add]
  | cons input before ih => rw [List.cons_append, elapsed, elapsed, ih, Nat.add_assoc]

/-- Settings with the same delay, and whatever else is put in, leave the delay as it is. -/
theorem debounceMs_play (s : Surroundings) (hold : Edit → Nat)
    (h : ∀ settings, .configure settings ∈ inputs → settings.debounceMs = w.settings.debounceMs) :
    (w.play s hold inputs).1.settings.debounceMs = w.settings.debounceMs := by
  induction inputs generalizing w with
  | nil => rfl
  | cons input inputs ih =>
      have hnext : (input.perform s hold w).1.settings.debounceMs = w.settings.debounceMs := by
        cases input with
        | schedule uri text =>
            refine perform_schedule (·.settings.debounceMs = w.settings.debounceMs) rfl fun w' haccepted => ?_
            obtain ⟨timeline, -, rfl⟩ := schedule?_eq_some haccepted
            rfl
        | configure settings => exact h settings List.mem_cons_self
        | sleep ms => rw [Input.perform, sleepWith_settings]
      refine (ih ?_).trans hnext
      intro settings hmem
      exact (h settings (List.mem_cons_of_mem _ hmem)).trans hnext.symm

theorem debounceMs_since {before after : List Input} (ms : Nat)
    (h : ∀ settings, .configure settings ∈ after → settings.debounceMs = (w.play s hold before).1.settings.debounceMs) :
    (w.play s hold (before ++ .sleep ms :: after)).1.settings.debounceMs = (w.play s hold before).1.settings.debounceMs := by
  rw [play_append]
  exact debounceMs_play s hold fun settings hmem => h settings (by simpa using hmem)

theorem startsFor_sleepWith (s : Surroundings) (hold : Edit → Nat) (w : Workspace) (uri : Uri) (ms : Nat) :
    startsFor Edit.uri uri (w.sleepWith s hold ms).2 = startsFor Edit.uri uri (w.agenda.timeline.sleep hold ms).2 :=
  Agenda.startsFor_sleep ..

theorem le_of_mem_startsFor_sleepWith (h : w.Punctual time) {ms : Nat} {p : Nat × Edit}
    (hp : p ∈ startsFor Edit.uri uri (w.sleepWith s hold ms).2) : p.1 ≤ time + wait ms := by
  rw [startsFor_sleepWith] at hp
  rw [← h.now]
  exact Timeline.le_of_mem_startsFor_advance hp

/-! ## What goes on -/

theorem startedUntil_concat :
    StartedUntil s hold w (inputs ++ [input]) uri stop ↔
      (StartedUntil s hold w inputs uri stop ∧
        ∀ settings, input = .configure settings → settings.debounceMs = (w.play s hold inputs).1.settings.debounceMs) ∨
      ∃ ms, input = .sleep ms ∧
        ∃ p ∈ startsFor Edit.uri uri ((w.play s hold inputs).1.sleepWith s hold ms).2, p.1 + wait (hold p.2) = stop := by
  constructor
  · rintro ⟨before, ms, after, heq, hstarted, hsame⟩
    cases after using List.reverseRecOn with
    | nil =>
        obtain ⟨rfl, hlast⟩ := List.append_inj' heq rfl
        exact Or.inr ⟨ms, List.singleton_inj.mp hlast, hstarted⟩
    | append_singleton after last =>
        rw [← List.cons_append, ← List.append_assoc] at heq
        obtain ⟨rfl, hlast⟩ := List.append_inj' heq rfl
        have hbefore := fun settings hmem => hsame settings (List.mem_append_left [last] hmem)
        refine Or.inl ⟨⟨before, ms, after, rfl, hstarted, hbefore⟩, ?_⟩
        rintro settings rfl
        rw [debounceMs_since ms hbefore]
        exact hsame settings (by simp [List.singleton_inj.mp hlast])
  · rintro (⟨⟨before, ms, after, rfl, hstarted, hsame⟩, hlast⟩ | ⟨ms, rfl, hstarted⟩)
    · refine ⟨before, ms, after ++ [input], by simp, hstarted, ?_⟩
      intro settings hmem
      rcases List.mem_append.mp hmem with hmem | hmem
      · exact hsame settings hmem
      · rw [hlast settings (List.mem_singleton.mp hmem).symm, debounceMs_since ms hsame]
    · exact ⟨inputs, ms, [], rfl, hstarted, by simp⟩

/-- One input: what goes on stays if it is not over and the delay stays the same, and passing time starts more. -/
theorem mem_stops_perform (h : w.Punctual time) (hlater : ∀ stop ∈ w.agenda.timeline.stops uri, time < stop) :
    stop ∈ (input.perform s hold w).1.agenda.timeline.stops uri ↔
      ((stop ∈ w.agenda.timeline.stops uri ∧
          ∀ settings, input = .configure settings → settings.debounceMs = w.settings.debounceMs) ∨
        ∃ ms, input = .sleep ms ∧
          ∃ p ∈ startsFor Edit.uri uri (w.sleepWith s hold ms).2, p.1 + wait (hold p.2) = stop) ∧
      time + input.span < stop := by
  cases input with
  | schedule uri' text =>
      have hsame : ((Input.schedule uri' text).perform s hold w).1.agenda.timeline.stops uri =
          w.agenda.timeline.stops uri := by
        refine perform_schedule (·.agenda.timeline.stops uri = w.agenda.timeline.stops uri) rfl fun w' haccepted => ?_
        obtain ⟨timeline, htimeline, rfl⟩ := schedule?_eq_some haccepted
        rw [Timeline.request?_eq_some htimeline]
        rfl
      simpa [hsame, Input.span] using hlater stop
  | configure settings =>
      show stop ∈ (w.agenda.setDelay settings.debounceMs).timeline.stops uri ↔ _
      by_cases hsame : settings.debounceMs = w.settings.debounceMs
      · rw [Agenda.setDelay_same (h.delay.trans hsame.symm)]
        simpa [hsame, Input.span] using hlater stop
      · have hdelay : w.agenda.timeline.scheduler.delay ≠ settings.debounceMs := fun heq => hsame (heq.symm.trans h.delay)
        rw [Agenda.setDelay, if_neg hdelay]
        simp [hsame, Timeline.stops]
  | sleep ms =>
      have hstops := Timeline.stops_advance h.orderly (fun edit => wait (hold edit)) (w.agenda.timeline.now + wait ms) uri
      rw [Input.perform, sleepWith_agenda]
      show stop ∈ (w.agenda.timeline.advance _ _).1.stops uri ↔ _
      rw [hstops, List.mem_filter, List.mem_append, List.mem_map, decide_eq_true_eq]
      simp [startsFor_sleepWith, Timeline.sleep, h.now, Input.span]

/-- What goes on of a document was started since the delay was last changed, and is not over. -/
theorem mem_stops_play (s : Surroundings) (hold : Edit → Nat) (settings : Settings) (inputs : List Input) (uri : Uri)
    (stop : Nat) :
    stop ∈ ((ofSettings settings).play s hold inputs).1.agenda.timeline.stops uri ↔
      StartedUntil s hold (ofSettings settings) inputs uri stop ∧ elapsed inputs < stop := by
  induction inputs using List.reverseRecOn generalizing stop with
  | nil => simp [StartedUntil, play, ofSettings, Agenda.ofDelay, Timeline.stops]
  | append_singleton inputs input ih =>
      have hpunctual := (Punctual.ofSettings settings).play s hold inputs
      rw [Nat.zero_add] at hpunctual
      have hspan : elapsed (inputs ++ [input]) = elapsed inputs + input.span := elapsed_append inputs [input]
      rw [play_concat, mem_stops_perform hpunctual fun stop hstop => ((ih stop).mp hstop).2, ih, startedUntil_concat, hspan]
      have hearlier : elapsed inputs + input.span < stop → elapsed inputs < stop := by omega
      tauto

/-! ## Edits that are dropped -/

/-- An edit is dropped exactly if its document is being analyzed since a start under the delay in force. -/
theorem schedule?_eq_none_iff (h : w.agenda.Traced delay) (uri : Uri) (text : List Char) :
    w.schedule? uri text = none ↔ ∃ stop, stop ∈ w.agenda.timeline.stops uri := by
  refine Option.map_eq_none_iff.trans ((h.request?_eq_none_iff uri ⟨uri, text⟩).trans ?_)
  constructor
  · rintro ⟨e, he⟩
    exact ⟨e.stop, by simp [Timeline.stops, he]⟩
  · rintro ⟨stop, hstop⟩
    obtain ⟨e, he, -⟩ := List.mem_map.mp hstop
    obtain ⟨delay, htimeline⟩ := h.timeline
    exact List.length_eq_one_iff.mp (Nat.le_antisymm (htimeline.length_executing_le uri) (List.length_pos_of_mem he))

/-- However long analyses take, and whatever was scheduled, configured and waited for: an edit is dropped exactly if an
analysis of its document was started that is not over, with no change of the delay since it started. -/
theorem edit_dropped_until_change (s : Surroundings) (hold : Edit → Nat) (settings : Settings) (inputs : List Input)
    (uri : Uri) (text : List Char) :
    ((ofSettings settings).play s hold inputs).1.schedule? uri text = none ↔
      ∃ stop, StartedUntil s hold (ofSettings settings) inputs uri stop ∧ elapsed inputs < stop := by
  have hstart : (ofSettings settings).agenda.Traced settings.debounceMs := .ofDelay settings.debounceMs
  rw [schedule?_eq_none_iff (traced_play hstart s hold inputs)]
  exact exists_congr fun stop => mem_stops_play s hold settings inputs uri stop

/-- Analyses that take no time are over when they have started, and then no edit is dropped. -/
theorem accepted_after_sleep (s : Surroundings) (settings : Settings) (inputs : List Input) (ms : Nat) (uri : Uri)
    (text : List Char) :
    (((ofSettings settings).play s (fun _ => 0) inputs).1.sleep s ms).1.schedule? uri text ≠ none := by
  have hrun : (((ofSettings settings).play s (fun _ => 0) inputs).1.sleep s ms).1 =
      ((ofSettings settings).play s (fun _ => 0) (inputs ++ [.sleep ms])).1 := by
    rw [play_concat, sleep_eq_sleepWith]
    rfl
  rw [hrun, Ne, edit_dropped_until_change]
  rintro ⟨stop, ⟨before, ms', after, heq, ⟨p, hp, rfl⟩, -⟩, hlater⟩
  have hpunctual := (Punctual.ofSettings settings).play s (fun _ => 0) before
  have hstart := le_of_mem_startsFor_sleepWith hpunctual hp
  -- the analysis ended as it started
  replace hlater : elapsed (inputs ++ [.sleep ms]) < p.1 := hlater
  rw [heq, elapsed_append, elapsed, Input.span] at hlater
  omega

end SqfIndex.Workspace
