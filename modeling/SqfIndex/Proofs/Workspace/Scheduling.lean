import SqfIndex.Proofs.Debounce.Deadlines
import SqfIndex.Workspace.State

/-!
# Edits and their analyses

Edits are scheduled, settings change and time passes. An edit that is accepted and not superseded is analyzed
once, when its delay has passed, provided that no change of the settings before that changes the delay
(`DueIn`): `edit_analyzed_unless_delay_changed`. A change of the delay takes all edits back that have not been
analyzed, and nobody is told.
-/

namespace SqfIndex.Workspace

open Debounce

/-- What can happen to a workspace from outside. -/
inductive Input
  | schedule (uri : Uri) (text : List Char)
  | configure (settings : Settings)
  | sleep (ms : Nat)

/-- Analyzes the document of an action that starts. -/
def carryOut (s : Surroundings) (w : Workspace) : Event Edit → Workspace
  | .started _ edit => (w.analyze s edit.uri edit.text).1
  | .stopped _ _ => w

/-- Lets time pass, with analyses that take as long as `hold` says. What an analysis does is done as it starts. -/
def sleepWith (s : Surroundings) (hold : Edit → Nat) (ms : Nat) (w : Workspace) : Workspace × List (Event Edit) :=
  let (agenda, events) := w.agenda.sleep hold ms
  (events.foldl (carryOut s) { w with agenda }, events)

def Input.perform (s : Surroundings) (hold : Edit → Nat) (w : Workspace) : Input → Workspace × List (Event Edit)
  | schedule uri text => ((w.schedule? uri text).getD w, [])
  | configure settings => (w.configure settings, [])
  | sleep ms => w.sleepWith s hold ms

/-- The workspace after some inputs, and all that was started and ended. -/
def play (s : Surroundings) (hold : Edit → Nat) : Workspace → List Input → Workspace × List (Event Edit)
  | w, [] => (w, [])
  | w, input :: inputs =>
    let (next, events) := input.perform s hold w
    let (final, later) := next.play s hold inputs
    (final, events ++ later)

def Input.span : Input → Nat
  | sleep ms => wait ms
  | schedule _ _ | configure _ => 0

/-- How much time passes. -/
def elapsed : List Input → Nat
  | [] => 0
  | input :: inputs => input.span + elapsed inputs

/-- The given time passes, and until then the delay stays the same. -/
def DueIn (delay time : Nat) (inputs : List Input) : Prop :=
  ∃ before ms after, inputs = before ++ .sleep ms :: after ∧ time ≤ elapsed before + wait ms ∧
    ∀ settings, .configure settings ∈ before → settings.debounceMs = delay

/-- No edit of the document is accepted. -/
def Unedited (s : Surroundings) (hold : Edit → Nat) (w : Workspace) (inputs : List Input) (uri : Uri) : Prop :=
  ∀ before text after, inputs = before ++ .schedule uri text :: after →
    (w.play s hold before).1.schedule? uri text = none

section

variable {s : Surroundings} {hold : Edit → Nat} {w w' : Workspace} {uri : Uri} {text : List Char}

/-! ## Passing time -/

theorem play_cons (s : Surroundings) (hold : Edit → Nat) (w : Workspace) (input : Input) (inputs : List Input) :
    w.play s hold (input :: inputs) =
      (((input.perform s hold w).1.play s hold inputs).1,
        (input.perform s hold w).2 ++ ((input.perform s hold w).1.play s hold inputs).2) := rfl

theorem foldl_carryOut (s : Surroundings) (events : List (Event Edit)) (w : Workspace) :
    (events.foldl (carryOut s) w).agenda = w.agenda ∧ (events.foldl (carryOut s) w).settings = w.settings := by
  induction events generalizing w with
  | nil => exact ⟨rfl, rfl⟩
  | cons event events ih =>
      obtain ⟨hagenda, hsettings⟩ := ih (carryOut s w event)
      rw [List.foldl_cons, hagenda, hsettings]
      cases event <;> exact ⟨rfl, rfl⟩

theorem sleepWith_agenda (s : Surroundings) (hold : Edit → Nat) (ms : Nat) (w : Workspace) :
    (w.sleepWith s hold ms).1.agenda = (w.agenda.sleep hold ms).1 := (foldl_carryOut s _ _).1

theorem sleepWith_settings (s : Surroundings) (hold : Edit → Nat) (ms : Nat) (w : Workspace) :
    (w.sleepWith s hold ms).1.settings = w.settings := (foldl_carryOut s _ _).2

/-- Analyses that take no time. -/
theorem sleep_eq_sleepWith (s : Surroundings) (ms : Nat) (w : Workspace) :
    (w.sleep s ms).1 = (w.sleepWith s (fun _ => 0) ms).1 := by
  unfold sleep sleepWith
  refine (List.foldl_hom Prod.fst ?_).symm
  rintro ⟨w, notices⟩ event
  cases event <;> rfl

/-! ## What the agenda is like at all times -/

/-- The delay is that of the settings, the clock shows the time, and the timers are those of edits. -/
structure Punctual (w : Workspace) (time : Nat) : Prop where
  delay : w.agenda.timeline.scheduler.delay = w.settings.debounceMs
  now : w.agenda.timeline.now = time
  orderly : w.agenda.timeline.Orderly Edit.uri

variable {time : Nat} {input : Input} {inputs : List Input} {v : Timer Edit}

theorem Punctual.ofSettings (settings : Settings) : (ofSettings settings).Punctual 0 := ⟨rfl, rfl, .start _ _ _⟩

theorem schedule?_eq_some (h : w.schedule? uri text = some w') :
    ∃ timeline, w.agenda.timeline.request? uri ⟨uri, text⟩ = some timeline ∧
      w' = { w with agenda := { w.agenda with timeline } } := by
  obtain ⟨agenda, hagenda, rfl⟩ := Option.map_eq_some_iff.mp h
  obtain ⟨timeline, htimeline, rfl⟩ := Option.map_eq_some_iff.mp hagenda
  exact ⟨timeline, htimeline, rfl⟩

/-- An edit is dropped or accepted. -/
theorem perform_schedule (P : Workspace → Prop) (hdropped : P w) (haccepted : ∀ w', w.schedule? uri text = some w' → P w') :
    P ((Input.schedule uri text).perform s hold w).1 := by
  rw [Input.perform]
  cases h : w.schedule? uri text with
  | none => exact hdropped
  | some w' => exact haccepted w' h

theorem Punctual.schedule? (h : w.Punctual time) (haccepted : w.schedule? uri text = some w') : w'.Punctual time := by
  obtain ⟨timeline, htimeline, rfl⟩ := schedule?_eq_some haccepted
  have horderly : timeline.Orderly Edit.uri := h.orderly.request? htimeline rfl
  have hkept := Timeline.request?_eq_some htimeline
  exact ⟨by rw [hkept]; exact h.delay, by rw [hkept]; exact h.now, horderly⟩

theorem Punctual.sleepWith (h : w.Punctual time) (s : Surroundings) (hold : Edit → Nat) (ms : Nat) :
    (w.sleepWith s hold ms).1.Punctual (time + wait ms) := by
  obtain ⟨horderly, hdelay, hnow⟩ := h.orderly.advance (fun edit => wait (hold edit)) (w.agenda.timeline.now + wait ms)
  constructor
  · rw [sleepWith_agenda, sleepWith_settings, ← h.delay]
    exact hdelay
  · rw [sleepWith_agenda, ← h.now]
    exact hnow
  · rw [sleepWith_agenda]
    exact horderly

theorem Punctual.perform (h : w.Punctual time) (s : Surroundings) (hold : Edit → Nat) (input : Input) :
    (input.perform s hold w).1.Punctual (time + input.span) := by
  cases input with
  | schedule uri text => exact perform_schedule (Punctual · time) h fun _ haccepted => h.schedule? haccepted
  | configure settings =>
      obtain ⟨horderly, hdelay, hnow⟩ := Agenda.Orderly.setDelay h.orderly settings.debounceMs
      exact ⟨hdelay, hnow.trans h.now, horderly⟩
  | sleep ms => exact h.sleepWith s hold ms

theorem Punctual.play (h : w.Punctual time) (s : Surroundings) (hold : Edit → Nat) (inputs : List Input) :
    (w.play s hold inputs).1.Punctual (time + elapsed inputs) := by
  induction inputs generalizing w time with
  | nil => exact h
  | cons input inputs ih =>
      have hrest := ih (h.perform s hold input)
      rwa [Nat.add_assoc] at hrest

/-! ## What becomes due -/

theorem dueIn_cons {delay time : Nat} :
    DueIn delay time (input :: inputs) ↔
      (∃ ms, input = .sleep ms ∧ time ≤ wait ms) ∨
      (∀ settings, input = .configure settings → settings.debounceMs = delay) ∧ DueIn delay (time - input.span) inputs := by
  constructor
  · rintro ⟨before, ms, after, heq, htime, hsame⟩
    cases before with
    | nil =>
        cases heq
        exact Or.inl ⟨ms, rfl, by simpa [elapsed] using htime⟩
    | cons first before =>
        cases heq
        refine Or.inr ⟨fun settings hfirst => hsame settings (by simp [hfirst]), before, ms, after, rfl, ?_, ?_⟩
        · simp only [elapsed] at htime ⊢
          omega
        · exact fun settings hmem => hsame settings (List.mem_cons_of_mem _ hmem)
  · rintro (⟨ms, rfl, htime⟩ | ⟨hfirst, before, ms, after, rfl, htime, hsame⟩)
    · exact ⟨[], ms, inputs, rfl, by simpa [elapsed] using htime, by simp⟩
    · refine ⟨input :: before, ms, after, rfl, ?_, ?_⟩
      · simp only [elapsed] at htime ⊢
        omega
      · intro settings hmem
        rcases List.mem_cons.mp hmem with heq | hmem
        · exact hfirst settings heq.symm
        · exact hsame settings hmem

/-! ## Timers of edits -/

theorem unedited_of_notMem (h : ∀ text, .schedule uri text ∉ inputs) : Unedited s hold w inputs uri := by
  rintro before text after rfl
  exact absurd (by simp) (h text)

theorem Unedited.ne_of_accepted {uri' : Uri} (h : Unedited s hold w (.schedule uri' text :: inputs) uri)
    (haccepted : w.schedule? uri' text = some w') : uri' ≠ uri := by
  rintro rfl
  have hdropped : w.schedule? uri' text = none := h [] text inputs rfl
  rw [hdropped] at haccepted
  cases haccepted

theorem Unedited.tail (h : Unedited s hold w (input :: inputs) uri) :
    Unedited s hold (input.perform s hold w).1 inputs uri := by
  intro before text after heq
  exact h (input :: before) text after (by rw [heq]; rfl)

theorem perform_unarmed (h : w.Punctual time) (hkey : uri ∉ w.agenda.timeline.scheduler.pending)
    (hunedited : Unedited s hold w (input :: inputs) uri) :
    uri ∉ (input.perform s hold w).1.agenda.timeline.scheduler.pending ∧
      startsFor Edit.uri uri (input.perform s hold w).2 = [] := by
  cases input with
  | schedule uri' text =>
      refine ⟨perform_schedule (uri ∉ ·.agenda.timeline.scheduler.pending) hkey fun w' haccepted => ?_, rfl⟩
      obtain ⟨timeline, htimeline, rfl⟩ := schedule?_eq_some haccepted
      exact Timeline.unarmed_of_request? hkey htimeline (hunedited.ne_of_accepted haccepted)
  | configure settings =>
      refine ⟨?_, rfl⟩
      show uri ∉ (w.agenda.setDelay settings.debounceMs).timeline.scheduler.pending
      by_cases hsame : w.agenda.timeline.scheduler.delay = settings.debounceMs
      · rwa [Agenda.setDelay_same hsame]
      · exact Agenda.setDelay_unarmed hsame uri
  | sleep ms =>
      obtain ⟨hafter, hstarts⟩ :=
        Timeline.advance_unarmed h.orderly hkey (fun edit => wait (hold edit)) (w.agenda.timeline.now + wait ms)
      rw [Input.perform, sleepWith_agenda]
      exact ⟨hafter, (Agenda.startsFor_sleep _ _ _ _ _).trans hstarts⟩

theorem starts_unarmed (h : w.Punctual time) (hkey : uri ∉ w.agenda.timeline.scheduler.pending)
    (hunedited : Unedited s hold w inputs uri) : startsFor Edit.uri uri (w.play s hold inputs).2 = [] := by
  induction inputs generalizing w time with
  | nil => rfl
  | cons input inputs ih =>
      obtain ⟨hnext, hstarts⟩ := perform_unarmed h hkey hunedited
      rw [play_cons, startsFor_append, hstarts]
      exact ih (h.perform s hold input) hnext hunedited.tail

/-- An input leaves an armed timer alone, lets it go off or disarms it. -/
theorem perform_armed (h : w.Punctual time) (harmed : w.agenda.timeline.Armed v)
    (hunedited : Unedited s hold w (input :: inputs) v.key) :
    let next := (input.perform s hold w).1
    let starts := startsFor Edit.uri v.key (input.perform s hold w).2
    let due := DueIn w.settings.debounceMs (v.due - time) (input :: inputs)
    (next.agenda.timeline.Armed v ∧ starts = [] ∧
      (due ↔ DueIn next.settings.debounceMs (v.due - (time + input.span)) inputs)) ∨
    (v.key ∉ next.agenda.timeline.scheduler.pending ∧ starts = [(v.due, v.action)] ∧ due) ∨
    (v.key ∉ next.agenda.timeline.scheduler.pending ∧ starts = [] ∧ ¬ due) := by
  simp only [dueIn_cons]
  cases input with
  | schedule uri text =>
      have hnext : let next := ((Input.schedule uri text).perform s hold w).1
          next.agenda.timeline.Armed v ∧ next.settings = w.settings := by
        refine perform_schedule (fun next => next.agenda.timeline.Armed v ∧ next.settings = w.settings) ⟨harmed, rfl⟩ ?_
        intro w' haccepted
        obtain ⟨timeline, htimeline, rfl⟩ := schedule?_eq_some haccepted
        exact ⟨harmed.request? htimeline (hunedited.ne_of_accepted haccepted), rfl⟩
      exact Or.inl ⟨hnext.1, rfl, by simp [hnext.2, Input.span]⟩
  | configure settings =>
      by_cases hsame : settings.debounceMs = w.settings.debounceMs
      · refine Or.inl ⟨?_, rfl, by simp [Input.perform, configure, Input.span, hsame]⟩
        show (w.agenda.setDelay settings.debounceMs).timeline.Armed v
        rwa [Agenda.setDelay_same (h.delay.trans hsame.symm)]
      · refine Or.inr (Or.inr ⟨?_, rfl, by simp [hsame]⟩)
        exact Agenda.setDelay_unarmed (fun heq => hsame (heq.symm.trans h.delay)) v.key
  | sleep ms =>
      have hstarts := Agenda.startsFor_sleep Edit.uri v.key hold ms w.agenda
      have hnow := h.now
      simp only [Input.perform, sleepWith_agenda, sleepWith_settings]
      rcases Timeline.advance_armed h.orderly harmed (fun edit => wait (hold edit)) (w.agenda.timeline.now + wait ms) with
        ⟨hlt, hstill, hnone⟩ | ⟨hle, hgone, hone⟩
      · have hlater : ¬ v.due ≤ wait ms + time := by omega
        exact Or.inl ⟨hstill, hstarts.trans hnone, by simp [Input.span, hlater, Nat.sub_sub]⟩
      · exact Or.inr (Or.inl ⟨hgone, hstarts.trans hone, Or.inl ⟨ms, rfl, by omega⟩⟩)

theorem starts_armed (h : w.Punctual time) (harmed : w.agenda.timeline.Armed v)
    (hunedited : Unedited s hold w inputs v.key) :
    let starts := startsFor Edit.uri v.key (w.play s hold inputs).2
    let due := DueIn w.settings.debounceMs (v.due - time) inputs
    (due → starts = [(v.due, v.action)]) ∧ (¬ due → starts = []) := by
  induction inputs generalizing w time with
  | nil =>
      refine ⟨?_, fun _ => rfl⟩
      rintro ⟨before, ms, after, heq, -⟩
      simp at heq
  | cons input inputs ih =>
      -- the clock moves on, and with it what is left to wait for
      have hnext := h.perform s hold input
      simp only [play_cons, startsFor_append]
      rcases perform_armed h harmed hunedited with ⟨hstill, hnone, hdue⟩ | ⟨hgone, hone, hdue⟩ | ⟨hgone, hnone, hdue⟩
      · rw [hnone, hdue]
        exact ih hnext hstill hunedited.tail
      · rw [hone, starts_unarmed hnext hgone hunedited.tail]
        exact ⟨fun _ => rfl, fun hnot => absurd hdue hnot⟩
      · rw [hnone, starts_unarmed hnext hgone hunedited.tail]
        exact ⟨fun hdue' => absurd hdue' hdue, fun _ => rfl⟩

theorem armed_of_schedule? (haccepted : w.schedule? uri text = some w') :
    w'.agenda.timeline.Armed ⟨w.agenda.timeline.scheduler.issued + 1, uri,
      w.agenda.timeline.now + wait w.agenda.timeline.scheduler.delay, ⟨uri, text⟩⟩ ∧ w'.settings = w.settings := by
  obtain ⟨timeline, htimeline, rfl⟩ := schedule?_eq_some haccepted
  exact ⟨Timeline.armed_of_request? htimeline, rfl⟩

/-- What becomes of an edit that is accepted, if no later one of the document is. -/
theorem starts_of_schedule? (h : w.Punctual time) (haccepted : w.schedule? uri text = some w')
    (hunedited : Unedited s hold w' inputs uri) :
    let delay := w.settings.debounceMs
    let starts := startsFor Edit.uri uri (w'.play s hold inputs).2
    (DueIn delay (wait delay) inputs → starts = [(time + wait delay, ⟨uri, text⟩)]) ∧
    (¬ DueIn delay (wait delay) inputs → starts = []) := by
  obtain ⟨harmed, hsettings⟩ := armed_of_schedule? haccepted
  rw [h.now, h.delay] at harmed
  have hstarts := starts_armed (h.schedule? haccepted) harmed hunedited
  rwa [hsettings, Nat.add_sub_cancel_left] at hstarts

end

/-- However long analyses take: an edit that is accepted, after whatever was scheduled, configured and waited for,
with no later edit of its document accepted, is analyzed once, when the delay that is in force has passed, if the
delay stays the same until then. Otherwise the document is not analyzed. -/
theorem edit_analyzed_unless_delay_changed (s : Surroundings) (hold : Edit → Nat) (settings : Settings)
    (earlier later : List Input) (uri : Uri) (text : List Char) (w w' : Workspace)
    (hw : ((ofSettings settings).play s hold earlier).1 = w) (haccepted : w.schedule? uri text = some w')
    (hunedited : Unedited s hold w' later uri) :
    let delay := w.settings.debounceMs
    let starts := startsFor Edit.uri uri (w'.play s hold later).2
    (DueIn delay (wait delay) later → starts = [(elapsed earlier + wait delay, ⟨uri, text⟩)]) ∧
    (¬ DueIn delay (wait delay) later → starts = []) := by
  have hpunctual := (Punctual.ofSettings settings).play s hold earlier
  rw [hw, Nat.zero_add] at hpunctual
  exact starts_of_schedule? hpunctual haccepted hunedited

def noFiles : Surroundings := { read := fun _ => .error .notFound }

/-- The settings change before an edit is due, but not the delay. -/
theorem edit_analyzed_under_new_settings :
    ∃ w, ((ofSettings { debounceMs := 300 }).configure { debounceMs := 200 }).schedule? "file:///a.sqf" ['x', ';'] = some w ∧
      startsFor Edit.uri "file:///a.sqf" (w.play noFiles (fun _ => 0)
        [.sleep 150, .configure { debounceMs := 200, warnings := false }, .sleep 50]).2 =
        [(200, ⟨"file:///a.sqf", ['x', ';']⟩)] := by
  refine ⟨_, rfl, ?_⟩
  refine (edit_analyzed_unless_delay_changed noFiles (fun _ => 0) { debounceMs := 300 }
    [.configure { debounceMs := 200 }] _ _ _ _ _ rfl rfl (unedited_of_notMem (by simp))).1 ?_
  refine ⟨[.sleep 150, .configure { debounceMs := 200, warnings := false }], 50, [], rfl, by decide, ?_⟩
  intro settings hmem
  obtain rfl : settings = { debounceMs := 200, warnings := false } := by simpa using hmem
  rfl

/-- The delay changes before an edit is due, and then both the old and the new one pass. -/
theorem edit_lost_by_change :
    let later := [.sleep 50, .configure { debounceMs := 100 }, .sleep 1000]
    wait 200 ≤ elapsed later ∧ wait 100 ≤ elapsed later ∧
    ∃ w, (ofSettings { debounceMs := 200 }).schedule? "file:///a.sqf" ['x', ';'] = some w ∧
      startsFor Edit.uri "file:///a.sqf" (w.play noFiles (fun _ => 0) later).2 = [] := by
  refine ⟨by decide, by decide, _, rfl, ?_⟩
  refine (starts_of_schedule? (Punctual.ofSettings _) rfl (unedited_of_notMem (by simp))).2 ?_
  have hsoon : wait 50 < wait 200 := by decide
  simp [dueIn_cons, ofSettings, hsoon]

end SqfIndex.Workspace
