import SqfIndex.Debounce.Agenda
import SqfIndex.Proofs.Debounce.Timeline

/-!
# When timers go off

A timer that is armed goes off when it is due, whatever else goes off or ends before, and nothing but it starts an
action of its key: `Timeline.advance_armed`. A key without an armed timer starts nothing: `Timeline.advance_unarmed`.
A change of the delay leaves no timer armed.
-/

namespace SqfIndex.Debounce

open Std (ExtTreeMap)

variable {α β : Type} {name : α → String} {hold : α → Nat} {target : Nat} {key : String}

/-! ## What is next -/

theorem takeEarliest_le {time : β → Nat} {xs ys : List β} {y : β} (h : takeEarliest time xs = some (y, ys)) :
    ∀ x ∈ xs, time y ≤ time x := by
  induction xs generalizing y ys with
  | nil => simp [takeEarliest] at h
  | cons x xs ih =>
      unfold takeEarliest at h
      split at h
      · next hnone =>
        cases takeEarliest_eq_none hnone
        cases h
        simp
      · next z zs hlater =>
        have hz := ih hlater
        split at h
        · next hle =>
          cases h
          intro x' hx'
          rcases List.mem_cons.mp hx' with rfl | hx'
          · exact Nat.le_refl _
          · exact Nat.le_trans hle (hz x' hx')
        · next hlt =>
          cases h
          intro x' hx'
          rcases List.mem_cons.mp hx' with rfl | hx'
          · exact Nat.le_of_not_le hlt
          · exact hz x' hx'

/-! ## Starts -/

/-- The start of an action for a key, and its time. -/
def startOf? (name : α → String) (key : String) : Event α → Option (Nat × α)
  | .started time action => if name action = key then some (time, action) else none
  | .stopped _ _ => none

def startsFor (name : α → String) (key : String) (events : List (Event α)) : List (Nat × α) :=
  events.filterMap (startOf? name key)

theorem startsFor_append (name : α → String) (key : String) (events later : List (Event α)) :
    startsFor name key (events ++ later) = startsFor name key events ++ startsFor name key later :=
  List.filterMap_append

theorem mem_startsFor {p : Nat × α} {events : List (Event α)} :
    p ∈ startsFor name key events ↔ .started p.1 p.2 ∈ events ∧ name p.2 = key := by
  rw [startsFor, List.mem_filterMap]
  constructor
  · rintro ⟨event, hevent, hstart⟩
    cases event with
    | stopped => cases hstart
    | started time action =>
        rw [startOf?] at hstart
        split at hstart
        · next hname =>
          cases hstart
          exact ⟨hevent, hname⟩
        · cases hstart
  · rintro ⟨hevent, hname⟩
    exact ⟨_, hevent, if_pos hname⟩

namespace Timeline

variable {t t' : Timeline α} {v w : Timer α} {events : List (Event α)}

/-- When nothing is left to happen, no timer is due and no action ends. -/
theorem lt_of_step?_eq_none (h : t.step? hold target = none) :
    (∀ w ∈ t.waiting, target < w.due) ∧ ∀ e ∈ t.executing, target < e.stop := by
  unfold step? at h
  split at h
  · next hexecuting hwaiting =>
    rw [takeEarliest_eq_none hwaiting, takeEarliest_eq_none hexecuting]
    simp
  · next e _ hexecuting hwaiting =>
    rw [takeEarliest_eq_none hwaiting]
    have hlater : target < e.stop := by
      split at h
      · cases h
      · omega
    exact ⟨by simp, fun e' he' => Nat.lt_of_lt_of_le hlater (takeEarliest_le hexecuting e' he')⟩
  · next w _ hexecuting hwaiting =>
    rw [takeEarliest_eq_none hexecuting]
    have hlater : target < w.due := by
      split at h
      · cases h
      · omega
    exact ⟨fun w' hw' => Nat.lt_of_lt_of_le hlater (takeEarliest_le hwaiting w' hw'), by simp⟩
  · next e _ w _ hexecuting hwaiting =>
    have hlater : target < w.due ∧ target < e.stop := by
      split at h <;> split at h
      · cases h
      · omega
      · cases h
      · omega
    exact ⟨fun w' hw' => Nat.lt_of_lt_of_le hlater.1 (takeEarliest_le hwaiting w' hw'),
      fun e' he' => Nat.lt_of_lt_of_le hlater.2 (takeEarliest_le hexecuting e' he')⟩

/-! ## Armed timers -/

/-- Timers are named for their actions and told apart by their generations. -/
structure Orderly (name : α → String) (t : Timeline α) : Prop where
  named : ∀ w ∈ t.waiting, w.key = name w.action
  issued : ∀ w ∈ t.waiting, w.generation ≤ t.scheduler.issued
  distinct : (t.waiting.map (·.generation)).Nodup

structure Armed (t : Timeline α) (w : Timer α) : Prop where
  mem : w ∈ t.waiting
  pending : t.scheduler.pending[w.key]? = some w.generation

theorem Orderly.start (name : α → String) (scheduler : Scheduler) (now : Nat) :
    ({ scheduler, now } : Timeline α).Orderly name := ⟨by simp, by simp, by simp⟩

theorem Orderly.of_sublist (h : t.Orderly name) (hwaiting : t'.waiting.Sublist t.waiting)
    (hissued : t'.scheduler.issued = t.scheduler.issued) : t'.Orderly name where
  named w hw := h.named w (hwaiting.subset hw)
  issued w hw := hissued ▸ h.issued w (hwaiting.subset hw)
  distinct := h.distinct.sublist (hwaiting.map _)

theorem fire_cases (hold : α → Nat) (t : Timeline α) (w : Timer α) (ws : List (Timer α)) :
    (t.fire hold w ws).1.waiting = ws ∧
    ((t.scheduler.pending[w.key]? ≠ some w.generation ∧ (t.fire hold w ws).1.scheduler = t.scheduler ∧
        (t.fire hold w ws).2 = []) ∨
      (t.scheduler.pending[w.key]? = some w.generation ∧
        (t.fire hold w ws).1.scheduler = { t.scheduler with
          pending := t.scheduler.pending.erase w.key
          running := t.scheduler.running.insert w.key } ∧
        (t.fire hold w ws).2 = [.started w.due w.action])) := by
  unfold fire
  split
  · next hnone =>
    refine ⟨rfl, Or.inl ⟨?_, rfl, rfl⟩⟩
    intro hpending
    rw [Scheduler.start?, if_pos hpending] at hnone
    cases hnone
  · next hsome =>
    obtain ⟨hpending, rfl⟩ := Scheduler.start?_eq_some_iff.mp hsome
    exact ⟨rfl, Or.inr ⟨hpending, rfl, rfl⟩⟩

/-- The parts of a timeline that no passing of time changes. -/
theorem fire_keeps (hold : α → Nat) (t : Timeline α) (w : Timer α) (ws : List (Timer α)) :
    (t.fire hold w ws).1.scheduler.issued = t.scheduler.issued ∧
      (t.fire hold w ws).1.scheduler.delay = t.scheduler.delay := by
  rcases (fire_cases hold t w ws).2 with ⟨-, hscheduler, -⟩ | ⟨-, hscheduler, -⟩ <;> rw [hscheduler] <;> exact ⟨rfl, rfl⟩

theorem fire_unarmed (hold : α → Nat) (ws : List (Timer α)) (hkey : key ∉ t.scheduler.pending) (hname : w.key = name w.action) :
    key ∉ (t.fire hold w ws).1.scheduler.pending ∧ startsFor name key (t.fire hold w ws).2 = [] := by
  rcases (fire_cases hold t w ws).2 with ⟨-, hscheduler, hevents⟩ | ⟨hpending, hscheduler, hevents⟩
  · rw [hscheduler, hevents]
    exact ⟨hkey, rfl⟩
  · have hne : w.key ≠ key := by
      rintro rfl
      exact hkey (ExtTreeMap.mem_iff_isSome_getElem?.mpr (by rw [hpending]; rfl))
    rw [hscheduler, hevents]
    refine ⟨fun hmem => hkey (ExtTreeMap.mem_of_mem_erase hmem), ?_⟩
    simp [startsFor, startOf?, ← hname, hne]

theorem fire_self (hold : α → Nat) (ws : List (Timer α)) (harmed : t.Armed w) (hname : w.key = name w.action) :
    w.key ∉ (t.fire hold w ws).1.scheduler.pending ∧
      startsFor name w.key (t.fire hold w ws).2 = [(w.due, w.action)] := by
  rcases (fire_cases hold t w ws).2 with ⟨hpending, -, -⟩ | ⟨-, hscheduler, hevents⟩
  · exact absurd harmed.pending hpending
  · rw [hscheduler, hevents]
    refine ⟨by simp, ?_⟩
    simp [startsFor, startOf?, ← hname]

/-- Another timer that goes off leaves an armed one alone, also if both are for the same key. -/
theorem fire_other (hold : α → Nat) {ws : List (Timer α)} (harmed : t.Armed v) (hv : v ∈ ws)
    (hgeneration : w.generation ≠ v.generation) (hname : w.key = name w.action) :
    (t.fire hold w ws).1.Armed v ∧ startsFor name v.key (t.fire hold w ws).2 = [] := by
  obtain ⟨hwaiting, hcases⟩ := fire_cases hold t w ws
  have hmem : v ∈ (t.fire hold w ws).1.waiting := by rwa [hwaiting]
  rcases hcases with ⟨-, hscheduler, hevents⟩ | ⟨hpending, hscheduler, hevents⟩
  · rw [hevents]
    exact ⟨⟨hmem, hscheduler ▸ harmed.pending⟩, rfl⟩
  · have hne : w.key ≠ v.key := by
      intro heq
      rw [heq, harmed.pending, Option.some.injEq] at hpending
      exact hgeneration hpending.symm
    refine ⟨⟨hmem, ?_⟩, ?_⟩
    · rw [hscheduler]
      simpa [ExtTreeMap.getElem?_erase, hne] using harmed.pending
    · rw [hevents]
      simp [startsFor, startOf?, ← hname, hne]

/-! ## The next thing that happens -/

theorem Orderly.step? (h : t.Orderly name) (hstep : t.step? hold target = some (t', events)) :
    t'.Orderly name ∧ t'.scheduler.delay = t.scheduler.delay := by
  rcases step?_cases hstep with ⟨e, es, -, -, heq⟩ | ⟨w, ws, hw, -, heq⟩
  · cases heq
    exact ⟨h.of_sublist (List.Sublist.refl _) rfl, rfl⟩
  · obtain ⟨before, after, hwaiting, rfl⟩ := takeEarliest_split hw
    obtain ⟨hissued, hdelay⟩ := fire_keeps hold t w (before ++ after)
    obtain rfl : t' = _ := congrArg Prod.fst heq
    refine ⟨h.of_sublist ?_ hissued, hdelay⟩
    rw [(fire_cases hold t w _).1, hwaiting]
    exact (List.Sublist.refl before).append (List.sublist_cons_self w after)

theorem step?_unarmed (h : t.Orderly name) (hkey : key ∉ t.scheduler.pending)
    (hstep : t.step? hold target = some (t', events)) :
    key ∉ t'.scheduler.pending ∧ startsFor name key events = [] := by
  rcases step?_cases hstep with ⟨e, es, -, -, heq⟩ | ⟨w, ws, hw, -, heq⟩
  · cases heq
    exact ⟨hkey, rfl⟩
  · obtain ⟨before, after, hwaiting, -⟩ := takeEarliest_split hw
    have hname := h.named w (by simp [hwaiting])
    have hfired := fire_unarmed hold ws hkey hname
    rwa [← heq] at hfired

theorem step?_armed (h : t.Orderly name) (harmed : t.Armed v) (hstep : t.step? hold target = some (t', events)) :
    (t'.Armed v ∧ startsFor name v.key events = []) ∨
    (v.due ≤ target ∧ v.key ∉ t'.scheduler.pending ∧ startsFor name v.key events = [(v.due, v.action)]) := by
  rcases step?_cases hstep with ⟨e, es, -, -, heq⟩ | ⟨w, ws, hw, hdue, heq⟩
  · cases heq
    exact Or.inl ⟨⟨harmed.mem, harmed.pending⟩, rfl⟩
  · obtain ⟨before, after, hwaiting, rfl⟩ := takeEarliest_split hw
    have hname := h.named w (by simp [hwaiting])
    by_cases hself : w = v
    · subst hself
      have hfired := fire_self hold (before ++ after) harmed hname
      rw [← heq] at hfired
      exact Or.inr ⟨hdue, hfired⟩
    · have hv : v ∈ before ++ after := by
        have hmem := harmed.mem
        rw [hwaiting] at hmem
        simpa [Ne.symm hself] using hmem
      have hgeneration : w.generation ≠ v.generation := by
        have hdistinct := h.distinct
        rw [hwaiting, List.map_append, List.map_cons, List.nodup_middle, ← List.map_append, List.nodup_cons] at hdistinct
        exact fun hsame => hdistinct.1 (hsame ▸ List.mem_map_of_mem hv)
      have hfired := fire_other hold harmed hv hgeneration hname
      rw [← heq] at hfired
      exact Or.inl hfired

/-! ## Moving the clock -/

theorem Orderly.advance (h : t.Orderly name) (hold : α → Nat) (target : Nat) :
    let after := (t.advance hold target).1
    after.Orderly name ∧ after.scheduler.delay = t.scheduler.delay ∧ after.now = target := by
  induction t using Timeline.advance.induct hold target with
  | case1 t hnone =>
      rw [advance_of_none hnone]
      exact ⟨h.of_sublist (List.Sublist.refl _) rfl, rfl, rfl⟩
  | case2 t next events hsome final later hfinal ih =>
      rw [advance_of_some hsome]
      obtain ⟨horderly, hdelay⟩ := h.step? hsome
      rw [← hdelay]
      exact ih horderly

theorem advance_unarmed (h : t.Orderly name) (hkey : key ∉ t.scheduler.pending) (hold : α → Nat) (target : Nat) :
    key ∉ (t.advance hold target).1.scheduler.pending ∧ startsFor name key (t.advance hold target).2 = [] := by
  induction t using Timeline.advance.induct hold target with
  | case1 t hnone =>
      rw [advance_of_none hnone]
      exact ⟨hkey, rfl⟩
  | case2 t next events hsome final later hfinal ih =>
      obtain ⟨hnext, hevents⟩ := step?_unarmed h hkey hsome
      obtain ⟨hrest, hlater⟩ := ih (h.step? hsome).1 hnext
      rw [advance_of_some hsome, startsFor_append, hevents, hlater]
      exact ⟨hrest, rfl⟩

theorem le_of_mem_startsFor_step? {p : Nat × α} (hstep : t.step? hold target = some (t', events))
    (hp : p ∈ startsFor name key events) : p.1 ≤ target := by
  have hstarted := (mem_startsFor.mp hp).1
  rcases step?_cases hstep with ⟨e, es, -, -, heq⟩ | ⟨w, ws, -, hdue, heq⟩
  · cases heq
    simp at hstarted
  · obtain rfl : events = _ := congrArg Prod.snd heq
    rcases (fire_cases hold t w ws).2 with ⟨-, -, hevents⟩ | ⟨-, -, hevents⟩
    · simp [hevents] at hstarted
    · simp only [hevents, List.mem_singleton, Event.started.injEq] at hstarted
      exact hstarted.1 ▸ hdue

/-- Nothing starts later than the clock shows in the end. -/
theorem le_of_mem_startsFor_advance {p : Nat × α} (hp : p ∈ startsFor name key (t.advance hold target).2) : p.1 ≤ target := by
  induction t using Timeline.advance.induct hold target with
  | case1 t hnone =>
      rw [advance_of_none hnone] at hp
      cases hp
  | case2 t next events hsome final later hfinal ih =>
      rw [advance_of_some hsome, startsFor_append] at hp
      rcases List.mem_append.mp hp with hp | hp
      · exact le_of_mem_startsFor_step? hsome hp
      · exact ih hp

/-- An armed timer goes off when it is due, and stays armed until then. -/
theorem advance_armed (h : t.Orderly name) (harmed : t.Armed v) (hold : α → Nat) (target : Nat) :
    let after := (t.advance hold target).1
    let starts := startsFor name v.key (t.advance hold target).2
    (target < v.due ∧ after.Armed v ∧ starts = []) ∨
    (v.due ≤ target ∧ v.key ∉ after.scheduler.pending ∧ starts = [(v.due, v.action)]) := by
  induction t using Timeline.advance.induct hold target with
  | case1 t hnone =>
      rw [advance_of_none hnone]
      exact Or.inl ⟨(lt_of_step?_eq_none hnone).1 v harmed.mem, ⟨harmed.mem, harmed.pending⟩, rfl⟩
  | case2 t next events hsome final later hfinal ih =>
      have horderly := (h.step? hsome).1
      rw [advance_of_some hsome]
      simp only [startsFor_append]
      rcases step?_armed h harmed hsome with ⟨hnext, hevents⟩ | ⟨hdue, hnext, hevents⟩
      · rw [hevents]
        exact ih horderly hnext
      · obtain ⟨hrest, hlater⟩ := advance_unarmed horderly hnext hold target
        rw [hevents, hlater]
        exact Or.inr ⟨hdue, hrest, rfl⟩

/-! ## Requests -/

theorem request?_eq_some {action : α} (h : t.request? key action = some t') :
    t' = { t with
      scheduler := { t.scheduler with
        pending := t.scheduler.pending.insert key (t.scheduler.issued + 1)
        issued := t.scheduler.issued + 1 }
      waiting := t.waiting ++ [⟨t.scheduler.issued + 1, key, t.now + wait t.scheduler.delay, action⟩] } := by
  obtain ⟨⟨generation, scheduler⟩, hscheduler, rfl⟩ := Option.map_eq_some_iff.mp h
  obtain ⟨-, rfl, rfl⟩ := Scheduler.request?_eq_some_iff.mp hscheduler
  rfl

theorem Orderly.request? (h : t.Orderly name) {action : α} (hrequest : t.request? key action = some t')
    (hname : key = name action) : t'.Orderly name := by
  rw [request?_eq_some hrequest]
  constructor
  · intro w hw
    rcases List.mem_append.mp hw with hw | hw
    · exact h.named w hw
    · cases List.mem_singleton.mp hw
      exact hname
  · intro w hw
    rcases List.mem_append.mp hw with hw | hw
    · exact Nat.le_succ_of_le (h.issued w hw)
    · cases List.mem_singleton.mp hw
      exact Nat.le_refl _
  · rw [List.map_append, List.nodup_append]
    refine ⟨h.distinct, by simp, ?_⟩
    intro generation hgeneration generation' hgeneration'
    obtain ⟨w, hw, rfl⟩ := List.mem_map.mp hgeneration
    have hle := h.issued w hw
    simp only [List.map_cons, List.map_nil, List.mem_singleton] at hgeneration'
    omega

theorem armed_of_request? {action : α} (hrequest : t.request? key action = some t') :
    t'.Armed ⟨t.scheduler.issued + 1, key, t.now + wait t.scheduler.delay, action⟩ := by
  rw [request?_eq_some hrequest]
  exact ⟨by simp, by simp⟩

theorem Armed.request? (h : t.Armed v) {action : α} (hrequest : t.request? key action = some t') (hne : key ≠ v.key) :
    t'.Armed v := by
  rw [request?_eq_some hrequest]
  exact ⟨List.mem_append_left _ h.mem, by simpa [ExtTreeMap.getElem?_insert, hne] using h.pending⟩

theorem unarmed_of_request? {action : α} {other : String} (hkey : other ∉ t.scheduler.pending)
    (hrequest : t.request? key action = some t') (hne : key ≠ other) : other ∉ t'.scheduler.pending := by
  rw [request?_eq_some hrequest]
  simpa [hne] using hkey

end Timeline

/-! ## Agendas -/

namespace Agenda

variable {a : Agenda α}

/-- The actions that are detached start nothing. -/
theorem startsFor_sleep (name : α → String) (key : String) (hold : α → Nat) (length : Nat) (a : Agenda α) :
    startsFor name key (a.sleep hold length).2 = startsFor name key (a.timeline.sleep hold length).2 := by
  show startsFor name key (_ ++ _) = _
  rw [startsFor_append]
  simp [startsFor, startOf?, Timeline.sleep, List.filterMap_map, Function.comp_def]

theorem setDelay_same {delay : Nat} (h : a.timeline.scheduler.delay = delay) : a.setDelay delay = a := if_pos h

theorem setDelay_unarmed {delay : Nat} (h : a.timeline.scheduler.delay ≠ delay) (key : String) :
    key ∉ (a.setDelay delay).timeline.scheduler.pending := by
  rw [setDelay, if_neg h]
  exact ExtTreeMap.not_mem_empty

theorem Orderly.setDelay (h : a.timeline.Orderly name) (delay : Nat) :
    let after := (a.setDelay delay).timeline
    after.Orderly name ∧ after.scheduler.delay = delay ∧ after.now = a.timeline.now := by
  unfold Agenda.setDelay
  split
  · next hsame => exact ⟨h, hsame, rfl⟩
  · exact ⟨.start name _ _, rfl, rfl⟩

end Agenda

end SqfIndex.Debounce
