import SqfIndex.Debounce.Timeline
import SqfIndex.Proofs.Debounce.Safety

/-!
# Timelines as runs

A timeline orders by its clock what `Step` leaves open: whatever is requested, disarmed or waited for, its
state is that of a run (`Traced`), so that what holds of all runs holds of it.
-/

namespace SqfIndex.Debounce

variable {α β : Type} {delay : Nat} {hold : α → Nat} {t t' : Timeline α} {s : Tasks}

theorem takeEarliest_eq_none {time : β → Nat} {xs : List β} (h : takeEarliest time xs = none) : xs = [] := by
  cases xs with
  | nil => rfl
  | cons x xs =>
      unfold takeEarliest at h
      split at h
      · cases h
      · split at h <;> cases h

theorem takeEarliest_split {time : β → Nat} {xs ys : List β} {y : β} (h : takeEarliest time xs = some (y, ys)) :
    ∃ before after, xs = before ++ y :: after ∧ ys = before ++ after := by
  induction xs generalizing y ys with
  | nil => simp [takeEarliest] at h
  | cons x xs ih =>
      unfold takeEarliest at h
      split at h
      · next hnone =>
        cases takeEarliest_eq_none hnone
        cases h
        exact ⟨[], [], rfl, rfl⟩
      · next hlater =>
        split at h
        · simp only [Option.some.injEq, Prod.mk.injEq] at h
          obtain ⟨rfl, rfl⟩ := h
          exact ⟨[], xs, rfl, rfl⟩
        · simp only [Option.some.injEq, Prod.mk.injEq] at h
          obtain ⟨rfl, rfl⟩ := h
          obtain ⟨before, after, hxs, hys⟩ := ih hlater
          exact ⟨x :: before, after, by rw [hxs]; rfl, by rw [hys]; rfl⟩

/-! ## What happens next -/

namespace Timeline

variable {target : Nat} {events : List (Event α)}

/-- An action ends or a timer goes off. -/
theorem step?_cases (h : t.step? hold target = some (t', events)) :
    (∃ e es, takeEarliest (·.stop) t.executing = some (e, es) ∧ e.stop ≤ target ∧ (t', events) = t.settle e es) ∨
    ∃ w ws, takeEarliest (·.due) t.waiting = some (w, ws) ∧ w.due ≤ target ∧ (t', events) = t.fire hold w ws := by
  have hsettle {e : Execution α} {es : List (Execution α)}
      (heq : (if e.stop ≤ target then some (t.settle e es) else none) = some (t', events)) :
      e.stop ≤ target ∧ (t', events) = t.settle e es := by
    split at heq
    · next hle => exact ⟨hle, (Option.some.inj heq).symm⟩
    · cases heq
  have hfire {w : Timer α} {ws : List (Timer α)}
      (heq : (if w.due ≤ target then some (t.fire hold w ws) else none) = some (t', events)) :
      w.due ≤ target ∧ (t', events) = t.fire hold w ws := by
    split at heq
    · next hle => exact ⟨hle, (Option.some.inj heq).symm⟩
    · cases heq
  unfold step? at h
  split at h
  · cases h
  · next he _ => exact Or.inl ⟨_, _, he, hsettle h⟩
  · next _ hw => exact Or.inr ⟨_, _, hw, hfire h⟩
  · next he hw =>
    split at h
    · exact Or.inl ⟨_, _, he, hsettle h⟩
    · exact Or.inr ⟨_, _, hw, hfire h⟩

theorem advance_of_none (h : t.step? hold target = none) : t.advance hold target = ({ t with now := target }, []) := by
  unfold advance
  split
  · rfl
  · next hsome => rw [h] at hsome; cases hsome

theorem advance_of_some {next : Timeline α} (h : t.step? hold target = some (next, events)) :
    t.advance hold target = ((next.advance hold target).1, events ++ (next.advance hold target).2) := by
  rw [advance]
  split
  · next hnone => rw [h] at hnone; cases hnone
  · next hsome => rw [h] at hsome; cases hsome; rfl

end Timeline

/-! ## The tasks of a timeline -/

def Timer.ticket (w : Timer α) : Ticket := ⟨w.key, w.generation⟩

def Execution.ticket (e : Execution α) : Ticket := ⟨e.key, e.generation⟩

/-- The timeline is where the tasks are, with none between its timer and its question. -/
structure Follows (t : Timeline α) (s : Tasks) : Prop where
  scheduler : s.scheduler = t.scheduler
  waiting : s.waiting = t.waiting.map Timer.ticket
  ready : s.ready = []
  executing : s.executing = t.executing.map Execution.ticket

/-- What holds of tasks is kept by every move but that of disarming all timers. -/
def Kept (R : Tasks → Prop) : Prop := ∀ s m s', R s → Step s m s' → m ≠ .cancelAll → R s'

/-- The timeline is where some tasks are of which `R` holds. -/
def Followed (R : Tasks → Prop) (t : Timeline α) : Prop := ∃ s, R s ∧ Follows t s

variable {R : Tasks → Prop}

theorem Followed.request? (hR : Kept R) (h : Followed R t) {key : String} {action : α}
    (hrequest : t.request? key action = some t') : Followed R t' := by
  obtain ⟨s, hs, hfollows⟩ := h
  obtain ⟨⟨generation, scheduler⟩, hscheduler, rfl⟩ := Option.map_eq_some_iff.mp hrequest
  have haccepted : s.request? key = some (⟨key, generation⟩,
      { s with
        scheduler
        waiting := s.waiting ++ [⟨key, generation⟩]
        disarmed := s.disarmed ++ (s.scheduler.pending[key]?).toList }) := by
    rw [Tasks.request?, hfollows.scheduler, hscheduler]
    rfl
  refine ⟨_, hR _ _ _ hs (.accept haccepted) (by simp), ?_⟩
  exact ⟨rfl, by simp [hfollows.waiting, Timer.ticket], hfollows.ready, hfollows.executing⟩

/-- A timer goes off, and its task asks at once. -/
theorem Followed.fire (hR : Kept R) (h : Followed R t) {w : Timer α} {ws : List (Timer α)}
    (hw : takeEarliest (·.due) t.waiting = some (w, ws)) : Followed R (t.fire hold w ws).1 := by
  obtain ⟨s, hs, hfollows⟩ := h
  obtain ⟨before, after, hwaiting, rfl⟩ := takeEarliest_split hw
  have hsplit : s.waiting = before.map Timer.ticket ++ w.ticket :: after.map Timer.ticket := by
    rw [hfollows.waiting, hwaiting, List.map_append, List.map_cons]
  have helapsed := hR _ _ _ hs (.elapse hsplit) (by simp)
  have hready : s.ready ++ [w.ticket] = [] ++ w.ticket :: [] := by rw [hfollows.ready]
  have hrest : before.map Timer.ticket ++ after.map Timer.ticket = (before ++ after).map Timer.ticket := by
    rw [List.map_append]
  unfold Timeline.fire
  split
  · next hnone =>
    rw [← hfollows.scheduler] at hnone
    refine ⟨_, hR _ _ _ helapsed (.expire hready hnone) (by simp), ?_⟩
    exact ⟨hfollows.scheduler, hrest, rfl, hfollows.executing⟩
  · next scheduler hsome =>
    rw [← hfollows.scheduler] at hsome
    refine ⟨_, hR _ _ _ helapsed (.start hready hsome) (by simp), ?_⟩
    exact ⟨rfl, hrest, rfl, by simp [hfollows.executing, Execution.ticket, Timer.ticket]⟩

theorem Followed.settle (hR : Kept R) (h : Followed R t) {e : Execution α} {es : List (Execution α)}
    (he : takeEarliest (·.stop) t.executing = some (e, es)) : Followed R (t.settle e es).1 := by
  obtain ⟨s, hs, hfollows⟩ := h
  obtain ⟨before, after, hexecuting, rfl⟩ := takeEarliest_split he
  have hsplit : s.executing = before.map Execution.ticket ++ e.ticket :: after.map Execution.ticket := by
    rw [hfollows.executing, hexecuting, List.map_append, List.map_cons]
  refine ⟨_, hR _ _ _ hs (.finish hsplit) (by simp), ?_⟩
  refine ⟨?_, hfollows.waiting, hfollows.ready, List.map_append.symm⟩
  show s.scheduler.finish e.key = t.scheduler.finish e.key
  rw [hfollows.scheduler]

theorem Followed.step? (hR : Kept R) (h : Followed R t) {target : Nat} {events : List (Event α)}
    (hstep : t.step? hold target = some (t', events)) : Followed R t' := by
  rcases Timeline.step?_cases hstep with ⟨e, es, he, -, heq⟩ | ⟨w, ws, hw, -, heq⟩
  · have hsettled := h.settle hR he
    rwa [← heq] at hsettled
  · have hfired : Followed R (t.fire hold w ws).1 := h.fire hR hw
    rwa [← heq] at hfired

theorem Followed.advance (hR : Kept R) (h : Followed R t) (hold : α → Nat) (target : Nat) :
    Followed R (t.advance hold target).1 := by
  induction t using Timeline.advance.induct hold target with
  | case1 t hnone =>
      rw [Timeline.advance_of_none hnone]
      obtain ⟨s, hs, hfollows⟩ := h
      exact ⟨s, hs, hfollows.scheduler, hfollows.waiting, hfollows.ready, hfollows.executing⟩
  | case2 t next events hsome final later hfinal ih =>
      rw [Timeline.advance_of_some hsome]
      exact ih (h.step? hR hsome)

/-- Some run leads to where the timeline is. -/
def Traced (delay : Nat) (t : Timeline α) : Prop := Followed (fun s => ∃ moves, Run delay moves s) t

theorem kept_run (delay : Nat) : Kept fun s => ∃ moves, Run delay moves s := by
  rintro s m s' ⟨moves, hrun⟩ hstep -
  exact ⟨_, hrun.step hstep⟩

theorem Traced.start (delay : Nat) : Traced delay ({ scheduler := { delay } } : Timeline α) :=
  ⟨_, ⟨[], .nil⟩, ⟨rfl, rfl, rfl, rfl⟩⟩

theorem Traced.request? (h : Traced delay t) {key : String} {action : α} (hrequest : t.request? key action = some t') :
    Traced delay t' := Followed.request? (kept_run delay) h hrequest

theorem Traced.cancelAll (h : Traced delay t) : Traced delay t.cancelAll := by
  obtain ⟨s, ⟨moves, hrun⟩, hfollows⟩ := h
  refine ⟨_, ⟨_, hrun.step .cancelAll⟩, ?_⟩
  refine ⟨?_, hfollows.waiting, hfollows.ready, hfollows.executing⟩
  show s.scheduler.cancelAll = t.scheduler.cancelAll
  rw [hfollows.scheduler]

theorem Traced.advance (h : Traced delay t) (hold : α → Nat) (target : Nat) : Traced delay (t.advance hold target).1 :=
  Followed.advance (kept_run delay) h hold target

/-- Of a key one action executes at most. -/
theorem Traced.length_executing_le (h : Traced delay t) (key : String) : (t.executing.filter (·.key = key)).length ≤ 1 := by
  obtain ⟨s, ⟨moves, hrun⟩, hfollows⟩ := h
  have hkeys := hrun.sound.single
  rw [hfollows.executing, List.map_map] at hkeys
  have hcount := List.nodup_iff_count_le_one.mp hkeys key
  rwa [List.count_eq_countP, List.countP_map, List.countP_eq_length_filter] at hcount

/-- A key is running exactly if an action of it executes, which is one at most. -/
theorem Traced.running_iff (h : Traced delay t) (key : String) :
    key ∈ t.scheduler.running ↔ ∃ e, t.executing.filter (·.key = key) = [e] := by
  have hlength := h.length_executing_le key
  obtain ⟨s, ⟨moves, hrun⟩, hfollows⟩ := h
  rw [← hfollows.scheduler, hrun.sound.running, hfollows.executing]
  constructor
  · rintro ⟨u, hu, rfl⟩
    obtain ⟨e, he, rfl⟩ := List.mem_map.mp hu
    have hmem : e ∈ t.executing.filter (·.key = e.key) := by simp [he]
    exact List.length_eq_one_iff.mp (Nat.le_antisymm hlength (List.length_pos_of_mem hmem))
  · rintro ⟨e, he⟩
    have hmem : e ∈ t.executing.filter (·.key = key) := by simp [he]
    obtain ⟨he, hkey⟩ := List.mem_filter.mp hmem
    exact ⟨e.ticket, List.mem_map_of_mem he, of_decide_eq_true hkey⟩

end SqfIndex.Debounce
