import SqfIndex.Debounce.Scheduler

/-!
A scheduler on a clock that is moved by hand. Timers and executing actions are kept as lists; moving
the clock lets them go off and end in the order of time.
-/

namespace SqfIndex.Debounce

variable {α β : Type}

/-- A timer that has not gone off, disarmed or not. -/
structure Timer (α : Type) where
  generation : Nat
  key : String
  due : Nat
  action : α
deriving DecidableEq, Repr

/-- An action that executes. -/
structure Execution (α : Type) where
  generation : Nat
  key : String
  stop : Nat
  action : α
deriving DecidableEq, Repr

/-- What can be seen of an action. -/
inductive Event (α : Type)
  | started (time : Nat) (action : α)
  | stopped (time : Nat) (action : α)
deriving DecidableEq, Repr

structure Timeline (α : Type) where
  scheduler : Scheduler
  now : Nat := 0
  /-- Timers in the order of their requests. -/
  waiting : List (Timer α) := []
  executing : List (Execution α) := []

/-- The first element with the least time, and the other elements. -/
def takeEarliest (time : β → Nat) : List β → Option (β × List β)
  | [] => none
  | x :: xs =>
    match takeEarliest time xs with
    | none => some (x, [])
    | some (y, ys) => if time x ≤ time y then some (x, xs) else some (y, x :: ys)

theorem length_takeEarliest {time : β → Nat} {xs ys : List β} {y : β}
    (h : takeEarliest time xs = some (y, ys)) : xs.length = ys.length + 1 := by
  induction xs generalizing y ys with
  | nil => simp [takeEarliest] at h
  | cons x xs ih =>
    unfold takeEarliest at h
    split at h
    · next hn =>
      cases xs with
      | nil => simp_all
      | cons z zs =>
        unfold takeEarliest at hn
        split at hn
        · simp at hn
        · split at hn <;> simp at hn
    · next hy =>
      have := ih hy
      split at h
      · simp only [Option.some.injEq, Prod.mk.injEq] at h
        obtain ⟨_, rfl⟩ := h
        rfl
      · simp only [Option.some.injEq, Prod.mk.injEq] at h
        obtain ⟨_, rfl⟩ := h
        simp [this]

namespace Timeline

/-- Requests an action; nothing if the request is dropped. -/
def request? (t : Timeline α) (key : String) (action : α) : Option (Timeline α) :=
  (t.scheduler.request? key).map fun (generation, scheduler) =>
    { t with scheduler, waiting := t.waiting ++ [⟨generation, key, t.now + wait scheduler.delay, action⟩] }

/-- Disarms all timers. -/
def cancelAll (t : Timeline α) : Timeline α := { t with scheduler := t.scheduler.cancelAll }

/-- Lets a timer go off, whose action takes as long as `hold` says; `others` are the timers besides it. -/
def fire (hold : α → Nat) (t : Timeline α) (timer : Timer α) (others : List (Timer α)) :
    Timeline α × List (Event α) :=
  match t.scheduler.start? timer.key timer.generation with
  | none => ({ t with waiting := others, now := timer.due }, [])
  | some scheduler =>
    ({ scheduler, now := timer.due, waiting := others
       executing := t.executing ++
        [⟨timer.generation, timer.key, timer.due + hold timer.action, timer.action⟩] },
      [.started timer.due timer.action])

/-- Ends an action; `others` are the actions besides it. -/
def settle (t : Timeline α) (e : Execution α) (others : List (Execution α)) : Timeline α × List (Event α) :=
  ({ t with scheduler := t.scheduler.finish e.key, now := e.stop, executing := others },
    [.stopped e.stop e.action])

/-- What happens next, if it happens no later than `target`; actions end before others start. -/
def step? (hold : α → Nat) (target : Nat) (t : Timeline α) : Option (Timeline α × List (Event α)) :=
  match takeEarliest (·.stop) t.executing, takeEarliest (·.due) t.waiting with
  | none, none => none
  | some (e, es), none => if e.stop ≤ target then some (t.settle e es) else none
  | none, some (w, ws) => if w.due ≤ target then some (t.fire hold w ws) else none
  | some (e, es), some (w, ws) =>
    if e.stop ≤ w.due then (if e.stop ≤ target then some (t.settle e es) else none)
    else (if w.due ≤ target then some (t.fire hold w ws) else none)

/-- What is still to happen: a timer can go off and its action end. -/
def measure (t : Timeline α) : Nat := 2 * t.waiting.length + t.executing.length

theorem measure_fire_lt (hold : α → Nat) {t : Timeline α} {w : Timer α} {ws : List (Timer α)}
    (h : takeEarliest (·.due) t.waiting = some (w, ws)) : (t.fire hold w ws).1.measure < t.measure := by
  have := length_takeEarliest h
  unfold fire
  split <;> simp [measure] <;> omega

theorem measure_settle_lt {t : Timeline α} {e : Execution α} {es : List (Execution α)}
    (h : takeEarliest (·.stop) t.executing = some (e, es)) : (t.settle e es).1.measure < t.measure := by
  have := length_takeEarliest h
  simp [settle, measure]
  omega

theorem measure_step?_lt {hold : α → Nat} {target : Nat} {t t' : Timeline α} {events : List (Event α)}
    (h : t.step? hold target = some (t', events)) : t'.measure < t.measure := by
  unfold step? at h
  split at h
  · simp at h
  · next he _ =>
    split at h <;> simp at h
    have := measure_settle_lt he
    rw [h] at this
    exact this
  · next _ hw =>
    split at h <;> simp at h
    have := measure_fire_lt hold hw
    rw [h] at this
    exact this
  · next he hw =>
    split at h
    · split at h <;> simp at h
      have := measure_settle_lt he
      rw [h] at this
      exact this
    · split at h <;> simp at h
      have := measure_fire_lt hold hw
      rw [h] at this
      exact this

/-- Moves the clock to `target` and tells what happens on the way. -/
def advance (hold : α → Nat) (target : Nat) (t : Timeline α) : Timeline α × List (Event α) :=
  match _step : t.step? hold target with
  | none => ({ t with now := target }, [])
  | some (next, events) =>
    let (final, later) := next.advance hold target
    (final, events ++ later)
termination_by t.measure
decreasing_by exact measure_step?_lt _step

/-- Lets time pass, for actions that wait as long as `hold` says. -/
def sleep (hold : α → Nat) (length : Nat) (t : Timeline α) : Timeline α × List (Event α) :=
  t.advance (fun action => wait (hold action)) (t.now + wait length)

end Timeline

end SqfIndex.Debounce
