import SqfIndex.Debounce.Timeline

/-!
A timeline whose delay can change. A new delay starts a new scheduler: timers of the old one are
disarmed for good, while its executing actions go on without being known to the new one.
-/

namespace SqfIndex.Debounce

variable {α : Type}

structure Agenda (α : Type) where
  timeline : Timeline α
  /-- Actions that were started under an earlier delay and still execute. -/
  detached : List (Execution α) := []

namespace Agenda

/-- An agenda at time zero. -/
def ofDelay (delay : Nat) : Agenda α := { timeline := { scheduler := { delay } } }

/-- Requests an action; nothing if the request is dropped. -/
def request? (a : Agenda α) (key : String) (action : α) : Option (Agenda α) :=
  (a.timeline.request? key action).map fun timeline => { a with timeline }

/-- Changes the delay. The same delay changes nothing. -/
def setDelay (a : Agenda α) (delay : Nat) : Agenda α :=
  if a.timeline.scheduler.delay = delay then a
  else
    { timeline := { scheduler := { delay }, now := a.timeline.now }
      detached := a.detached ++ a.timeline.executing }

/-- All actions that execute. -/
def executing (a : Agenda α) : List (Execution α) := a.detached ++ a.timeline.executing

/-- Moves the clock to `target`; the ends of detached actions are told last. -/
def advance (hold : α → Nat) (target : Nat) (a : Agenda α) : Agenda α × List (Event α) :=
  let (timeline, events) := a.timeline.advance hold target
  ({ timeline, detached := a.detached.filter (target < ·.stop) },
    events ++ (a.detached.filter (·.stop ≤ target)).map fun e => .stopped e.stop e.action)

/-- Lets time pass, for actions that wait as long as `hold` says. -/
def sleep (hold : α → Nat) (length : Nat) (a : Agenda α) : Agenda α × List (Event α) :=
  a.advance (fun action => wait (hold action)) (a.timeline.now + wait length)

end Agenda

end SqfIndex.Debounce
