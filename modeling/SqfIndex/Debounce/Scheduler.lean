import Std.Data.ExtTreeMap
import Std.Data.ExtTreeSet

/-!
Debouncing by key. A request arms a timer and disarms the one before it; a request while the key's
action executes is dropped. A timer may go off although it was disarmed in the meantime: its
generation tells whether it still counts.
-/

namespace SqfIndex.Debounce

open Std (ExtTreeMap ExtTreeSet)

/-- The longest time that can be waited for at once: thirty years of 365 days, in milliseconds. -/
def longestWait : Nat := 30 * 365 * 86400000

/-- How long a wait of the given length takes. -/
def wait (length : Nat) : Nat := if length ≤ longestWait then length else longestWait

/-- What all requests share. -/
structure Scheduler where
  /-- Time between a request and its action, unless it is longer than can be waited for. -/
  delay : Nat
  /-- The generation of the armed timer, by key. -/
  pending : ExtTreeMap String Nat := ∅
  /-- The keys whose action executes. -/
  running : ExtTreeSet String := ∅
  /-- The latest generation. -/
  issued : Nat := 0

namespace Scheduler

/-- Arms a timer for a key and gives its generation; nothing if the key's action executes. -/
def request? (s : Scheduler) (key : String) : Option (Nat × Scheduler) :=
  if s.running.contains key then none
  else some (s.issued + 1, { s with pending := s.pending.insert key (s.issued + 1), issued := s.issued + 1 })

/-- Starts the action of a timer that went off, if the timer is still the armed one. -/
def start? (s : Scheduler) (key : String) (generation : Nat) : Option Scheduler :=
  if s.pending[key]? = some generation then
    some { s with pending := s.pending.erase key, running := s.running.insert key }
  else none

/-- Notes that the action of a key has ended, in whatever way. -/
def finish (s : Scheduler) (key : String) : Scheduler := { s with running := s.running.erase key }

/-- Disarms all timers. -/
def cancelAll (s : Scheduler) : Scheduler := { s with pending := ∅ }

end Scheduler

end SqfIndex.Debounce
