import Mathlib.Data.List.Induction
import Mathlib.Data.List.Nodup
import SqfIndex.Debounce.Scheduler

/-!
# Debouncing under any order of steps

Every accepted request spawns a task that waits for its timer, then asks whether the timer still counts and
executes the action if so. `Step` lets callers and tasks act in any order; in particular a timer may go off
after it was disarmed, and anything may happen between that and the question. The invariant is `Sound`, which
ties the state to the moves that led to it; `debounce_safety` reads the promises off it.
-/

namespace SqfIndex.Debounce

open Std (ExtTreeMap ExtTreeSet)

/-- A request that was accepted, by its key and the generation of its timer. -/
structure Ticket where
  key : String
  generation : Nat
deriving DecidableEq, Repr

/-- The scheduler with the tasks of its requests. -/
structure Tasks where
  scheduler : Scheduler
  /-- Tasks whose timer has not gone off, disarmed or not. -/
  waiting : List Ticket := []
  /-- Tasks whose timer has gone off and that have yet to ask whether it still counts. -/
  ready : List Ticket := []
  executing : List Ticket := []
  /-- The generations of the timers that were disarmed. -/
  disarmed : List Nat := []

namespace Tasks

def request? (s : Tasks) (key : String) : Option (Ticket × Tasks) :=
  (s.scheduler.request? key).map fun (generation, scheduler) =>
    (⟨key, generation⟩,
      { s with
        scheduler
        waiting := s.waiting ++ [⟨key, generation⟩]
        disarmed := s.disarmed ++ (s.scheduler.pending[key]?).toList })

/-- What a caller is told, and the tasks after the call. -/
def run (s : Tasks) (key : String) : Bool × Tasks :=
  match s.request? key with
  | none => (false, s)
  | some (_, s') => (true, s')

def cancelAll (s : Tasks) : Tasks :=
  { s with scheduler := s.scheduler.cancelAll, disarmed := s.disarmed ++ s.scheduler.pending.values }

end Tasks

inductive Move
  | accept (t : Ticket)
  | refuse (key : String)
  | elapse (t : Ticket)
  | abandon (t : Ticket)
  | expire (t : Ticket)
  | start (t : Ticket)
  | finish (t : Ticket)
  | cancelAll
deriving DecidableEq, Repr

/-- What can happen next. -/
inductive Step : Tasks → Move → Tasks → Prop
  | accept {s s' : Tasks} {key : String} {t : Ticket} (h : s.request? key = some (t, s')) : Step s (.accept t) s'
  | refuse {s : Tasks} {key : String} (h : (s.run key).1 = false) : Step s (.refuse key) (s.run key).2
  /-- A timer goes off, whether or not it was disarmed. -/
  | elapse {s : Tasks} {before after : List Ticket} {t : Ticket} (h : s.waiting = before ++ t :: after) :
      Step s (.elapse t) { s with waiting := before ++ after, ready := s.ready ++ [t] }
  /-- A task learns that its timer was disarmed before it goes off. -/
  | abandon {s : Tasks} {before after : List Ticket} {t : Ticket} (h : s.waiting = before ++ t :: after)
      (hdisarmed : t.generation ∈ s.disarmed) : Step s (.abandon t) { s with waiting := before ++ after }
  | start {s : Tasks} {scheduler : Scheduler} {before after : List Ticket} {t : Ticket}
      (h : s.ready = before ++ t :: after) (hstart : s.scheduler.start? t.key t.generation = some scheduler) :
      Step s (.start t) { s with scheduler, ready := before ++ after, executing := s.executing ++ [t] }
  /-- A timer that went off does not count any more. -/
  | expire {s : Tasks} {before after : List Ticket} {t : Ticket}
      (h : s.ready = before ++ t :: after) (hstart : s.scheduler.start? t.key t.generation = none) :
      Step s (.expire t) { s with ready := before ++ after }
  /-- An action ends, by itself or by a panic. -/
  | finish {s : Tasks} {before after : List Ticket} {t : Ticket} (h : s.executing = before ++ t :: after) :
      Step s (.finish t) { s with scheduler := s.scheduler.finish t.key, executing := before ++ after }
  | cancelAll {s : Tasks} : Step s .cancelAll s.cancelAll

/-- The moves that lead from a new scheduler to a state. -/
inductive Run (delay : Nat) : List Move → Tasks → Prop
  | nil : Run delay [] { scheduler := { delay } }
  | step {moves : List Move} {m : Move} {s s' : Tasks} (h : Run delay moves s) (hstep : Step s m s') :
      Run delay (moves ++ [m]) s'

/-! ## The scheduler -/

namespace Scheduler

variable {s s' : Scheduler} {key : String} {generation : Nat}

theorem request?_eq_none_iff : s.request? key = none ↔ key ∈ s.running := by
  unfold request?
  by_cases h : key ∈ s.running <;> simp [h]

theorem request?_eq_some_iff :
    s.request? key = some (generation, s') ↔
      key ∉ s.running ∧ generation = s.issued + 1 ∧
        s' = { s with pending := s.pending.insert key (s.issued + 1), issued := s.issued + 1 } := by
  unfold request?
  by_cases h : key ∈ s.running
  · simp [h]
  · simp only [ExtTreeSet.contains_iff_mem, h, if_false, Option.some.injEq, Prod.mk.injEq, not_false_eq_true, true_and]
    exact and_congr eq_comm eq_comm

theorem start?_eq_some_iff :
    s.start? key generation = some s' ↔
      s.pending[key]? = some generation ∧
        s' = { s with pending := s.pending.erase key, running := s.running.insert key } := by
  unfold start?
  by_cases h : s.pending[key]? = some generation
  · rw [if_pos h, Option.some.injEq, eq_comm, and_iff_right h]
  · simp [h]

end Scheduler

theorem Tasks.request?_eq_some {s s' : Tasks} {key : String} {t : Ticket} (h : s.request? key = some (t, s')) :
    key ∉ s.scheduler.running ∧ t = ⟨key, s.scheduler.issued + 1⟩ ∧ s'.executing = s.executing ∧
      s'.scheduler = { s.scheduler with
        pending := s.scheduler.pending.insert key (s.scheduler.issued + 1)
        issued := s.scheduler.issued + 1 } := by
  obtain ⟨⟨generation, scheduler⟩, hrequest, heq⟩ := Option.map_eq_some_iff.mp h
  obtain ⟨hrunning, rfl, rfl⟩ := Scheduler.request?_eq_some_iff.mp hrequest
  simp only [Prod.mk.injEq] at heq
  obtain ⟨rfl, rfl⟩ := heq
  exact ⟨hrunning, rfl, rfl, rfl⟩

/-- A call is refused exactly if its key is running, and then it changes nothing. -/
theorem Tasks.run_eq_false_iff {s : Tasks} {key : String} : (s.run key).1 = false ↔ key ∈ s.scheduler.running := by
  rw [← Scheduler.request?_eq_none_iff, run, request?]
  cases s.scheduler.request? key <;> simp

theorem Tasks.run_of_refused {s : Tasks} {key : String} (h : (s.run key).1 = false) : (s.run key).2 = s := by
  unfold run at h ⊢
  cases hrequest : s.request? key with
  | none => rfl
  | some r => simp [hrequest] at h

/-! ## Requests that still count -/

/-- The move takes its place from every earlier request for the key. -/
def Move.Overrides (key : String) : Move → Prop
  | accept t => t.key = key
  | cancelAll => True
  | _ => False

/-- The request was accepted; since then none for its key was, and timers were not disarmed all at once. -/
def Current (moves : List Move) (t : Ticket) : Prop :=
  ∃ before after, moves = before ++ .accept t :: after ∧ ∀ m ∈ after, ¬ m.Overrides t.key

variable {moves : List Move} {m : Move} {s s' : Tasks} {t : Ticket}

theorem Current.accept (moves : List Move) (t : Ticket) : Current (moves ++ [.accept t]) t :=
  ⟨moves, [], rfl, by simp⟩

theorem Current.append (h : Current moves t) (hm : ¬ m.Overrides t.key) : Current (moves ++ [m]) t := by
  obtain ⟨before, after, rfl, hafter⟩ := h
  refine ⟨before, after ++ [m], by simp, ?_⟩
  intro m' hm'
  rcases List.mem_append.mp hm' with hm' | hm'
  · exact hafter m' hm'
  · exact List.mem_singleton.mp hm' ▸ hm

theorem Current.mem (h : Current moves t) : .accept t ∈ moves := by
  obtain ⟨before, after, rfl, -⟩ := h
  simp

/-! ## The invariant -/

/-- What the moves so far and the state have to do with each other. -/
structure Sound (moves : List Move) (s : Tasks) : Prop where
  issued : ∀ t, .accept t ∈ moves → t.generation ≤ s.scheduler.issued
  started : ∀ t, .start t ∈ moves → .accept t ∈ moves
  armed : ∀ key generation, s.scheduler.pending[key]? = some generation →
    Current moves ⟨key, generation⟩ ∧ .start ⟨key, generation⟩ ∉ moves
  apart : ∀ key ∈ s.scheduler.running, key ∉ s.scheduler.pending
  running : ∀ key, key ∈ s.scheduler.running ↔ ∃ t ∈ s.executing, t.key = key
  single : (s.executing.map Ticket.key).Nodup

theorem Sound.nil (delay : Nat) : Sound [] { scheduler := { delay } } where
  issued := by simp
  started := by simp
  armed := by simp
  apart := by simp
  running := by simp
  single := by simp

/-- Moves about timers that are not armed change nothing that counts. -/
theorem Sound.quiet (h : Sound moves s) (hscheduler : s'.scheduler = s.scheduler) (hexecuting : s'.executing = s.executing)
    (haccept : ∀ t, m ≠ .accept t) (hstart : ∀ t, m ≠ .start t) (hcancel : m ≠ .cancelAll) : Sound (moves ++ [m]) s' := by
  have hoverrides (key : String) : ¬ m.Overrides key := by
    cases m <;> simp_all [Move.Overrides]
  have hmem (m' : Move) (hne : m ≠ m') : m' ∈ moves ++ [m] ↔ m' ∈ moves := by simp [Ne.symm hne]
  constructor
  · intro t ht
    rw [hscheduler]
    exact h.issued t ((hmem _ (haccept t)).mp ht)
  · intro t ht
    exact List.mem_append_left _ (h.started t ((hmem _ (hstart t)).mp ht))
  · intro key generation hpending
    rw [hscheduler] at hpending
    obtain ⟨hcurrent, hunstarted⟩ := h.armed key generation hpending
    exact ⟨hcurrent.append (hoverrides key), mt (hmem _ (hstart _)).mp hunstarted⟩
  · rw [hscheduler]; exact h.apart
  · rw [hscheduler, hexecuting]; exact h.running
  · rw [hexecuting]; exact h.single

theorem Sound.accept (h : Sound moves s) {key : String} (hrequest : s.request? key = some (t, s')) :
    Sound (moves ++ [.accept t]) s' := by
  obtain ⟨hrunning, rfl, hexecuting, hscheduler⟩ := Tasks.request?_eq_some hrequest
  constructor
  · intro t ht
    rw [hscheduler]
    rcases List.mem_append.mp ht with ht | ht
    · exact Nat.le_succ_of_le (h.issued t ht)
    · simp only [List.mem_singleton, Move.accept.injEq] at ht
      subst ht
      exact Nat.le_refl _
  · intro t ht
    exact List.mem_append_left _ (h.started t (by simpa using ht))
  · intro key' generation hpending
    rw [hscheduler] at hpending
    by_cases hkey : key = key'
    · subst hkey
      simp only [ExtTreeMap.getElem?_insert_self, Option.some.injEq] at hpending
      subst hpending
      refine ⟨.accept moves _, ?_⟩
      -- no action of this generation can have started, since none was accepted
      intro hstarted
      have hle := h.issued _ (h.started _ (by simpa using hstarted))
      exact Nat.not_succ_le_self _ hle
    · obtain ⟨hcurrent, hunstarted⟩ := h.armed key' generation (by simpa [ExtTreeMap.getElem?_insert, hkey] using hpending)
      exact ⟨hcurrent.append hkey, by simpa using hunstarted⟩
  · intro key' hkey'
    rw [hscheduler] at hkey' ⊢
    have hne : key ≠ key' := by rintro rfl; exact hrunning hkey'
    simpa [hne] using h.apart key' hkey'
  · intro key'
    rw [hscheduler, hexecuting]
    exact h.running key'
  · rw [hexecuting]; exact h.single

theorem Sound.start (h : Sound moves s) {scheduler : Scheduler} {ready : List Ticket}
    (hstart : s.scheduler.start? t.key t.generation = some scheduler) :
    Sound (moves ++ [.start t]) { s with scheduler, ready, executing := s.executing ++ [t] } := by
  obtain ⟨hpending, rfl⟩ := Scheduler.start?_eq_some_iff.mp hstart
  have hmem : t.key ∈ s.scheduler.pending := ExtTreeMap.mem_iff_isSome_getElem?.mpr (by rw [hpending]; rfl)
  have hidle : t.key ∉ s.scheduler.running := fun hrunning => h.apart _ hrunning hmem
  constructor
  · intro t' ht'
    exact h.issued t' (by simpa using ht')
  · intro t' ht'
    rcases List.mem_append.mp ht' with ht' | ht'
    · exact List.mem_append_left _ (h.started t' ht')
    · simp only [List.mem_singleton, Move.start.injEq] at ht'
      subst ht'
      exact List.mem_append_left _ (h.armed _ _ hpending).1.mem
  · intro key generation hkey
    obtain ⟨hne, hkey⟩ : t.key ≠ key ∧ s.scheduler.pending[key]? = some generation := by
      by_cases heq : t.key = key
      · simp [heq] at hkey
      · exact ⟨heq, by simpa [ExtTreeMap.getElem?_erase, heq] using hkey⟩
    obtain ⟨hcurrent, hunstarted⟩ := h.armed key generation hkey
    refine ⟨hcurrent.append (by simp [Move.Overrides]), ?_⟩
    simp only [List.mem_append, List.mem_singleton, Move.start.injEq, not_or]
    exact ⟨hunstarted, fun heq => hne (heq ▸ rfl)⟩
  · intro key hkey
    simp only [ExtTreeSet.mem_insert, Std.LawfulEqCmp.compare_eq_iff_eq] at hkey
    by_cases heq : t.key = key
    · simp [heq]
    · simpa [heq] using h.apart key (hkey.resolve_left heq)
  · intro key
    simp only [ExtTreeSet.mem_insert, Std.LawfulEqCmp.compare_eq_iff_eq, h.running, List.mem_append, List.mem_singleton]
    constructor
    · rintro (rfl | ⟨t', ht', rfl⟩)
      · exact ⟨t, Or.inr rfl, rfl⟩
      · exact ⟨t', Or.inl ht', rfl⟩
    · rintro ⟨t', ht' | rfl, rfl⟩
      · exact Or.inr ⟨t', ht', rfl⟩
      · exact Or.inl rfl
  · rw [List.map_append, List.nodup_append]
    refine ⟨h.single, by simp, ?_⟩
    intro key hkey key' hkey'
    obtain ⟨t', ht', rfl⟩ := List.mem_map.mp hkey
    simp only [List.map_cons, List.map_nil, List.mem_singleton] at hkey'
    subst hkey'
    intro heq
    exact hidle ((h.running t.key).mpr ⟨t', ht', heq⟩)

theorem Sound.finish (h : Sound moves s) {before after : List Ticket} (hexecuting : s.executing = before ++ t :: after) :
    Sound (moves ++ [.finish t]) { s with scheduler := s.scheduler.finish t.key, executing := before ++ after } := by
  have hsingle := h.single
  rw [hexecuting, List.map_append, List.map_cons, List.nodup_middle, ← List.map_append, List.nodup_cons] at hsingle
  constructor
  · intro t' ht'
    exact h.issued t' (by simpa using ht')
  · intro t' ht'
    exact List.mem_append_left _ (h.started t' (by simpa using ht'))
  · intro key generation hpending
    obtain ⟨hcurrent, hunstarted⟩ := h.armed key generation hpending
    exact ⟨hcurrent.append (by simp [Move.Overrides]), by simpa using hunstarted⟩
  · intro key hkey
    exact h.apart key (ExtTreeSet.mem_of_mem_erase hkey)
  · intro key
    show key ∈ s.scheduler.running.erase t.key ↔ _
    rw [ExtTreeSet.mem_erase, h.running, hexecuting]
    constructor
    · rintro ⟨hne, t', ht', rfl⟩
      have hother : t' ≠ t := by rintro rfl; simp at hne
      exact ⟨t', by simpa [hother] using ht', rfl⟩
    · rintro ⟨t', ht', rfl⟩
      refine ⟨?_, t', by simp only [List.mem_append, List.mem_cons] at ht' ⊢; tauto, rfl⟩
      -- the key executes only once
      have hne : t.key ≠ t'.key := fun heq => hsingle.1 (heq ▸ List.mem_map_of_mem ht')
      simpa using hne
  · exact hsingle.2

theorem Sound.cancelAll (h : Sound moves s) : Sound (moves ++ [.cancelAll]) s.cancelAll where
  issued t ht := h.issued t (by simpa using ht)
  started t ht := List.mem_append_left _ (h.started t (by simpa using ht))
  armed := by simp [Tasks.cancelAll, Scheduler.cancelAll]
  apart := by simp [Tasks.cancelAll, Scheduler.cancelAll]
  running := h.running
  single := h.single

theorem Sound.step (h : Sound moves s) (hstep : Step s m s') : Sound (moves ++ [m]) s' := by
  cases hstep with
  | accept hrequest => exact h.accept hrequest
  | refuse hrefused =>
      rw [Tasks.run_of_refused hrefused]
      exact h.quiet rfl rfl (by simp) (by simp) (by simp)
  | elapse _ => exact h.quiet rfl rfl (by simp) (by simp) (by simp)
  | abandon _ _ => exact h.quiet rfl rfl (by simp) (by simp) (by simp)
  | start _ hstart => exact h.start hstart
  | expire _ _ => exact h.quiet rfl rfl (by simp) (by simp) (by simp)
  | finish hexecuting => exact h.finish hexecuting
  | cancelAll => exact h.cancelAll

theorem Run.sound {delay : Nat} (h : Run delay moves s) : Sound moves s := by
  induction h with
  | nil => exact Sound.nil delay
  | step _ hstep ih => exact ih.step hstep

/-! ## Whole runs -/

variable {delay : Nat}

theorem Step.not_accepted (hs : Sound moves s) (hstep : Step s (.accept t) s') : .accept t ∉ moves := by
  cases hstep with
  | accept hrequest =>
      obtain ⟨-, rfl, -, -⟩ := Tasks.request?_eq_some hrequest
      intro hmem
      exact Nat.not_succ_le_self _ (hs.issued _ hmem)

theorem Step.current_of_start (hs : Sound moves s) (hstep : Step s (.start t) s') : Current moves t ∧ .start t ∉ moves := by
  cases hstep with
  | start _ hstart => exact hs.armed _ _ (Scheduler.start?_eq_some_iff.mp hstart).1

theorem Run.count_accept_le (h : Run delay moves s) (t : Ticket) : moves.count (.accept t) ≤ 1 := by
  induction h with
  | nil => simp
  | @step moves m s s' hrun hstep ih =>
      rw [List.count_append]
      by_cases hm : m = .accept t
      · subst hm
        rw [List.count_eq_zero.mpr (hstep.not_accepted hrun.sound)]
        simp
      · simpa [List.count_singleton, hm] using ih

theorem Run.count_start_le (h : Run delay moves s) (t : Ticket) : moves.count (.start t) ≤ moves.count (.accept t) := by
  induction h with
  | nil => simp
  | @step moves m s s' hrun hstep ih =>
      rw [List.count_append, List.count_append]
      by_cases hm : m = .start t
      · subst hm
        obtain ⟨hcurrent, hunstarted⟩ := hstep.current_of_start hrun.sound
        have haccepted := List.count_pos_iff.mpr hcurrent.mem
        rw [List.count_eq_zero.mpr hunstarted]
        simpa [List.count_singleton] using haccepted
      · simp only [List.count_singleton, beq_iff_eq, hm, if_false, Nat.add_zero]
        exact Nat.le_add_right_of_le ih

/-- An action starts only while its request is current. -/
theorem Run.current_of_start (h : Run delay moves s) {before after : List Move} (hmoves : moves = before ++ .start t :: after) :
    Current before t := by
  induction h generalizing after with
  | nil => simp at hmoves
  | @step moves m s s' hrun hstep ih =>
      cases after using List.reverseRecOn with
      | nil =>
          obtain ⟨rfl, hm⟩ := List.append_inj' hmoves rfl
          simp only [List.cons.injEq, and_true] at hm
          subst hm
          exact (hstep.current_of_start hrun.sound).1
      | append_singleton after last =>
          -- the start is among the earlier moves
          rw [← List.cons_append, ← List.append_assoc] at hmoves
          exact ih (List.append_inj' hmoves rfl).1

/-- Whatever callers, timers and tasks do, in whichever order: no key is both pending and running; no key has
two actions executing, and a key is running exactly if it has one; no two requests have the same ticket, and
the action of a request starts at most once; it starts only if since its acceptance no request for the key was
accepted and timers were not disarmed all at once; and a call is refused exactly if an action of its key is
executing, and then changes nothing. -/
theorem debounce_safety {delay : Nat} {moves : List Move} {s : Tasks} (h : Run delay moves s) :
    (∀ key, ¬ (key ∈ s.scheduler.pending ∧ key ∈ s.scheduler.running)) ∧
    (∀ key, (s.executing.filter (·.key = key)).length ≤ 1 ∧
      (key ∈ s.scheduler.running ↔ ∃ t ∈ s.executing, t.key = key)) ∧
    (∀ t, moves.count (.accept t) ≤ 1 ∧ moves.count (.start t) ≤ moves.count (.accept t)) ∧
    (∀ before t after, moves = before ++ .start t :: after →
      ∃ earlier since, before = earlier ++ .accept t :: since ∧
        ∀ m ∈ since, m ≠ .cancelAll ∧ ∀ t', m = .accept t' → t'.key ≠ t.key) ∧
    (∀ key, ((s.run key).1 = false ↔ ∃ t ∈ s.executing, t.key = key) ∧
      ((s.run key).1 = false → (s.run key).2 = s)) := by
  have hs := h.sound
  refine ⟨?_, ?_, ?_, ?_, ?_⟩
  · rintro key ⟨hpending, hrunning⟩
    exact hs.apart key hrunning hpending
  · intro key
    refine ⟨?_, hs.running key⟩
    have hcount := List.nodup_iff_count_le_one.mp hs.single key
    rwa [List.count_eq_countP, List.countP_map, List.countP_eq_length_filter] at hcount
  · intro t
    exact ⟨h.count_accept_le t, h.count_start_le t⟩
  · intro before t after hmoves
    obtain ⟨earlier, since, rfl, hsince⟩ := h.current_of_start hmoves
    refine ⟨earlier, since, rfl, ?_⟩
    intro m hm
    constructor
    · rintro rfl
      exact hsince _ hm trivial
    · rintro t' rfl
      exact hsince _ hm
  · intro key
    exact ⟨Tasks.run_eq_false_iff.trans (hs.running key), Tasks.run_of_refused⟩

/-- The first timer is disarmed by the second request and goes off all the same. -/
def supersededMoves : List Move :=
  [.accept ⟨"a", 1⟩, .accept ⟨"a", 2⟩, .elapse ⟨"a", 1⟩, .expire ⟨"a", 1⟩, .elapse ⟨"a", 2⟩, .start ⟨"a", 2⟩]

theorem run_superseded : ∃ s, Run 300 supersededMoves s ∧ s.executing = [⟨"a", 2⟩] := by
  have h0 : Run 300 [] { scheduler := { delay := 300 } } := .nil
  have h1 := h0.step (.accept (rfl : Tasks.request? _ "a" = some (⟨"a", 1⟩, _)))
  have h2 := h1.step (.accept (rfl : Tasks.request? _ "a" = some (⟨"a", 2⟩, _)))
  have h3 := h2.step (@Step.elapse _ [] [⟨"a", 2⟩] ⟨"a", 1⟩ rfl)
  have h4 := h3.step (@Step.expire _ [] [] ⟨"a", 1⟩ rfl rfl)
  have h5 := h4.step (@Step.elapse _ [] [] ⟨"a", 2⟩ rfl)
  have h6 := h5.step (@Step.start _ _ [] [] ⟨"a", 2⟩ rfl rfl)
  exact ⟨_, h6, rfl⟩

theorem superseded_request_stays_out :
    ∃ s, Run 300 supersededMoves s ∧ s.executing = [⟨"a", 2⟩] ∧
      "a" ∈ s.scheduler.running ∧ "a" ∉ s.scheduler.pending ∧ s.run "a" = (false, s) := by
  obtain ⟨s, hrun, hexecuting⟩ := run_superseded
  obtain ⟨hapart, hrunning, -, -, hcall⟩ := debounce_safety hrun
  have hexecutes : ∃ t ∈ s.executing, t.key = "a" := ⟨⟨"a", 2⟩, by simp [hexecuting], rfl⟩
  have hmem := (hrunning "a").2.mpr hexecutes
  have hrefused := (hcall "a").1.mpr hexecutes
  exact ⟨s, hrun, hexecuting, hmem, fun h => hapart "a" ⟨h, hmem⟩, Prod.ext hrefused ((hcall "a").2 hrefused)⟩

end SqfIndex.Debounce
