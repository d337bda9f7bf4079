import SqfIndex.Proofs.Debounce.Deadlines

/-!
# One key at a time

A key is idle, waits for its armed timer or for the end of its action: it is in one of the states of a `Lane`. What a
timeline does for a key is what the lane of the key does (`Tracks.playTo`), and a lane moves by the orders that concern
its key and by the clock alone. Moving the clock in two steps is the same as in one (`Lane.advance_advance`), so
orders for other keys leave no mark: `Lane.playTo_filter`.
-/

namespace SqfIndex.Debounce

open Std (ExtTreeMap)

variable {α : Type} {name : α → String} {hold : α → Nat} {delay target : Nat} {key : String}

/-! ## Orders -/

/-- A call from outside: an action is requested, or all timers are disarmed. -/
inductive Order (α : Type)
  | run (time : Nat) (action : α)
  | cancelAll (time : Nat)
deriving DecidableEq, Repr

namespace Order

def time : Order α → Nat
  | run time _ | cancelAll time => time

def action? : Order α → Option α
  | run _ action => some action
  | cancelAll _ => none

def concerns (name : α → String) (key : String) : Order α → Bool
  | run _ action => name action == key
  | cancelAll _ => true

end Order

/-- The orders are given one after the other, between two times. -/
def Timed (target : Nat) : Nat → List (Order α) → Prop
  | now, [] => now ≤ target
  | now, o :: orders => now ≤ o.time ∧ Timed target o.time orders

instance decidableTimed (target : Nat) : (now : Nat) → (orders : List (Order α)) → Decidable (Timed target now orders)
  | now, [] => inferInstanceAs (Decidable (now ≤ target))
  | now, o :: orders =>
    have := decidableTimed target o.time orders
    inferInstanceAs (Decidable (now ≤ o.time ∧ Timed target o.time orders))

section

variable {now : Nat} {orders before later : List (Order α)} {o : Order α}

theorem Timed.of_le {now' : Nat} (h : Timed target now orders) (hle : now' ≤ now) : Timed target now' orders := by
  cases orders with
  | nil => exact Nat.le_trans hle h
  | cons o orders => exact ⟨Nat.le_trans hle h.1, h.2⟩

theorem Timed.le (h : Timed target now orders) : now ≤ target := by
  induction orders generalizing now with
  | nil => exact h
  | cons o orders ih => exact Nat.le_trans h.1 (ih h.2)

theorem Timed.le_time (h : Timed target now orders) : ∀ o ∈ orders, now ≤ o.time := by
  induction orders generalizing now with
  | nil => simp
  | cons o orders ih =>
      intro o' ho'
      rcases List.mem_cons.mp ho' with rfl | ho'
      · exact h.1
      · exact Nat.le_trans h.1 (ih h.2 o' ho')

theorem Timed.filter (h : Timed target now orders) (p : Order α → Bool) : Timed target now (orders.filter p) := by
  induction orders generalizing now with
  | nil => exact h
  | cons o orders ih =>
      rw [List.filter_cons]
      split
      · exact ⟨h.1, ih h.2⟩
      · exact (ih h.2).of_le h.1

theorem Timed.split (h : Timed target now (before ++ o :: later)) : Timed o.time now before ∧ Timed target o.time later := by
  induction before generalizing now with
  | nil => exact h
  | cons first before ih =>
      obtain ⟨hbefore, hlater⟩ := ih h.2
      exact ⟨⟨h.1, hbefore⟩, hlater⟩

end

namespace Timeline

/-- A timeline on which nothing was ordered yet. -/
def ofDelay (delay : Nat) : Timeline α := { scheduler := { delay } }

def carryOut (name : α → String) (t : Timeline α) : Order α → Timeline α
  | .run _ action => (t.request? (name action) action).getD t
  | .cancelAll _ => t.cancelAll

/-- Gives orders at their times, and moves the clock on to `target`. -/
def playTo (name : α → String) (hold : α → Nat) (target : Nat) : Timeline α → List (Order α) → Timeline α × List (Event α)
  | t, [] => t.advance hold target
  | t, o :: orders =>
    let (reached, events) := t.advance hold o.time
    let (final, later) := (reached.carryOut name o).playTo name hold target orders
    (final, events ++ later)

theorem playTo_cons (name : α → String) (hold : α → Nat) (target : Nat) (t : Timeline α) (o : Order α)
    (orders : List (Order α)) :
    t.playTo name hold target (o :: orders) =
      (((t.advance hold o.time).1.carryOut name o).playTo name hold target orders).map id ((t.advance hold o.time).2 ++ ·) :=
  rfl

end Timeline

/-! ## Lanes -/

/-- What a key waits for: nothing, the start of an action, or the end of one. -/
inductive Lane (α : Type)
  | idle
  | armed (due : Nat) (action : α)
  | busy (stop : Nat)
deriving DecidableEq, Repr

namespace Lane

/-- An action goes on until it ends. -/
def busyUntil (target stop : Nat) : Lane α := if stop ≤ target then idle else busy stop

/-- Moves the clock to `target`; the action that is started on the way, if there is one. -/
def advance (hold : α → Nat) (target : Nat) : Lane α → Lane α × List (Nat × α)
  | idle => (idle, [])
  | armed due action =>
    if due ≤ target then (busyUntil target (due + hold action), [(due, action)]) else (armed due action, [])
  | busy stop => (busyUntil target stop, [])

def request? (due : Nat) (action : α) : Lane α → Option (Lane α)
  | busy _ => none
  | idle | armed _ _ => some (armed due action)

def cancel : Lane α → Lane α
  | armed _ _ => idle
  | lane => lane

def carryOut (name : α → String) (key : String) (delay : Nat) (lane : Lane α) : Order α → Lane α
  | .run time action => if name action = key then (lane.request? (time + wait delay) action).getD lane else lane
  | .cancelAll _ => lane.cancel

def playTo (name : α → String) (hold : α → Nat) (key : String) (delay target : Nat) :
    Lane α → List (Order α) → Lane α × List (Nat × α)
  | lane, [] => lane.advance hold target
  | lane, o :: orders =>
    let (reached, starts) := lane.advance hold o.time
    let (final, later) := (reached.carryOut name key delay o).playTo name hold key delay target orders
    (final, starts ++ later)

variable {lane : Lane α} {o : Order α} {orders : List (Order α)}

/-! ## Orders for other keys -/

theorem carryOut_of_not_concerns (h : o.concerns name key = false) : lane.carryOut name key delay o = lane := by
  cases o with
  | run time action => exact if_neg (by simpa [Order.concerns] using h)
  | cancelAll time => cases h

theorem advance_busyUntil (hold : α → Nat) {between : Nat} (hle : between ≤ target) (stop : Nat) :
    (busyUntil between stop : Lane α).advance hold target = (busyUntil target stop, []) := by
  unfold busyUntil
  by_cases hstop : stop ≤ between
  · rw [if_pos hstop, if_pos (Nat.le_trans hstop hle), advance]
  · rw [if_neg hstop, advance, busyUntil]

theorem advance_armed_of_le (hold : α → Nat) {due : Nat} (action : α) (h : due ≤ target) :
    (armed due action).advance hold target = (busyUntil target (due + hold action), [(due, action)]) := if_pos h

theorem advance_armed_of_not_le (hold : α → Nat) {due : Nat} (action : α) (h : ¬due ≤ target) :
    (armed due action).advance hold target = (armed due action, []) := if_neg h

/-- The clock may be stopped on its way. -/
theorem advance_advance (hold : α → Nat) {between : Nat} (hle : between ≤ target) (lane : Lane α) :
    ((lane.advance hold between).1.advance hold target).map id ((lane.advance hold between).2 ++ ·) =
      lane.advance hold target := by
  cases lane with
  | idle => rfl
  | busy stop => exact congrArg (Prod.map id ([] ++ ·)) (advance_busyUntil hold hle stop)
  | armed due action =>
      by_cases hdue : due ≤ between
      · rw [advance_armed_of_le hold action hdue, advance_armed_of_le hold action (Nat.le_trans hdue hle),
          advance_busyUntil hold hle]
        rfl
      · rw [advance_armed_of_not_le hold action hdue]
        rfl

section

variable (name : α → String) (hold : α → Nat) (key : String) (delay : Nat)

theorem playTo_cons (target : Nat) (lane : Lane α) (o : Order α) (orders : List (Order α)) :
    lane.playTo name hold key delay target (o :: orders) =
      (((lane.advance hold o.time).1.carryOut name key delay o).playTo name hold key delay target orders).map id
        ((lane.advance hold o.time).2 ++ ·) := rfl

theorem playTo_advance {between : Nat} (htimed : Timed target between orders) (lane : Lane α) :
    ((lane.advance hold between).1.playTo name hold key delay target orders).map id ((lane.advance hold between).2 ++ ·) =
      lane.playTo name hold key delay target orders := by
  cases orders with
  | nil => exact advance_advance hold htimed lane
  | cons o orders =>
      rw [playTo_cons, playTo_cons, ← advance_advance hold htimed.1 lane, Prod.map_map]
      simp only [Prod.map_fst, Prod.map_snd, id_eq, Function.comp_def, List.append_assoc]
      rfl

/-- A lane moves by the orders for its key alone. -/
theorem playTo_filter {now : Nat} (htimed : Timed target now orders) (lane : Lane α) :
    lane.playTo name hold key delay target (orders.filter (·.concerns name key)) =
      lane.playTo name hold key delay target orders := by
  induction orders generalizing lane now with
  | nil => rfl
  | cons o orders ih =>
      cases hconcerns : o.concerns name key with
      | true => rw [List.filter_cons_of_pos hconcerns, playTo_cons, playTo_cons, ih htimed.2]
      | false =>
          -- the clock is stopped for the order, which is not seen in the end
          rw [List.filter_cons_of_neg (by simp [hconcerns]), ih htimed.2, playTo_cons,
            carryOut_of_not_concerns hconcerns, playTo_advance name hold key delay htimed.2]

theorem playTo_split (target : Nat) (lane : Lane α) (before : List (Order α)) (o : Order α) (later : List (Order α)) :
    lane.playTo name hold key delay target (before ++ o :: later) =
      (((lane.playTo name hold key delay o.time before).1.carryOut name key delay o).playTo name hold key delay target
        later).map id ((lane.playTo name hold key delay o.time before).2 ++ ·) := by
  induction before generalizing lane with
  | nil => rfl
  | cons first before ih =>
      rw [List.cons_append, playTo_cons, ih, playTo_cons, Prod.map_map]
      simp only [Prod.map_fst, Prod.map_snd, id_eq, Function.comp_def, List.append_assoc]
      rfl

end

end Lane

/-! ## The lane of a key -/

namespace Timeline

variable {t t' : Timeline α} {w : Timer α} {events : List (Event α)} {lane : Lane α}

/-- When the actions of a key that execute will end. -/
def stops (key : String) (t : Timeline α) : List Nat := (t.executing.filter (·.key = key)).map (·.stop)

/-- The lane tells what the timeline does for the key. -/
def Shows (t : Timeline α) (key : String) : Lane α → Prop
  | .idle => key ∉ t.scheduler.pending ∧ t.stops key = []
  | .armed due action => (∃ w, t.Armed w ∧ w.key = key ∧ w.due = due ∧ w.action = action) ∧ t.stops key = []
  | .busy stop => key ∉ t.scheduler.pending ∧ t.stops key = [stop]

theorem stops_fire (hold : α → Nat) (t : Timeline α) (ws : List (Timer α)) (key : String) (hname : w.key = name w.action) :
    (t.fire hold w ws).1.stops key =
      t.stops key ++ (startsFor name key (t.fire hold w ws).2).map fun p => p.1 + hold p.2 := by
  unfold fire
  split
  · simp [stops, startsFor]
  · by_cases hkey : w.key = key
    · simp [stops, startsFor, startOf?, hkey, ← hname]
    · simp [stops, startsFor, startOf?, hkey, ← hname]

theorem stops_settle {e : Execution α} {es : List (Execution α)}
    (he : takeEarliest (·.stop) t.executing = some (e, es)) (key : String) :
    (t.settle e es).1.stops key = t.stops key ∨
      e.stop ∈ t.stops key ∧ (t.stops key).length = ((t.settle e es).1.stops key).length + 1 := by
  obtain ⟨before, after, hexecuting, rfl⟩ := takeEarliest_split he
  simp only [stops, settle, hexecuting]
  by_cases hkey : e.key = key
  · right
    simp [hkey]
    omega
  · left
    simp [hkey]

theorem filter_stops_settle {e : Execution α} {es : List (Execution α)}
    (he : takeEarliest (·.stop) t.executing = some (e, es)) (hle : e.stop ≤ target) (key : String) :
    ((t.settle e es).1.stops key).filter (target < ·) = (t.stops key).filter (target < ·) := by
  obtain ⟨before, after, hexecuting, rfl⟩ := takeEarliest_split he
  simp only [stops, settle, hexecuting]
  by_cases hkey : e.key = key
  · simp [hkey, Nat.not_lt.mpr hle]
  · simp [hkey]

theorem filter_stops_step? (h : t.Orderly name) (hstep : t.step? hold target = some (t', events)) (key : String) :
    (t'.stops key).filter (target < ·) =
      (t.stops key ++ (startsFor name key events).map fun p => p.1 + hold p.2).filter (target < ·) := by
  rcases step?_cases hstep with ⟨e, es, he, hle, heq⟩ | ⟨w, ws, hw, -, heq⟩
  · cases heq
    refine (filter_stops_settle he hle key).trans ?_
    exact congrArg (List.filter _) (List.append_nil _).symm
  · obtain ⟨before, after, hwaiting, -⟩ := takeEarliest_split hw
    obtain ⟨rfl, rfl⟩ : t' = (t.fire hold w ws).1 ∧ events = (t.fire hold w ws).2 :=
      ⟨congrArg Prod.fst heq, congrArg Prod.snd heq⟩
    rw [stops_fire hold t ws key (h.named w (by simp [hwaiting]))]

/-- What executes in the end was executing or was started, and ends later than the clock shows. -/
theorem stops_advance (h : t.Orderly name) (hold : α → Nat) (target : Nat) (key : String) :
    (t.advance hold target).1.stops key =
      (t.stops key ++ (startsFor name key (t.advance hold target).2).map fun p => p.1 + hold p.2).filter (target < ·) := by
  induction t using Timeline.advance.induct hold target with
  | case1 t hnone =>
      have hlater : ∀ stop ∈ t.stops key, target < stop := by
        intro stop hstop
        obtain ⟨e, he, rfl⟩ := List.mem_map.mp hstop
        exact (lt_of_step?_eq_none hnone).2 e (List.mem_filter.mp he).1
      rw [advance_of_none hnone]
      show t.stops key = (t.stops key ++ []).filter (target < ·)
      rw [List.append_nil, List.filter_eq_self.mpr (by simpa using hlater)]
  | case2 t next events hsome final later hfinal ih =>
      rw [advance_of_some hsome, startsFor_append, ih (h.step? hsome).1, List.map_append, ← List.append_assoc,
        List.filter_append, List.filter_append (t.stops key ++ _), filter_stops_step? h hsome]

theorem Shows.of_same (h : t.Shows key lane) (harmed : ∀ w, t.Armed w → w.key = key → t'.Armed w)
    (hpending : key ∉ t.scheduler.pending → key ∉ t'.scheduler.pending) (hstops : t'.stops key = t.stops key) :
    t'.Shows key lane := by
  cases lane with
  | idle => exact ⟨hpending h.1, hstops.trans h.2⟩
  | armed due action =>
      obtain ⟨⟨w, hw, hkey, htimer⟩, hnone⟩ := h
      exact ⟨⟨w, harmed w hw hkey, hkey, htimer⟩, hstops.trans hnone⟩
  | busy stop => exact ⟨hpending h.1, hstops.trans h.2⟩

/-- The next thing that happens is nothing to the lane, or the start of its action, or the end of it. -/
theorem Shows.step? (h : t.Shows key lane) (horderly : t.Orderly name) (hstep : t.step? hold target = some (t', events)) :
    (t'.Shows key lane ∧ startsFor name key events = []) ∨
    (∃ due action, lane = .armed due action ∧ due ≤ target ∧ t'.Shows key (.busy (due + hold action)) ∧
      startsFor name key events = [(due, action)]) ∨
    ∃ stop, lane = .busy stop ∧ stop ≤ target ∧ t'.Shows key .idle ∧ startsFor name key events = [] := by
  rcases step?_cases hstep with ⟨e, es, he, hle, heq⟩ | ⟨w, ws, hw, hdue, heq⟩
  · obtain ⟨rfl, rfl⟩ : t' = (t.settle e es).1 ∧ events = (t.settle e es).2 :=
      ⟨congrArg Prod.fst heq, congrArg Prod.snd heq⟩
    rcases stops_settle he key with hsame | ⟨hstop, hlength⟩
    · exact Or.inl ⟨h.of_same (fun v harmed _ => ⟨harmed.mem, harmed.pending⟩) id hsame, rfl⟩
    · cases lane with
      | idle => simp [h.2] at hstop
      | armed due action => simp [h.2] at hstop
      | busy stop =>
          rw [h.2] at hstop hlength
          rw [← List.mem_singleton.mp hstop]
          exact Or.inr (Or.inr ⟨_, rfl, hle, ⟨h.1, by simpa using hlength⟩, rfl⟩)
  · obtain ⟨before, after, hwaiting, -⟩ := takeEarliest_split hw
    have hstops := stops_fire hold t ws key (horderly.named w (by simp [hwaiting]))
    rw [← heq] at hstops
    cases lane with
    | idle =>
        obtain ⟨hpending, hstarts⟩ := step?_unarmed horderly h.1 hstep
        exact Or.inl ⟨⟨hpending, by simp [hstops, h.2, hstarts]⟩, hstarts⟩
    | armed due action =>
        obtain ⟨⟨v, harmed, rfl, rfl, rfl⟩, hnone⟩ := h
        rcases step?_armed horderly harmed hstep with ⟨harmed', hstarts⟩ | ⟨hdue', hpending, hstarts⟩
        · exact Or.inl ⟨⟨⟨v, harmed', rfl, rfl, rfl⟩, by simp [hstops, hnone, hstarts]⟩, hstarts⟩
        · exact Or.inr (Or.inl ⟨_, _, rfl, hdue', ⟨hpending, by simp [hstops, hnone, hstarts]⟩, hstarts⟩)
    | busy stop =>
        obtain ⟨hpending, hstarts⟩ := step?_unarmed horderly h.1 hstep
        exact Or.inl ⟨⟨hpending, by simp [hstops, h.2, hstarts]⟩, hstarts⟩

theorem Shows.advance_of_none (h : t.Shows key lane) (hnone : t.step? hold target = none) :
    lane.advance hold target = (lane, []) := by
  obtain ⟨hwaiting, hexecuting⟩ := lt_of_step?_eq_none hnone
  cases lane with
  | idle => rfl
  | armed due action =>
      obtain ⟨⟨w, harmed, -, rfl, -⟩, -⟩ := h
      exact Lane.advance_armed_of_not_le hold action (Nat.not_le.mpr (hwaiting w harmed.mem))
  | busy stop =>
      have hstop : stop ∈ t.stops key := by simp [h.2]
      obtain ⟨e, he, rfl⟩ := List.mem_map.mp hstop
      have hlater := hexecuting e (List.mem_filter.mp he).1
      rw [Lane.advance, Lane.busyUntil, if_neg (Nat.not_le.mpr hlater)]

theorem Shows.advance (h : t.Shows key lane) (horderly : t.Orderly name) (hold : α → Nat) (target : Nat) :
    (t.advance hold target).1.Shows key (lane.advance hold target).1 ∧
      startsFor name key (t.advance hold target).2 = (lane.advance hold target).2 := by
  induction t using Timeline.advance.induct hold target generalizing lane with
  | case1 t hnone =>
      rw [Timeline.advance_of_none hnone, h.advance_of_none hnone]
      exact ⟨h.of_same (fun w hw _ => ⟨hw.mem, hw.pending⟩) id rfl, rfl⟩
  | case2 t next events hsome final later hfinal ih =>
      -- what the lane does at once, the timeline does bit by bit
      rw [advance_of_some hsome, startsFor_append]
      rcases h.step? horderly hsome with ⟨hnext, hstarts⟩ | ⟨due, action, rfl, hdue, hnext, hstarts⟩ |
        ⟨stop, rfl, hstop, hnext, hstarts⟩
      · rw [hstarts]
        exact ih hnext (horderly.step? hsome).1
      · rw [hstarts, Lane.advance_armed_of_le hold action hdue]
        obtain ⟨hshows, hlater⟩ := ih hnext (horderly.step? hsome).1
        rw [hlater]
        exact ⟨hshows, rfl⟩
      · rw [hstarts, Lane.advance, Lane.busyUntil, if_pos hstop]
        exact ih hnext (horderly.step? hsome).1

end Timeline

/-! ## Following a key -/

/-- The timeline and the lane of a key are in step. -/
structure Tracks (name : α → String) (delay : Nat) (key : String) (t : Timeline α) (lane : Lane α) : Prop where
  orderly : t.Orderly name
  traced : Traced delay t
  delay : t.scheduler.delay = delay
  shows : t.Shows key lane

variable {t t' : Timeline α} {lane : Lane α}

theorem Tracks.start (name : α → String) (delay : Nat) (key : String) :
    Tracks name delay key (Timeline.ofDelay delay : Timeline α) .idle :=
  ⟨.start name _ _, .start delay, rfl, by simp [Timeline.Shows, Timeline.stops, Timeline.ofDelay]⟩

theorem Tracks.advance (h : Tracks name delay key t lane) (hold : α → Nat) (target : Nat) :
    Tracks name delay key (t.advance hold target).1 (lane.advance hold target).1 := by
  obtain ⟨horderly, hdelay, -⟩ := h.orderly.advance hold target
  exact ⟨horderly, h.traced.advance hold target, hdelay.trans h.delay, (h.shows.advance h.orderly hold target).1⟩

/-- A request is dropped exactly if its key is busy. -/
theorem Tracks.request?_eq_none_iff (h : Tracks name delay key t lane) (action : α) :
    t.request? key action = none ↔ ∃ stop, lane = .busy stop := by
  have hrunning : t.request? key action = none ↔ ∃ stop, t.stops key = [stop] := by
    rw [Timeline.request?, Option.map_eq_none_iff, Scheduler.request?_eq_none_iff, h.traced.running_iff]
    constructor
    · rintro ⟨e, he⟩
      exact ⟨e.stop, by rw [Timeline.stops, he, List.map_singleton]⟩
    · rintro ⟨stop, hstop⟩
      obtain ⟨e, he, -⟩ := List.map_eq_singleton_iff.mp hstop
      exact ⟨e, he⟩
  rw [hrunning]
  cases lane with
  | idle => simp [h.shows.2]
  | armed due action => simp [h.shows.2]
  | busy stop => simp [h.shows.2]

theorem Tracks.carryOut (h : Tracks name delay key t lane) (o : Order α) (htime : t.now = o.time) :
    Tracks name delay key (t.carryOut name o) (lane.carryOut name key delay o) := by
  cases o with
  | cancelAll time =>
      have hunarmed : key ∉ t.cancelAll.scheduler.pending := ExtTreeMap.not_mem_empty
      refine ⟨h.orderly.of_sublist (List.Sublist.refl _) rfl, h.traced.cancelAll, h.delay, ?_⟩
      cases lane with
      | idle => exact ⟨hunarmed, h.shows.2⟩
      | armed due action => exact ⟨hunarmed, h.shows.2⟩
      | busy stop => exact ⟨hunarmed, h.shows.2⟩
  | run time action =>
      rw [Timeline.carryOut, Lane.carryOut]
      cases hrequest : t.request? (name action) action with
      | none =>
          rw [Option.getD_none]
          split
          · next hname =>
            obtain ⟨stop, rfl⟩ := (h.request?_eq_none_iff action).mp (hname ▸ hrequest)
            exact h
          · exact h
      | some t' =>
          -- the new timer is the armed one, whatever was armed before
          have hkept := Timeline.request?_eq_some hrequest
          have hstops : t'.stops key = t.stops key := by rw [hkept]; rfl
          rw [Option.getD_some]
          refine ⟨h.orderly.request? hrequest rfl, h.traced.request? hrequest, by rw [hkept]; exact h.delay, ?_⟩
          split
          · next hname =>
            have hdue : t.now + wait t.scheduler.delay = time + wait delay := by rw [htime, h.delay, Order.time]
            have harmed : ∃ w, t'.Armed w ∧ w.key = key ∧ w.due = time + wait delay ∧ w.action = action :=
              ⟨_, Timeline.armed_of_request? hrequest, hname, hdue, rfl⟩
            cases lane with
            | idle => exact ⟨harmed, hstops.trans h.shows.2⟩
            | armed due action => exact ⟨harmed, hstops.trans h.shows.2⟩
            | busy stop =>
                have hnone := (h.request?_eq_none_iff action).mpr ⟨stop, rfl⟩
                rw [← hname, hrequest] at hnone
                cases hnone
          · next hname =>
            exact h.shows.of_same (fun w hw hkey => hw.request? hrequest (by rwa [hkey]))
              (fun hkey => Timeline.unarmed_of_request? hkey hrequest hname) hstops

/-- Whatever is ordered, the timeline does for the key what the lane does. -/
theorem Tracks.playTo (h : Tracks name delay key t lane) (hold : α → Nat) (target : Nat) (orders : List (Order α)) :
    Tracks name delay key (t.playTo name hold target orders).1 (lane.playTo name hold key delay target orders).1 ∧
      startsFor name key (t.playTo name hold target orders).2 = (lane.playTo name hold key delay target orders).2 := by
  induction orders generalizing t lane with
  | nil => exact ⟨h.advance hold target, (h.shows.advance h.orderly hold target).2⟩
  | cons o orders ih =>
      obtain ⟨-, -, hnow⟩ := h.orderly.advance hold o.time
      obtain ⟨htracks, hstarts⟩ := ih ((h.advance hold o.time).carryOut o hnow)
      rw [Timeline.playTo_cons, Lane.playTo_cons]
      refine ⟨htracks, ?_⟩
      show startsFor name key (_ ++ _) = _ ++ _
      rw [startsFor_append, (h.shows.advance h.orderly hold o.time).2, hstarts]

end SqfIndex.Debounce
