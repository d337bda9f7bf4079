import SqfIndex.Proofs.Debounce.Lanes

/-!
# When actions start

At every time a lane shows which of its starts are not over (`Lane.Recorded`), and an armed lane starts its action when
it is due unless an order for its key comes before (`Lane.mem_playTo_armed_iff`). For the timelines this tells when
requests are dropped and when actions are started: `starts_exact`.
-/

namespace SqfIndex.Debounce

variable {α : Type} {name : α → String} {hold : α → Nat} {delay now target : Nat} {key : String}

namespace Lane

variable {lane : Lane α} {starts : List (Nat × α)} {o : Order α} {orders : List (Order α)} {due stop : Nat} {action : α}

/-! ## Moves of a lane -/

theorem armed_of_mem_advance {p : Nat × α} (h : p ∈ (lane.advance hold target).2) :
    lane = .armed p.1 p.2 ∧ p.1 ≤ target := by
  cases lane with
  | idle => cases h
  | busy stop => cases h
  | armed due action =>
      simp only [advance] at h
      split at h
      · next hdue =>
        rw [List.mem_singleton.mp h]
        exact ⟨rfl, hdue⟩
      · cases h

theorem busyUntil_eq_busy_iff {stop' : Nat} : busyUntil target stop = (.busy stop' : Lane α) ↔ stop = stop' ∧ target < stop' := by
  unfold busyUntil
  split
  · simp
    omega
  · simp
    omega

theorem advance_eq_busy_iff :
    (lane.advance hold target).1 = .busy stop ↔
      (lane = .busy stop ∨ ∃ p ∈ (lane.advance hold target).2, p.1 + hold p.2 = stop) ∧ target < stop := by
  cases lane with
  | idle => simp [advance]
  | busy stop' => simp [advance, busyUntil_eq_busy_iff]
  | armed due action =>
      by_cases hdue : due ≤ target
      · simp [advance_armed_of_le hold action hdue, busyUntil_eq_busy_iff]
      · simp [advance_armed_of_not_le hold action hdue]

theorem armed_of_advance (h : (lane.advance hold target).1 = .armed due action) :
    lane = .armed due action ∧ target < due := by
  have hbusy (stop : Nat) : busyUntil target stop ≠ .armed due action := by
    unfold busyUntil
    split <;> simp
  cases lane with
  | idle => cases h
  | busy stop => exact absurd h (hbusy stop)
  | armed due' action' =>
      simp only [advance] at h
      split at h
      · exact absurd h (hbusy _)
      · next hdue =>
        cases h
        exact ⟨rfl, Nat.lt_of_not_le hdue⟩

theorem armed_of_carryOut (h : lane.carryOut name key delay o = .armed due action) :
    o.concerns name key = false ∧ lane = .armed due action ∨ o.action? = some action ∧ due = o.time + wait delay := by
  cases o with
  | cancelAll time => cases lane <;> simp [carryOut, cancel] at h
  | run time action' =>
      simp only [carryOut] at h
      split at h
      · cases lane with
        | busy stop => cases h
        | idle => cases h; exact Or.inr ⟨rfl, rfl⟩
        | armed due' action'' => cases h; exact Or.inr ⟨rfl, rfl⟩
      · next hname => exact Or.inl ⟨by simpa [Order.concerns] using hname, h⟩

theorem carryOut_eq_busy_iff : lane.carryOut name key delay o = .busy stop ↔ lane = .busy stop := by
  cases o with
  | cancelAll time => cases lane <;> simp [carryOut, cancel]
  | run time action' =>
      simp only [carryOut]
      split
      · cases lane <;> simp [request?]
      · rfl

/-! ## What is not over -/

/-- What a lane shows at a time of the starts up to then: it is busy with the one that is not over. -/
structure Recorded (hold : α → Nat) (now : Nat) (lane : Lane α) (starts : List (Nat × α)) : Prop where
  ahead : ∀ due action, lane = .armed due action → now < due
  past : ∀ p ∈ starts, p.1 ≤ now
  busy_iff : ∀ stop, lane = .busy stop ↔ ∃ p ∈ starts, p.1 + hold p.2 = stop ∧ now < stop

theorem Recorded.start (hold : α → Nat) : Recorded hold 0 .idle [] := ⟨by simp, by simp, by simp⟩

theorem Recorded.advance (h : Recorded hold now lane starts) (hle : now ≤ target) :
    Recorded hold target (lane.advance hold target).1 (starts ++ (lane.advance hold target).2) := by
  refine ⟨fun due action harmed => (armed_of_advance harmed).2, ?_, ?_⟩
  · intro p hp
    rcases List.mem_append.mp hp with hp | hp
    · exact Nat.le_trans (h.past p hp) hle
    · exact (armed_of_mem_advance hp).2
  · intro stop
    rw [advance_eq_busy_iff, h.busy_iff]
    constructor
    · rintro ⟨⟨p, hp, hend, -⟩ | ⟨p, hp, hend⟩, hlater⟩
      · exact ⟨p, List.mem_append_left _ hp, hend, hlater⟩
      · exact ⟨p, List.mem_append_right _ hp, hend, hlater⟩
    · rintro ⟨p, hp, hend, hlater⟩
      refine ⟨(List.mem_append.mp hp).imp ?_ ?_, hlater⟩
      · exact fun hp => ⟨p, hp, hend, Nat.lt_of_le_of_lt hle hlater⟩
      · exact fun hp => ⟨p, hp, hend⟩

theorem Recorded.carryOut (h : Recorded hold o.time lane starts) (name : α → String) (key : String) (hdelay : 0 < delay) :
    Recorded hold o.time (lane.carryOut name key delay o) starts := by
  refine ⟨?_, h.past, fun stop => carryOut_eq_busy_iff.trans (h.busy_iff stop)⟩
  intro due action harmed
  rcases armed_of_carryOut harmed with ⟨-, hsame⟩ | ⟨-, rfl⟩
  · exact h.ahead due action hsame
  · have hwait : 0 < wait delay := by
      unfold wait
      split
      · exact hdelay
      · decide
    omega

theorem Recorded.playTo (h : Recorded hold now lane starts) (hdelay : 0 < delay) (htimed : Timed target now orders) :
    Recorded hold target (lane.playTo name hold key delay target orders).1
      (starts ++ (lane.playTo name hold key delay target orders).2) := by
  induction orders generalizing now lane starts with
  | nil => exact h.advance htimed
  | cons o orders ih =>
      have hnext := ih ((h.advance htimed.1).carryOut name key hdelay) htimed.2
      rwa [List.append_assoc] at hnext

theorem Recorded.lt_of_mem_playTo (h : Recorded hold now lane starts) (hdelay : 0 < delay)
    (htimed : Timed target now orders) {p : Nat × α} (hp : p ∈ (lane.playTo name hold key delay target orders).2) :
    now < p.1 := by
  induction orders generalizing now lane starts with
  | nil => exact h.ahead _ _ (armed_of_mem_advance hp).1
  | cons o orders ih =>
      rw [playTo_cons] at hp
      rcases List.mem_append.mp hp with hp | hp
      · exact h.ahead _ _ (armed_of_mem_advance hp).1
      · exact Nat.lt_of_le_of_lt htimed.1 (ih ((h.advance htimed.1).carryOut name key hdelay) htimed.2 hp)

/-- A lane is busy exactly if one of the actions that are ever started is on. -/
theorem Recorded.busy_iff_on (h : Recorded hold now lane starts) {more : List (Nat × α)} (hmore : ∀ p ∈ more, now < p.1)
    (hclear : ∀ action, (now, action) ∉ starts) :
    (∃ stop, lane = .busy stop) ↔ ∃ p ∈ starts ++ more, p.1 < now ∧ now < p.1 + hold p.2 := by
  constructor
  · rintro ⟨stop, hbusy⟩
    obtain ⟨p, hp, rfl, hlater⟩ := (h.busy_iff stop).mp hbusy
    have hne : p.1 ≠ now := by
      rintro rfl
      exact hclear p.2 hp
    exact ⟨p, List.mem_append_left _ hp, Nat.lt_of_le_of_ne (h.past p hp) hne, hlater⟩
  · rintro ⟨p, hp, hearlier, hlater⟩
    rcases List.mem_append.mp hp with hp | hp
    · exact ⟨_, (h.busy_iff _).mpr ⟨p, hp, rfl, hlater⟩⟩
    · exact absurd (hmore p hp) (Nat.lt_asymm hearlier)

/-! ## What an armed lane starts -/

theorem action_of_mem_playTo {p : Nat × α} (h : p ∈ (lane.playTo name hold key delay target orders).2) :
    (∃ due, lane = .armed due p.2) ∨ ∃ o ∈ orders, o.action? = some p.2 := by
  induction orders generalizing lane with
  | nil => exact Or.inl ⟨_, (armed_of_mem_advance h).1⟩
  | cons o orders ih =>
      rw [playTo_cons] at h
      rcases List.mem_append.mp h with h | h
      · exact Or.inl ⟨_, (armed_of_mem_advance h).1⟩
      · rcases ih h with ⟨due, harmed⟩ | ⟨o', ho', haction⟩
        · rcases armed_of_carryOut harmed with ⟨-, harmed⟩ | ⟨ho, -⟩
          · exact Or.inl ⟨due, (armed_of_advance harmed).1⟩
          · exact Or.inr ⟨o, List.mem_cons_self, ho⟩
        · exact Or.inr ⟨o', List.mem_cons_of_mem o ho', haction⟩

/-- An action is started only if the lane is armed for it or it is ordered. -/
theorem notMem_playTo (hlane : ∀ due, lane ≠ .armed due action) (hnew : ∀ o ∈ orders, o.action? ≠ some action)
    (start : Nat) : (start, action) ∉ (lane.playTo name hold key delay target orders).2 := by
  intro hmem
  rcases action_of_mem_playTo hmem with ⟨due, harmed⟩ | ⟨o, ho, haction⟩
  · exact hlane due harmed
  · exact hnew o ho haction

/-- An armed lane starts its action when it is due, unless an order for the key comes before. -/
theorem mem_playTo_armed_iff (htimed : Timed target now orders) (hnew : ∀ o ∈ orders, o.action? ≠ some action)
    (start : Nat) :
    (start, action) ∈ ((armed due action).playTo name hold key delay target orders).2 ↔
      start = due ∧ due ≤ target ∧ ∀ o ∈ orders, o.concerns name key = true → due ≤ o.time := by
  induction orders generalizing now with
  | nil =>
      by_cases hdue : due ≤ target
      · simp [playTo, advance_armed_of_le hold action hdue, hdue]
      · simp [playTo, advance_armed_of_not_le hold action hdue, hdue]
  | cons o orders ih =>
      obtain ⟨hfirst, hrest⟩ := List.forall_mem_cons.mp hnew
      rw [playTo_cons]
      by_cases hdue : due ≤ o.time
      · -- the action is started before the order, and not again
        have hover : ∀ due', (busyUntil o.time (due + hold action)).carryOut name key delay o ≠ .armed due' action := by
          intro due' harmed
          rcases armed_of_carryOut harmed with ⟨-, hbusy⟩ | ⟨ho, -⟩
          · unfold busyUntil at hbusy
            split at hbusy <;> cases hbusy
          · exact hfirst ho
        have htimed' : Timed target o.time (o :: orders) := ⟨Nat.le_refl _, htimed.2⟩
        rw [advance_armed_of_le hold action hdue]
        simp only [Prod.map_snd, List.mem_append, notMem_playTo hover hrest, or_false, List.mem_singleton, Prod.mk.injEq,
          and_true]
        constructor
        · rintro rfl
          exact ⟨rfl, Nat.le_trans hdue htimed.2.le, fun o' ho' _ => Nat.le_trans hdue (htimed'.le_time o' ho')⟩
        · exact And.left
      · rw [advance_armed_of_not_le hold action hdue]
        simp only [Prod.map_snd, List.nil_append]
        cases hconcerns : o.concerns name key with
        | false =>
            rw [carryOut_of_not_concerns hconcerns, ih htimed.2 hrest, List.forall_mem_cons, hconcerns]
            simp
        | true =>
            have hover : ∀ due', (armed due action).carryOut name key delay o ≠ .armed due' action := by
              intro due' harmed
              rcases armed_of_carryOut harmed with ⟨hnot, -⟩ | ⟨ho, -⟩
              · rw [hconcerns] at hnot
                cases hnot
              · exact hfirst ho
            refine iff_of_false (notMem_playTo hover hrest start) ?_
            rintro ⟨-, -, hundisturbed⟩
            exact hdue (hundisturbed o List.mem_cons_self hconcerns)

/-- The action of a request is started if the lane was not busy and no order for the key comes before it is due. -/
theorem mem_playTo_request_iff {time : Nat} (hname : name action = key) (htimed : Timed target time orders)
    (hnew : ∀ o ∈ orders, o.action? ≠ some action) (start : Nat) :
    (start, action) ∈ ((lane.carryOut name key delay (.run time action)).playTo name hold key delay target orders).2 ↔
      (¬∃ stop, lane = .busy stop) ∧ start = time + wait delay ∧ time + wait delay ≤ target ∧
        ∀ o ∈ orders, o.concerns name key = true → time + wait delay ≤ o.time := by
  rw [carryOut, if_pos hname]
  cases lane with
  | busy stop => exact iff_of_false (notMem_playTo (by simp [request?]) hnew start) fun h => h.1 ⟨stop, rfl⟩
  | idle =>
      rw [and_iff_right (by simp)]
      exact mem_playTo_armed_iff htimed hnew start
  | armed due action' =>
      rw [and_iff_right (by simp)]
      exact mem_playTo_armed_iff htimed hnew start

end Lane

/-! ## Schedules -/

/-- Orders up to some time, each with an action of its own. -/
structure Schedule (α : Type) where
  orders : List (Order α)
  horizon : Nat
  timed : Timed horizon 0 orders
  distinct : (orders.filterMap Order.action?).Nodup

namespace Schedule

variable (S : Schedule α) {before later : List (Order α)} {time : Nat} {action : α}

/-- The actions of a key that are started, with the times of their starts. -/
def starts (name : α → String) (hold : α → Nat) (delay : Nat) (key : String) : List (Nat × α) :=
  startsFor name key ((Timeline.ofDelay delay).playTo name hold S.horizon S.orders).2

def restrict (name : α → String) (key : String) : Schedule α where
  orders := S.orders.filter (·.concerns name key)
  horizon := S.horizon
  timed := S.timed.filter _
  distinct := S.distinct.sublist (List.filter_sublist.filterMap _)

theorem starts_eq (name : α → String) (hold : α → Nat) (delay : Nat) (key : String) :
    S.starts name hold delay key = (Lane.idle.playTo name hold key delay S.horizon S.orders).2 :=
  ((Tracks.start name delay key).playTo hold S.horizon S.orders).2

theorem action_notMem (hsplit : S.orders = before ++ .run time action :: later) :
    (∀ o ∈ before, o.action? ≠ some action) ∧ ∀ o ∈ later, o.action? ≠ some action := by
  have hdistinct := S.distinct
  have hmiddle : (Order.run time action :: later).filterMap Order.action? = action :: later.filterMap Order.action? := rfl
  rw [hsplit, List.filterMap_append, hmiddle, List.nodup_middle, List.nodup_cons, List.mem_append, not_or] at hdistinct
  obtain ⟨⟨hbefore, hlater⟩, -⟩ := hdistinct
  exact ⟨fun o ho haction => hbefore (List.mem_filterMap.mpr ⟨o, ho, haction⟩),
    fun o ho haction => hlater (List.mem_filterMap.mpr ⟨o, ho, haction⟩)⟩

end Schedule

/-- A request is dropped exactly while an action of its key is on, which was started before and is not over. The action
of a request is started once it has waited for the delay, or for as long as can be waited for, if the request is not
dropped and no later order for its key comes before; and never else. Orders for other keys make no difference. -/
theorem requests_started_exactly (name : α → String) (hold : α → Nat) {delay : Nat} (hdelay : 0 < delay) (S : Schedule α)
    (key : String) (hclear : ∀ o ∈ S.orders, ∀ action, (o.time, action) ∉ S.starts name hold delay key) :
    (∀ before time action later, S.orders = before ++ .run time action :: later → name action = key →
      let reply := ((Timeline.ofDelay delay).playTo name hold time before).1.request? key action
      (reply = none ↔ ∃ p ∈ S.starts name hold delay key, p.1 < time ∧ time < p.1 + hold p.2) ∧
      (∀ start, (start, action) ∈ S.starts name hold delay key ↔
        reply ≠ none ∧ start = time + wait delay ∧ time + wait delay ≤ S.horizon ∧
          ∀ o ∈ later, o.concerns name key = true → time + wait delay ≤ o.time) ∧
      (reply = none ↔
        ((Timeline.ofDelay delay).playTo name hold time (before.filter (·.concerns name key))).1.request? key action =
          none)) ∧
    (S.restrict name key).starts name hold delay key = S.starts name hold delay key := by
  refine ⟨?_, ?_⟩
  · intro before time action later hsplit hname reply
    have htimed := S.timed
    rw [hsplit] at htimed
    obtain ⟨hbefore, hlater⟩ : Timed time 0 before ∧ Timed S.horizon time later := htimed.split
    obtain ⟨hearlier, hnew⟩ := S.action_notMem hsplit
    have hreply (orders : List (Order α)) :=
      ((Tracks.start name delay key).playTo hold time orders).1.request?_eq_none_iff action
    have hdropped : reply = none ↔ _ := hreply before
    have hstarts := S.starts_eq name hold delay key
    rw [hsplit, Lane.playTo_split] at hstarts
    -- what was started before the request, and what is started after it
    have hrecorded : Lane.Recorded hold time _ ([] ++ (Lane.idle.playTo name hold key delay time before).2) :=
      (Lane.Recorded.start hold).playTo hdelay hbefore
    rw [List.nil_append] at hrecorded
    refine ⟨?_, ?_, ?_⟩
    · rw [hdropped, hstarts]
      refine hrecorded.busy_iff_on ?_ ?_
      · exact fun p hp => (hrecorded.carryOut name key hdelay).lt_of_mem_playTo hdelay hlater hp
      · intro action' hmem
        refine hclear (.run time action) (by simp [hsplit]) action' ?_
        rw [hstarts]
        exact List.mem_append_left _ hmem
    · intro start
      have hbefore : (start, action) ∉ (Lane.idle.playTo name hold key delay time before).2 :=
        Lane.notMem_playTo (by simp) hearlier start
      rw [hstarts, ne_eq, hdropped]
      exact (List.mem_append.trans (or_iff_right hbefore)).trans (Lane.mem_playTo_request_iff hname hlater hnew start)
    · rw [hdropped, hreply, Lane.playTo_filter name hold key delay hbefore]
  · rw [Schedule.starts_eq, Schedule.starts_eq]
    exact congrArg Prod.snd (Lane.playTo_filter name hold key delay S.timed .idle)

/-- Four requests, the third for another key. -/
def burst : Schedule Nat where
  orders := [.run 0 0, .run 50 1, .run 60 2, .run 165 3]
  horizon := 500
  timed := by decide
  distinct := by decide

def burstName (action : Nat) : String := if action = 2 then "other" else "k"

/-- The second request takes the place of the first, and the fourth comes while its action is on. -/
theorem burst_started_once :
    burst.starts burstName (fun _ => 30) 100 "k" = [(150, 1)] ∧
      (((Timeline.ofDelay 100).playTo burstName (fun _ => 30) 165 [.run 0 0, .run 50 1, .run 60 2]).1.request? "k" 3).isNone
        = true := by
  have hstarts : burst.starts burstName (fun _ => 30) 100 "k" = [(150, 1)] := by
    rw [Schedule.starts_eq]
    decide +kernel
  have htimes : ∀ o ∈ burst.orders, o.time ≠ 150 := by decide
  have hclear : ∀ o ∈ burst.orders, ∀ action, (o.time, action) ∉ burst.starts burstName (fun _ => 30) 100 "k" := by
    intro o ho action hmem
    rw [hstarts, List.mem_singleton] at hmem
    exact htimes o ho (congrArg Prod.fst hmem)
  obtain ⟨hrequests, -⟩ := requests_started_exactly burstName (fun _ => 30) (by decide) burst "k" hclear
  obtain ⟨hdropped, -⟩ := hrequests [.run 0 0, .run 50 1, .run 60 2] 165 3 [] rfl rfl
  refine ⟨hstarts, ?_⟩
  rw [Option.isNone_iff_eq_none, hdropped, hstarts]
  exact ⟨(150, 1), by decide, by decide, by decide⟩

def loneRequest : Schedule Unit where
  orders := [.run 0 ()]
  horizon := 2 * longestWait
  timed := by decide
  distinct := by decide

/-- A delay that is longer than can be waited for is cut short. -/
theorem overlong_delay_cut_short :
    ((Timeline.ofDelay (longestWait + 7) : Timeline Unit).request? "k" ()).isSome = true ∧
      0 + (longestWait + 7) ≤ loneRequest.horizon ∧
      loneRequest.starts (fun _ => "k") (fun _ => 0) (longestWait + 7) "k" = [(longestWait, ())] ∧
      (0 + (longestWait + 7), ()) ∉ loneRequest.starts (fun _ => "k") (fun _ => 0) (longestWait + 7) "k" := by
  have hstarts : loneRequest.starts (fun _ => "k") (fun _ => 0) (longestWait + 7) "k" = [(longestWait, ())] := by
    rw [Schedule.starts_eq]
    decide +kernel
  refine ⟨by decide, by decide, hstarts, ?_⟩
  rw [hstarts]
  decide

end SqfIndex.Debounce
