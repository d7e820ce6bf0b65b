import UCore.Lib.Transition
import UCore.Schedule.RoundRobin
import UCore.Schedule.Timer

/-!
Contract: when timers expire.

Owns:
- the runs in which timers are added, deleted and ticked, while the rest of the kernel does
  anything to the processes;
- the invariant that each timer waits for the tick that was asked for;
- which timers a tick removes and which processes it wakes.

Does not own: any scheduling class.
-/

set_option autoImplicit false

namespace UCore.Schedule

open UCore.Lib

/-! ## The loop of `run_timer_list` -/

/-- `wakeup_proc` of one process after the other. -/
def wakeEach (schedClass : SchedClass) : Kernel → List Nat → Except Stop Kernel
  | kernel, [] => .ok kernel
  | kernel, proc :: rest => do
      let woken ← wakeupProc schedClass kernel proc
      wakeEach schedClass woken rest

variable {schedClass : SchedClass} {kernel after : Kernel} {timers left : List Timer}

/-- The loop removes the timers at the front that count nothing, and wakes their processes. -/
theorem wakeExpired_ok (done : wakeExpired schedClass kernel timers = .ok (after, left)) :
    ∃ gone, timers = gone ++ left ∧ (∀ timer ∈ gone, timer.expires = 0) ∧ HeadCounts left ∧
      wakeEach schedClass kernel (gone.map Timer.proc) = .ok after := by
  induction timers generalizing kernel with
  | nil =>
      cases done
      exact ⟨[], rfl, nofun, nofun, rfl⟩
  | cons timer rest inductionHypothesis =>
      unfold wakeExpired at done
      by_cases expired : timer.expires = 0
      · have noAssert : ¬ ((kernel.procs timer.proc).waitState ≠ 0 ∧
            interruptible (kernel.procs timer.proc).waitState = false) := by
          intro asserts
          simp only [if_pos expired, if_pos asserts] at done
          cases done
        simp only [if_pos expired, if_neg noAssert] at done
        cases wakes : wakeupProc schedClass kernel timer.proc with
        | error stop =>
            rw [wakes] at done
            cases done
        | ok woken =>
            rw [wakes] at done
            obtain ⟨gone, split, zero, counts, wakesRest⟩ := inductionHypothesis done
            refine ⟨timer :: gone, congrArg (timer :: ·) split, ?_, counts, ?_⟩
            · intro other member
              rcases List.mem_cons.mp member with rfl | within
              · exact expired
              · exact zero other within
            · rw [List.map_cons, wakeEach, wakes]
              exact wakesRest
      · rw [if_neg expired] at done
        cases done
        refine ⟨[], rfl, nofun, ?_, rfl⟩
        intro first isHead
        cases isHead
        exact expired

/-- The first timer counts down, and `gone` is what is removed. -/
structure Expires (schedClass : SchedClass) (kernel : Kernel) (timers : List Timer) (after : Kernel)
    (left gone : List Timer) : Prop where
  split : (deltas timers).tick = deltas (gone ++ left)
  procs : timers.map Timer.proc = (gone ++ left).map Timer.proc
  zero : ∀ timer ∈ gone, timer.expires = 0
  counts : HeadCounts left
  wakes : ∃ woken, wakeEach schedClass kernel (gone.map Timer.proc) = .ok woken ∧
    after = schedClassProcTick schedClass woken woken.current

theorem runTimerList_ok (done : runTimerList schedClass kernel timers = .ok (after, left)) :
    ∃ gone, Expires schedClass kernel timers after left gone := by
  unfold runTimerList at done
  cases timers with
  | nil =>
      cases done
      exact ⟨[], rfl, rfl, nofun, nofun, kernel, rfl, rfl⟩
  | cons timer rest =>
      by_cases zero : timer.expires = 0
      · simp only [zero, if_true] at done
        cases done
      · simp only [if_neg zero] at done
        cases loop : wakeExpired schedClass kernel ({ timer with expires := timer.expires - 1 } :: rest) with
        | error stop =>
            rw [loop] at done
            cases done
        | ok result =>
            obtain ⟨woken, left'⟩ := result
            rw [loop] at done
            obtain ⟨rfl, rfl⟩ := Prod.mk.inj (Except.ok.inj done)
            obtain ⟨gone, split, zeros, counts, wakes⟩ := wakeExpired_ok loop
            refine ⟨gone, ?_, ?_, zeros, counts, woken, wakes, rfl⟩
            · rw [← split]
              rfl
            · rw [← split]
              rfl

/-! ## Runs -/

/-- A kernel with its timers. `now` counts the ticks, and `due` is the tick at which each timer is to
expire that was added and has neither been deleted nor expired. -/
structure Ticking where
  kernel : Kernel
  timers : List Timer
  now : Nat
  due : Nat → Option Nat

/-- `others` is anything that the rest of the kernel does. -/
inductive TimerEvent
  | addTimer (timer : Timer)
  | delTimer (link : Nat)
  | runTimerList
  | others (kernel : Kernel)

namespace Ticking

/-- The link of a timer that is added is empty, and its `expires` an `unsigned int`. -/
def Admits (state : Ticking) : TimerEvent → Prop
  | .addTimer timer => timer.link ∉ state.timers.map Timer.link ∧ timer.expires < 2 ^ 32
  | .delTimer _ | .runTimerList | .others _ => True

instance (state : Ticking) (event : TimerEvent) : Decidable (state.Admits event) :=
  match event with
  | .addTimer _ => inferInstanceAs (Decidable (_ ∧ _))
  | .delTimer _ | .runTimerList | .others _ => .isTrue trivial

def answer (schedClass : SchedClass) (state : Ticking) : TimerEvent → Except Stop Ticking
  | .addTimer timer => do
      let timers ← addTimer state.timers timer
      pure { state with
        timers := timers
        due := Function.update state.due timer.link (some (state.now + timer.expires)) }
  | .delTimer link =>
      .ok { state with
        timers := delTimer state.timers link
        due := Function.update state.due link none }
  | .runTimerList => do
      let (kernel, timers) ← runTimerList schedClass state.kernel state.timers
      pure
        { kernel := kernel
          timers := timers
          now := state.now + 1
          due := fun link =>
            if state.due link = some (state.now + 1) then none else state.due link }
  | .others kernel => .ok { state with kernel := kernel }

/-- No timer has been added. -/
def start (kernel : Kernel) : Ticking := ⟨kernel, [], 0, fun _ => none⟩

end Ticking

def timerMachine (schedClass : SchedClass) : Machine Ticking TimerEvent Stop :=
  ⟨Ticking.Admits, Ticking.answer schedClass⟩

instance (schedClass : SchedClass) : DecidableRel (timerMachine schedClass).Admits :=
  inferInstanceAs (∀ state event, Decidable (Ticking.Admits state event))

/-- Each timer has to wait for the ticks that are left until it is due. -/
structure OnTime (state : Ticking) : Prop where
  counts : HeadCounts state.timers
  distinct : (deltas state.timers).names.Nodup
  waits : ∀ link, state.due link = ((deltas state.timers).due link).map (state.now + ·)
  small : ∀ link wait, (deltas state.timers).due link = some wait → wait < 2 ^ 32

namespace OnTime

variable {state next : Ticking}

theorem start (kernel : Kernel) : OnTime (Ticking.start kernel) :=
  ⟨nofun, List.nodup_nil, fun _ => rfl, nofun⟩

theorem addTimer {timer : Timer} (onTime : OnTime state) (positive : timer.expires > 0)
    (fresh : timer.link ∉ state.timers.map Timer.link) (inRange : timer.expires < 2 ^ 32) :
    OnTime { state with
      timers := insertTimer state.timers timer
      due := Function.update state.due timer.link (some (state.now + timer.expires)) } := by
  rw [← names_deltas] at fresh
  have inserted : ∀ link, (deltas (insertTimer state.timers timer)).due link =
      if link = timer.link then some timer.expires else (deltas state.timers).due link := by
    intro link
    rw [deltas_insertTimer]
    exact DeltaList.due_insert fresh
  refine ⟨head_insertTimer (Nat.ne_of_gt positive) onTime.counts, ?_, ?_, ?_⟩
  · rw [deltas_insertTimer, DeltaList.names_insert.nodup_iff]
    exact List.nodup_cons.mpr ⟨fresh, onTime.distinct⟩
  · intro link
    rw [inserted link]
    by_cases same : link = timer.link
    · rw [if_pos same, same]
      exact Function.update_self _ _ _
    · rw [if_neg same, ← onTime.waits link]
      exact Function.update_of_ne same _ _
  · intro link wait waits
    rw [inserted link] at waits
    split_ifs at waits with same
    · rw [← Option.some.inj waits]
      exact inRange
    · exact onTime.small link wait waits

theorem delTimer (onTime : OnTime state) (link : Nat) :
    OnTime { state with
      timers := Schedule.delTimer state.timers link
      due := Function.update state.due link none } := by
  have removed : ∀ other, (deltas (Schedule.delTimer state.timers link)).due other =
      if other = link then none else (deltas state.timers).due other := by
    intro other
    rw [deltas_delTimer]
    exact DeltaList.due_remove onTime.distinct
  refine ⟨head_delTimer onTime.counts, ?_, ?_, ?_⟩
  · rw [deltas_delTimer, DeltaList.names_remove]
    exact onTime.distinct.erase link
  · intro other
    rw [removed other]
    by_cases same : other = link
    · rw [if_pos same, same]
      exact Function.update_self _ _ _
    · rw [if_neg same, ← onTime.waits other]
      exact Function.update_of_ne same _ _
  · intro other wait waits
    rw [removed other] at waits
    split_ifs at waits
    exact onTime.small other wait waits

/-- The timers that a tick removes are those that are due. -/
theorem gone_iff {gone : List Timer} (onTime : OnTime state)
    (expires : Expires schedClass state.kernel state.timers after left gone) (link : Nat) :
    (link ∈ (deltas gone).names ↔ state.due link = some (state.now + 1)) ∧
      (link ∉ (deltas gone).names →
        (deltas left).due link = ((deltas state.timers).due link).map (· - 1)) := by
  have append : deltas (gone ++ left) = deltas gone ++ deltas left := List.map_append
  have distinct : (deltas gone ++ deltas left).names.Nodup := by
    rw [← append, ← expires.split, DeltaList.names_tick]
    exact onTime.distinct
  have zero : ∀ entry ∈ deltas gone, entry.2 = 0 := by
    intro entry member
    obtain ⟨timer, within, rfl⟩ := List.mem_map.mp member
    exact expires.zero timer within
  have headCounts := headCounts_iff.mp onTime.counts
  have ticked := @DeltaList.due_tick _ _ _ link headCounts
  obtain ⟨atOnce, later⟩ := @DeltaList.due_expired _ _ (deltas left) link (deltas gone) zero
    (headCounts_iff.mp expires.counts) distinct
  rw [← append, ← expires.split, ticked] at atOnce later
  refine ⟨?_, fun absent => (later absent).symm⟩
  rw [← atOnce, onTime.waits link]
  cases waits : (deltas state.timers).due link with
  | none => exact iff_of_false nofun nofun
  | some wait =>
      have positive := DeltaList.due_pos headCounts waits
      simp only [Option.map_some, Option.some.injEq]
      omega

theorem runTimerList (onTime : OnTime state)
    (done : Schedule.runTimerList schedClass state.kernel state.timers = .ok (after, left)) :
    OnTime
      { kernel := after
        timers := left
        now := state.now + 1
        due := fun link =>
          if state.due link = some (state.now + 1) then none else state.due link } := by
  obtain ⟨gone, expires⟩ := runTimerList_ok done
  have append : deltas (gone ++ left) = deltas gone ++ deltas left := List.map_append
  have distinct : ((deltas gone).names ++ (deltas left).names).Nodup := by
    have both := onTime.distinct
    rw [← DeltaList.names_tick, expires.split, append] at both
    unfold DeltaList.names at both ⊢
    rwa [List.map_append] at both
  have waits : ∀ link, (deltas left).due link =
      if state.due link = some (state.now + 1) then none
      else ((deltas state.timers).due link).map (· - 1) := by
    intro link
    obtain ⟨isGone, stays⟩ := onTime.gone_iff expires link
    by_cases isDue : state.due link = some (state.now + 1)
    · rw [if_pos isDue, DeltaList.due_eq_none]
      exact List.disjoint_of_nodup_append distinct (isGone.mpr isDue)
    · rw [if_neg isDue]
      exact stays fun member => isDue (isGone.mp member)
  refine ⟨expires.counts, (List.nodup_append.mp distinct).2.1, ?_, ?_⟩
  · intro link
    show (if state.due link = some (state.now + 1) then none else state.due link) = _
    rw [waits link]
    split_ifs with isDue
    · rfl
    · rw [onTime.waits link]
      cases here : (deltas state.timers).due link with
      | none => rfl
      | some wait =>
          have positive := DeltaList.due_pos (headCounts_iff.mp onTime.counts) here
          simp only [Option.map_some, Option.some.injEq]
          omega
  · intro link wait here
    have here : (deltas left).due link = some wait := here
    rw [waits link] at here
    split_ifs at here
    obtain ⟨before, waited, rfl⟩ := Option.map_eq_some_iff.mp here
    have small := onTime.small link before waited
    omega

theorem step {event : TimerEvent} (onTime : OnTime state)
    (move : (timerMachine schedClass).Step state event next) : OnTime next := by
  obtain ⟨admitted, answered⟩ := move
  have answered : state.answer schedClass event = .ok next := answered
  cases event with
  | addTimer timer =>
      simp only [Ticking.answer, Schedule.addTimer] at answered
      by_cases positive : timer.expires > 0
      · rw [if_pos positive] at answered
        rw [← Except.ok.inj answered]
        exact onTime.addTimer positive admitted.1 admitted.2
      · rw [if_neg positive] at answered
        cases answered
  | delTimer link =>
      rw [← Except.ok.inj answered]
      exact onTime.delTimer link
  | runTimerList =>
      simp only [Ticking.answer] at answered
      cases done : Schedule.runTimerList schedClass state.kernel state.timers with
      | error stop =>
          rw [done] at answered
          cases answered
      | ok result =>
          rw [done] at answered
          rw [← Except.ok.inj answered]
          exact onTime.runTimerList done
  | others kernel =>
      rw [← Except.ok.inj answered]
      exact ⟨onTime.counts, onTime.distinct, onTime.waits, onTime.small⟩

theorem run {events : List TimerEvent} (run : Run (timerMachine schedClass).Step
    (Ticking.start kernel) events state) : OnTime state :=
  run.invariant OnTime (fun _ _ _ holds move => holds.step move) (.start kernel)

theorem sum_lt (onTime : OnTime state) : (state.timers.map Timer.expires).sum < 2 ^ 32 := by
  have total := DeltaList.sum_lt (by decide) onTime.distinct onTime.small
  unfold deltas at total
  rwa [List.map_map] at total

theorem listed_iff (onTime : OnTime state) (link : Nat) :
    link ∈ state.timers.map Timer.link ↔ (state.due link).isSome = true := by
  rw [← names_deltas, onTime.waits link, Option.isSome_map, Option.isSome_iff_ne_none, ne_eq,
    DeltaList.due_eq_none, not_not]

/-- No timer is overdue. -/
theorem pending (onTime : OnTime state) {link deadline : Nat}
    (isDue : state.due link = some deadline) : state.now < deadline := by
  rw [onTime.waits link] at isDue
  obtain ⟨wait, waits, rfl⟩ := Option.map_eq_some_iff.mp isDue
  have positive := DeltaList.due_pos (headCounts_iff.mp onTime.counts) waits
  omega

end OnTime

/-! ## From adding a timer on -/

/-- The event adds or deletes the timer at `link`. -/
def TimerEvent.Touches (link : Nat) : TimerEvent → Prop
  | .addTimer timer => timer.link = link
  | .delTimer other => other = link
  | .runTimerList | .others _ => False

def TimerEvent.isTick : TimerEvent → Bool
  | .runTimerList => true
  | .addTimer _ | .delTimer _ | .others _ => false

/-- How often `run_timer_list` was called. -/
def ticks (events : List TimerEvent) : Nat := events.countP TimerEvent.isTick

/-- What one event does to when a timer is due that it does not add or delete. -/
theorem due_step {state next : Ticking} {event : TimerEvent} {link : Nat}
    (move : (timerMachine schedClass).Step state event next) (untouched : ¬ event.Touches link) :
    next.now = state.now + ticks [event] ∧
      next.due link = if event.isTick = true ∧ state.due link = some next.now then none
        else state.due link := by
  obtain ⟨_, answered⟩ := move
  have answered : state.answer schedClass event = .ok next := answered
  cases event with
  | addTimer timer =>
      simp only [Ticking.answer, addTimer] at answered
      split_ifs at answered
      · rw [← Except.ok.inj answered]
        exact ⟨rfl, Function.update_of_ne (Ne.symm untouched) _ _⟩
      · exact nomatch answered
  | delTimer other =>
      rw [← Except.ok.inj answered]
      exact ⟨rfl, Function.update_of_ne (Ne.symm untouched) _ _⟩
  | runTimerList =>
      simp only [Ticking.answer] at answered
      cases done : runTimerList schedClass state.kernel state.timers with
      | error stop =>
          rw [done] at answered
          cases answered
      | ok result =>
          rw [done] at answered
          rw [← Except.ok.inj answered]
          refine ⟨rfl, ?_⟩
          simp only [TimerEvent.isTick, true_and]
  | others kernel =>
      rw [← Except.ok.inj answered]
      exact ⟨rfl, rfl⟩

theorem ticks_cons {event : TimerEvent} {events : List TimerEvent} :
    ticks (event :: events) = ticks [event] + ticks events := by
  unfold ticks
  rw [List.countP_cons, List.countP_singleton, Nat.add_comm]

theorem due_run {state last : Ticking} {events : List TimerEvent} {link deadline : Nat}
    (run : Run (timerMachine schedClass).Step state events last)
    (untouched : ∀ event ∈ events, ¬ event.Touches link)
    (known : state.due link = if state.now < deadline then some deadline else none) :
    last.now = state.now + ticks events ∧
      last.due link = if last.now < deadline then some deadline else none := by
  induction run with
  | nil state => exact ⟨rfl, known⟩
  | @cons state second last event events move _ inductionHypothesis =>
      obtain ⟨now, due⟩ := due_step move (untouched event List.mem_cons_self)
      have after : second.due link = if second.now < deadline then some deadline else none := by
        rw [due, known, now]
        cases tick : event.isTick with
        | false =>
            have none : ticks [event] = 0 := by simp [ticks, tick]
            rw [none, if_neg fun both => nomatch both.1]
            rfl
        | true =>
            have one : ticks [event] = 1 := by simp [ticks, tick]
            rw [one]
            by_cases waits : state.now + 1 < deadline
            · have before : state.now < deadline := by omega
              have apart : deadline ≠ state.now + 1 := by omega
              rw [if_pos before, if_pos waits, if_neg fun both => apart (Option.some.inj both.2)]
            · rw [if_neg waits]
              by_cases before : state.now < deadline
              · have now : deadline = state.now + 1 := by omega
                rw [if_pos before, if_pos ⟨rfl, congrArg some now⟩]
              · rw [if_neg before, if_neg fun both => nomatch both.2]
      obtain ⟨lastNow, lastDue⟩ := inductionHypothesis
        (fun other member => untouched other (List.mem_cons_of_mem _ member)) after
      refine ⟨?_, lastDue⟩
      rw [lastNow, now, Nat.add_assoc, ← ticks_cons]

/-- A timer is listed for as many ticks after it was added as was asked for. -/
theorem listed_after {events rest : List TimerEvent} {timer : Timer} {state : Ticking}
    (run : Run (timerMachine schedClass).Step (Ticking.start kernel) (events ++ .addTimer timer :: rest)
      state)
    (untouched : ∀ event ∈ rest, ¬ event.Touches timer.link) :
    timer.link ∈ state.timers.map Timer.link ↔ ticks rest < timer.expires := by
  have onTime := OnTime.run run
  obtain ⟨before, _, added⟩ := run.split
  cases added with
  | @cons _ second _ _ _ move after =>
      obtain ⟨_, answered⟩ := move
      have answered : before.answer schedClass (.addTimer timer) = .ok second := answered
      simp only [Ticking.answer, addTimer] at answered
      split_ifs at answered with positive
      · obtain rfl := Except.ok.inj answered
        have known : Function.update before.due timer.link (some (before.now + timer.expires))
            timer.link =
              if before.now < before.now + timer.expires then some (before.now + timer.expires)
              else none := by
          rw [Function.update_self, if_pos (by omega)]
        obtain ⟨now, due⟩ := due_run after untouched known
        have now : state.now = before.now + ticks rest := now
        rw [onTime.listed_iff, due, now]
        split_ifs with waits
        · exact iff_of_true rfl (by omega)
        · exact iff_of_false nofun (by omega)
      · exact nomatch answered

/-- Each timer that is not deleted is listed until the tick that was asked for. That tick removes it
and wakes its process, and no tick removes another timer. -/
theorem timer_list_exact {events : List TimerEvent} {state : Ticking}
    (run : Run (timerMachine schedClass).Step (Ticking.start kernel) events state) :
    -- the assertion at the start of a tick, and the range of the fields
    HeadCounts state.timers ∧ (state.timers.map Timer.expires).sum < 2 ^ 32 ∧
    -- how long a timer is listed
    (∀ before timer rest, events = before ++ .addTimer timer :: rest →
      (∀ event ∈ rest, ¬ event.Touches timer.link) →
      (timer.link ∈ state.timers.map Timer.link ↔ ticks rest < timer.expires)) ∧
    (∀ link, link ∈ state.timers.map Timer.link ↔ (state.due link).isSome = true) ∧
    (∀ link deadline, state.due link = some deadline → state.now < deadline) ∧
    -- what the next tick removes, and whom it wakes
    ∀ after left, runTimerList schedClass state.kernel state.timers = .ok (after, left) →
      ∃ gone woken, (gone.map Timer.link).Nodup ∧
        (∀ link, link ∈ gone.map Timer.link ↔ state.due link = some (state.now + 1)) ∧
        state.timers.map Timer.link = (gone ++ left).map Timer.link ∧
        state.timers.map Timer.proc = (gone ++ left).map Timer.proc ∧
        wakeEach schedClass state.kernel (gone.map Timer.proc) = .ok woken ∧
        after = schedClassProcTick schedClass woken woken.current := by
  have onTime := OnTime.run run
  refine ⟨onTime.counts, onTime.sum_lt, ?_, onTime.listed_iff, fun _ _ => onTime.pending, ?_⟩
  · rintro before timer rest rfl untouched
    exact listed_after run untouched
  · intro after left done
    obtain ⟨gone, expires⟩ := runTimerList_ok done
    obtain ⟨woken, wakes, isAfter⟩ := expires.wakes
    have links : state.timers.map Timer.link = (gone ++ left).map Timer.link := by
      rw [← names_deltas, ← names_deltas, ← expires.split, DeltaList.names_tick]
    have distinct := onTime.distinct
    rw [names_deltas, links, List.map_append] at distinct
    refine ⟨gone, woken, (List.nodup_append.mp distinct).1, ?_, links, expires.procs, wakes, isAfter⟩
    intro link
    rw [← names_deltas]
    exact (onTime.gone_iff expires link).1

/-- Two sleeping processes. -/
def sleepersKernel : Kernel where
  procs := fun proc =>
    { allocatedProc with
      state := if proc = idleproc then .runnable else .sleeping
      waitState := if proc = idleproc then 0 else 0x80000002 }
  current := idleproc
  rq := ⟨[], 0, maxTimeSlice, .null⟩

/-- The second timer is added in front of the first one and deleted before it expires. -/
def sleepersEvents : List TimerEvent :=
  [.addTimer ⟨10, 2, 1⟩, .addTimer ⟨20, 1, 2⟩, .delTimer 20, .runTimerList, .runTimerList]

theorem timer_list_exact_sleepers : ∃ state,
    Run (timerMachine defaultSchedClass).Step (Ticking.start sleepersKernel) sleepersEvents state ∧
      (state.kernel.procs 1).state = .runnable ∧ (state.kernel.procs 2).state = .sleeping ∧
      10 ∉ state.timers.map Timer.link := by
  have done : (follow ((timerMachine defaultSchedClass).next fun _ _ => True)
      (Ticking.start sleepersKernel) sleepersEvents).any (fun state =>
        (state.kernel.procs 1).state = .runnable ∧ (state.kernel.procs 2).state = .sleeping) =
      true := by decide
  obtain ⟨state, finished, woken⟩ := (Option.any_eq_true _ _).mp done
  have run : Run (timerMachine defaultSchedClass).Step (Ticking.start sleepersKernel)
      sleepersEvents state := (Machine.follow_next_run finished).mono fun _ _ _ move => move.1
  have listed := (timer_list_exact run).2.2.1 [] ⟨10, 2, 1⟩
    [.addTimer ⟨20, 1, 2⟩, .delTimer 20, .runTimerList, .runTimerList] rfl (by
      intro event member
      simp only [List.mem_cons, List.not_mem_nil, or_false] at member
      rcases member with rfl | rfl | rfl | rfl <;> simp [TimerEvent.Touches])
  refine ⟨state, run, (of_decide_eq_true woken).1, (of_decide_eq_true woken).2, ?_⟩
  rw [listed]
  decide

end UCore.Schedule
