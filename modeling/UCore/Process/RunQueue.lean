import UCore.Process.Proc

/-!
Contract: who is on the run queue, in every state of the kernel.

Owns:
- what waking a process, `schedule` and a tick do to the run queue;
- the invariant that ties the state of a process and what it waits for to where it is in the
  kernel, and its preservation by every part of an event that changes them.

Does not own: the process tree.
-/

set_option autoImplicit false

namespace UCore.Process

open UCore.Lib UCore.Schedule UCore.Sync

variable {kernel after : Kernel} {proc : Nat}

/-! ## The run queue -/

/-- `new` is put at the end of the run queue. -/
structure Queues (before after : Kernel) (new : List Nat) : Prop where
  runList : after.rq.runList = before.rq.runList ++ new
  procNum : after.rq.procNum = before.rq.procNum + new.length
  current : after.current = before.current

theorem Queues.refl : Queues kernel kernel [] := ⟨(List.append_nil _).symm, rfl, rfl⟩

theorem Queues.trans {middle : Kernel} {first second : List Nat} (one : Queues kernel middle first)
    (two : Queues middle after second) : Queues kernel after (first ++ second) where
  runList := by rw [two.runList, one.runList, List.append_assoc]
  procNum := by rw [two.procNum, one.procNum, List.length_append, Nat.add_assoc]
  current := two.current.trans one.current

theorem rrEnqueue_queues (done : rrEnqueue kernel proc = .ok after) :
    Queues kernel after [proc] ∧
      (after.procs proc).waitState = (kernel.procs proc).waitState := by
  unfold rrEnqueue at done
  split_ifs at done
  cases done
  exact ⟨⟨rfl, rfl, rfl⟩, by simp [Kernel.updateProc, refillTimeSlice]⟩

/-- What waking a process does. -/
structure Woken (before after : Kernel) (proc : Nat) : Prop where
  wakes : SchedInvariant.Wakes before after proc
  waitState : (before.procs proc).state ≠ .runnable → (after.procs proc).waitState = 0
  unchanged : (before.procs proc).state = .runnable → after = before
  queues : ∃ new, Queues before after new

theorem wakeupProc_woken {allocated : List Nat} (invariant : SchedInvariant kernel allocated)
    (present : proc ∈ allocated) (alive : (kernel.procs proc).state ≠ .zombie) :
    ∃ after, wakeupProc defaultSchedClass kernel proc = .ok after ∧
      SchedInvariant after allocated ∧ Woken kernel after proc := by
  obtain ⟨after, done, holds, wakes⟩ := invariant.wakeup_step present alive
  refine ⟨after, done, holds, wakes, ?_, ?_, ?_⟩
  · intro asleep
    unfold wakeupProc schedClassEnqueue at done
    rw [if_neg alive, if_neg asleep] at done
    split_ifs at done
    · exact (rrEnqueue_queues done).2.trans (by simp [markRunnable])
    · cases done
      simp [markRunnable]
    · cases done
      simp [markRunnable]
  · intro runnable
    unfold wakeupProc at done
    rw [if_neg alive, if_pos runnable] at done
    exact (Except.ok.inj done).symm
  · unfold wakeupProc schedClassEnqueue at done
    rw [if_neg alive] at done
    split_ifs at done
    · cases done
      exact ⟨[], .refl⟩
    · have queues := (rrEnqueue_queues done).1
      exact ⟨[proc], queues.runList, queues.procNum, queues.current⟩
    · cases done
      exact ⟨[], ⟨(List.append_nil _).symm, rfl, rfl⟩⟩
    · cases done
      exact ⟨[], ⟨(List.append_nil _).symm, rfl, rfl⟩⟩

/-- The run queue when `schedule` picks from it. -/
def queueOf (kernel : Kernel) : List Nat :=
  kernel.rq.runList ++ if Ready kernel.procs kernel.current then [kernel.current] else []

theorem scheduleEnqueue_queues (done : scheduleEnqueue defaultSchedClass kernel = .ok after) :
    Queues kernel after
      (if Ready kernel.procs kernel.current then [kernel.current] else []) := by
  have sameState : ((clearNeedResched kernel).procs kernel.current).state =
      (kernel.procs kernel.current).state := by
    simp [clearNeedResched]
  have sameCurrent : (clearNeedResched kernel).current = kernel.current := rfl
  unfold scheduleEnqueue schedClassEnqueue at done
  simp only [sameCurrent, sameState] at done
  split_ifs at done with runnable notIdle
  · have ready : Ready kernel.procs kernel.current := ⟨runnable, notIdle⟩
    rw [if_pos ready]
    have queues := (rrEnqueue_queues done).1
    exact ⟨queues.runList, queues.procNum, queues.current⟩
  · cases done
    rw [if_neg fun ready => notIdle ready.2]
    exact ⟨(List.append_nil _).symm, rfl, rfl⟩
  · cases done
    rw [if_neg fun ready => runnable ready.1]
    exact ⟨(List.append_nil _).symm, rfl, rfl⟩

/-- `schedule` dispatches the first process of the run queue. -/
theorem schedule_queues (counted : kernel.rq.procNum = kernel.rq.runList.length)
    (done : schedule defaultSchedClass kernel = .ok after) :
    after.rq.runList = (queueOf kernel).tail ∧
      after.current = (queueOf kernel).head?.getD idleproc ∧
      after.rq.procNum = after.rq.runList.length := by
  cases enqueued : scheduleEnqueue defaultSchedClass kernel with
  | error stop =>
      unfold schedule at done
      rw [enqueued] at done
      cases done
  | ok queued =>
      have queues := scheduleEnqueue_queues enqueued
      have list : queued.rq.runList = queueOf kernel := queues.runList
      have number : queued.rq.procNum = queued.rq.runList.length := by
        rw [queues.procNum, counted, queues.runList, List.length_append]
      cases waiting : queued.rq.runList with
      | nil =>
          have chosen : defaultSchedClass.pickNext queued = (none, queued) := by
            simp [defaultSchedClass, rrPickNext, waiting]
          rw [schedule_none enqueued chosen] at done
          cases done
          rw [← list, waiting]
          refine ⟨waiting, rfl, ?_⟩
          exact number
      | cons next rest =>
          have chosen : defaultSchedClass.pickNext queued = (some next, queued) := by
            simp [defaultSchedClass, rrPickNext, waiting]
          cases removed : defaultSchedClass.dequeue queued next with
          | error stop =>
              unfold schedule at done
              simp only [enqueued, chosen, removed, bind, Except.bind] at done
              cases done
          | ok dequeued =>
              rw [schedule_some enqueued chosen removed] at done
              cases done
              have erased : dequeued.rq.runList = rest ∧
                  dequeued.rq.procNum = queued.rq.procNum - 1 := by
                have removed : rrDequeue queued next = .ok dequeued := removed
                unfold rrDequeue at removed
                split_ifs at removed
                cases removed
                refine ⟨?_, rfl⟩
                show queued.rq.runList.erase next = rest
                rw [waiting, List.erase_cons_head]
              rw [← list, waiting]
              refine ⟨erased.1, rfl, ?_⟩
              show dequeued.rq.procNum = dequeued.rq.runList.length
              rw [erased.1, erased.2, number, waiting]
              rfl

/-! ## Where processes are -/

/-- The state of a process that is at `phase` in the kernel. -/
def Fits (self : Proc) : KernelPhase → Prop
  | .outside => self.state = .runnable ∧ self.waitState = 0
  | .waitCalls _ | .waitBack _ =>
      (self.state = .sleeping ∧ self.waitState = wtChild) ∨
        (self.state = .runnable ∧ self.waitState = 0)
  | .sleepCalls | .sleepBack =>
      (self.state = .sleeping ∧ self.waitState = wtTimer) ∨
        (self.state = .runnable ∧ self.waitState = 0)
  | .queueCalls | .queueBack =>
      (self.state = .sleeping ∧ (self.waitState = wtKsem ∨ self.waitState = wtKbd)) ∨
        (self.state = .runnable ∧ self.waitState = 0)
  | .exitCalls | .exited => self.state = .zombie ∧ self.waitState = 0

theorem Fits.afterSchedule {self : Proc} {at' : KernelPhase} (fits : Fits self at') :
    Fits self at'.afterSchedule := by
  cases at' <;> exact fits

/-- The kernel with where its processes are, their timers and the wait queues. -/
structure Scheduled (kernel : Kernel) (phase : Nat → KernelPhase) (timers : List Timer)
    (waiting : List Nat) (nextProc : Nat) : Prop where
  sched : SchedInvariant kernel (List.range nextProc)
  counted : kernel.rq.procNum = kernel.rq.runList.length
  fits : ∀ proc, proc < nextProc → Fits (kernel.procs proc) (phase proc)
  calling : ∀ proc, (phase proc).calling = true → proc = kernel.current
  runs : (phase kernel.current).calling = false →
    (kernel.procs kernel.current).state = .runnable
  idle : phase idleproc = .outside
  fresh : ∀ proc, nextProc ≤ proc → phase proc = .outside
  sleeps : ∀ timer ∈ timers, phase timer.proc = .sleepCalls ∨ phase timer.proc = .sleepBack
  sleepsOnce : OnStacks timers
  counts : ∀ timer, timers.head? = some timer → timer.expires ≠ 0
  waits : ∀ proc ∈ waiting, phase proc = .queueCalls ∨ phase proc = .queueBack
  waitsOnce : waiting.Nodup

namespace Scheduled

variable {phase : Nat → KernelPhase} {timers : List Timer} {waiting : List Nat} {nextProc : Nat}

theorem lt_of_phase (scheduled : Scheduled kernel phase timers waiting nextProc)
    (busy : phase proc ≠ .outside) : proc < nextProc := by
  by_contra new
  exact busy (scheduled.fresh proc (not_lt.mp new))

/-- A process that waits for something is not a zombie. -/
theorem alive_of_waitState (scheduled : Scheduled kernel phase timers waiting nextProc)
    (below : proc < nextProc) (waits : (kernel.procs proc).waitState ≠ 0) :
    (kernel.procs proc).state ≠ .zombie := by
  intro dead
  have fits := scheduled.fits proc below
  cases at' : phase proc <;> rw [at'] at fits <;> simp [Fits, dead] at fits <;>
    exact waits fits

theorem current_lt (scheduled : Scheduled kernel phase timers waiting nextProc) :
    kernel.current < nextProc :=
  List.mem_range.mp scheduled.sched.currentAllocated

/-- What `schedule` picks from wants to run. -/
theorem ready_of_queued (scheduled : Scheduled kernel phase timers waiting nextProc)
    (queued : proc ∈ queueOf kernel) : Ready kernel.procs proc := by
  rcases List.mem_append.mp queued with listed | here
  · exact ((scheduled.sched.listed.mem_iff proc).mp listed).1
  · split_ifs at here with ready
    · rw [List.mem_singleton.mp here]
      exact ready
    · cases here

/-- Waking a process that is not a zombie. -/
theorem wake (scheduled : Scheduled kernel phase timers waiting nextProc)
    (known : proc < nextProc) (alive : (kernel.procs proc).state ≠ .zombie) :
    ∃ after, wakeupProc defaultSchedClass kernel proc = .ok after ∧
      Scheduled after phase timers waiting nextProc ∧ Woken kernel after proc := by
  obtain ⟨after, done, holds, woken⟩ :=
    wakeupProc_woken scheduled.sched (List.mem_range.mpr known) alive
  refine ⟨after, done, ?_, woken⟩
  have current := woken.wakes.current
  constructor
  · exact holds
  · obtain ⟨new, queues⟩ := woken.queues
    rw [queues.procNum, queues.runList, scheduled.counted, List.length_append]
  · intro other below
    by_cases same : other = proc
    · subst same
      have before := scheduled.fits other below
      have runnable := woken.wakes.runnable
      have cleared : (after.procs other).waitState = 0 := by
        by_cases awake : (kernel.procs other).state = .runnable
        · rw [woken.unchanged awake]
          cases at' : phase other <;> rw [at'] at before <;> simp [Fits, awake] at before <;>
            exact before
        · exact woken.waitState awake
      cases at' : phase other <;> rw [at'] at before
      case exitCalls => exact absurd before.1 alive
      case exited => exact absurd before.1 alive
      case outside => exact ⟨runnable, cleared⟩
      all_goals exact Or.inr ⟨runnable, cleared⟩
    · have same := woken.wakes.others other same
      have before := scheduled.fits other below
      cases at' : phase other <;> rw [at'] at before <;>
        simpa only [Fits, same.1, same.2] using before
  · intro other calls
    rw [current]
    exact scheduled.calling other calls
  · rw [current]
    intro runs
    by_cases same : kernel.current = proc
    · rw [same]
      exact woken.wakes.runnable
    · rw [(woken.wakes.others _ same).1]
      exact scheduled.runs runs
  · exact scheduled.idle
  · exact scheduled.fresh
  · exact scheduled.sleeps
  · exact scheduled.sleepsOnce
  · exact scheduled.counts
  · exact scheduled.waits
  · exact scheduled.waitsOnce

/-- The current process changes itself and goes on at `next`. -/
theorem changeCurrent {timers' : List Timer} {waiting' : List Nat} {changed : Proc}
    {next : KernelPhase} (scheduled : Scheduled kernel phase timers waiting nextProc)
    (notIdle : kernel.current = idleproc → changed.state = .runnable ∧ next = .outside)
    (fits : Fits changed next) (runs : next.calling = false → changed.state = .runnable)
    (sleeps : ∀ timer ∈ timers', Function.update phase kernel.current next timer.proc =
      .sleepCalls ∨ Function.update phase kernel.current next timer.proc = .sleepBack)
    (sleepsOnce : OnStacks timers')
    (counts : ∀ timer, timers'.head? = some timer → timer.expires ≠ 0)
    (waits : ∀ proc ∈ waiting', Function.update phase kernel.current next proc =
      .queueCalls ∨ Function.update phase kernel.current next proc = .queueBack)
    (waitsOnce : waiting'.Nodup) :
    Scheduled { kernel with procs := Function.update kernel.procs kernel.current changed }
      (Function.update phase kernel.current next) timers' waiting' nextProc where
  sched := scheduled.sched.changeCurrent fun isIdle => (notIdle isIdle).1
  counted := scheduled.counted
  fits proc below := by
    by_cases same : proc = kernel.current
    · rw [same, Function.update_self]
      show Fits (Function.update kernel.procs kernel.current changed kernel.current) next
      rw [Function.update_self]
      exact fits
    · rw [Function.update_of_ne same]
      show Fits (Function.update kernel.procs kernel.current changed proc) (phase proc)
      rw [Function.update_of_ne same]
      exact scheduled.fits proc below
  calling proc calls := by
    by_contra apart
    have apart : proc ≠ kernel.current := apart
    rw [Function.update_of_ne apart] at calls
    exact apart (scheduled.calling proc calls)
  runs := by
    show (Function.update phase kernel.current next kernel.current).calling = false →
      (Function.update kernel.procs kernel.current changed kernel.current).state = .runnable
    rw [Function.update_self, Function.update_self]
    exact runs
  idle := by
    by_cases isIdle : idleproc = kernel.current
    · rw [← isIdle, Function.update_self]
      exact (notIdle isIdle.symm).2
    · rw [Function.update_of_ne isIdle]
      exact scheduled.idle
  fresh proc new := by
    have apart : proc ≠ kernel.current := by
      have below := scheduled.current_lt
      omega
    rw [Function.update_of_ne apart]
    exact scheduled.fresh proc new
  sleeps := sleeps
  sleepsOnce := sleepsOnce
  counts := counts
  waits := waits
  waitsOnce := waitsOnce

/-- What a process outside the kernel is not on. -/
theorem outside_free (scheduled : Scheduled kernel phase timers waiting nextProc)
    (outside : phase proc = .outside) :
    proc ∉ timers.map Timer.proc ∧ proc ∉ waiting := by
  constructor
  · intro member
    obtain ⟨timer, within, rfl⟩ := List.mem_map.mp member
    rcases scheduled.sleeps timer within with calls | back
    · rw [outside] at calls
      cases calls
    · rw [outside] at back
      cases back
  · intro member
    rcases scheduled.waits proc member with calls | back
    · rw [outside] at calls
      cases calls
    · rw [outside] at back
      cases back

/-- The timers and the wait queues when a process moves on that is on none of them. -/
theorem others (scheduled : Scheduled kernel phase timers waiting nextProc)
    (next : KernelPhase) (noTimer : proc ∉ timers.map Timer.proc) (noQueue : proc ∉ waiting) :
    (∀ timer ∈ timers, Function.update phase proc next timer.proc = .sleepCalls ∨
      Function.update phase proc next timer.proc = .sleepBack) ∧
    ∀ other ∈ waiting, Function.update phase proc next other = .queueCalls ∨
      Function.update phase proc next other = .queueBack := by
  constructor
  · intro timer member
    have apart : timer.proc ≠ proc := by
      rintro rfl
      exact noTimer (List.mem_map_of_mem member)
    rw [Function.update_of_ne apart]
    exact scheduled.sleeps timer member
  · intro other member
    have apart : other ≠ proc := by
      rintro rfl
      exact noQueue member
    rw [Function.update_of_ne apart]
    exact scheduled.waits other member

/-- A process that was outside goes to sleep in `do_wait`, or exits. -/
theorem leave {changed : Proc} {next : KernelPhase}
    (scheduled : Scheduled kernel phase timers waiting nextProc)
    (busy : kernel.current ≠ idleproc) (noTimer : kernel.current ∉ timers.map Timer.proc)
    (noQueue : kernel.current ∉ waiting)
    (fits : Fits changed next) (runs : next.calling = false → changed.state = .runnable) :
    Scheduled { kernel with procs := Function.update kernel.procs kernel.current changed }
      (Function.update phase kernel.current next) timers waiting nextProc := by
  obtain ⟨sleeps, waits⟩ := scheduled.others next noTimer noQueue
  exact scheduled.changeCurrent (fun isIdle => absurd isIdle busy) fits runs sleeps
    scheduled.sleepsOnce scheduled.counts waits scheduled.waitsOnce

/-- `do_sleep` -/
theorem sleep {changed : Proc} {time : Nat}
    (scheduled : Scheduled kernel phase timers waiting nextProc)
    (busy : kernel.current ≠ idleproc) (outside : phase kernel.current = .outside)
    (positive : time ≠ 0) (state : changed.state = .sleeping)
    (waitState : changed.waitState = wtTimer) :
    Scheduled { kernel with procs := Function.update kernel.procs kernel.current changed }
      (Function.update phase kernel.current .sleepCalls)
      (insertTimer timers ⟨kernel.current, time, kernel.current⟩) waiting nextProc := by
  obtain ⟨noTimer, noQueue⟩ := scheduled.outside_free outside
  obtain ⟨sleeps, waits⟩ := scheduled.others .sleepCalls noTimer noQueue
  have fits : Fits changed .sleepCalls := Or.inl ⟨state, waitState⟩
  refine scheduled.changeCurrent (fun isIdle => absurd isIdle busy) fits nofun ?_ ?_ ?_ waits
    scheduled.waitsOnce
  · intro timer member
    have proc := mem_insertTimer.mp (List.mem_map_of_mem member)
    rcases proc with new | old
    · rw [new]
      exact Or.inl (Function.update_self _ _ _)
    · obtain ⟨other, within, same⟩ := List.mem_map.mp old
      rw [← same]
      exact sleeps other within
  · exact scheduled.sleepsOnce.insert noTimer
  · exact head_insertTimer positive scheduled.counts

/-- `wait_current_set` -/
theorem sleepQueue {changed : Proc} (scheduled : Scheduled kernel phase timers waiting nextProc)
    (busy : kernel.current ≠ idleproc) (outside : phase kernel.current = .outside)
    (state : changed.state = .sleeping)
    (waitState : changed.waitState = wtKsem ∨ changed.waitState = wtKbd) :
    Scheduled { kernel with procs := Function.update kernel.procs kernel.current changed }
      (Function.update phase kernel.current .queueCalls) timers (waiting ++ [kernel.current])
      nextProc := by
  obtain ⟨noTimer, noQueue⟩ := scheduled.outside_free outside
  obtain ⟨sleeps, waits⟩ := scheduled.others .queueCalls noTimer noQueue
  have fits : Fits changed .queueCalls := Or.inl ⟨state, waitState⟩
  refine scheduled.changeCurrent (fun isIdle => absurd isIdle busy) fits nofun sleeps
    scheduled.sleepsOnce scheduled.counts ?_ ?_
  · intro proc member
    rcases List.mem_append.mp member with old | new
    · exact waits proc old
    · rw [List.mem_singleton.mp new]
      exact Or.inl (Function.update_self _ _ _)
  · apply List.nodup_append.mpr
    refine ⟨scheduled.waitsOnce, List.nodup_singleton _, ?_⟩
    rintro proc old _ new rfl
    rw [List.mem_singleton.mp new] at old
    exact noQueue old

/-- The current process comes out of the code where it slept. -/
theorem comeBack {timers' : List Timer} {waiting' : List Nat}
    (scheduled : Scheduled kernel phase timers waiting nextProc)
    (back : (phase kernel.current).calling = false)
    (lessTimers : ∀ proc, proc ∈ timers'.map Timer.proc →
      proc ≠ kernel.current ∧ proc ∈ timers.map Timer.proc)
    (sleepsOnce : OnStacks timers')
    (counts : ∀ timer, timers'.head? = some timer → timer.expires ≠ 0)
    (lessWaiting : ∀ proc ∈ waiting', proc ≠ kernel.current ∧ proc ∈ waiting)
    (waitsOnce : waiting'.Nodup) :
    Scheduled kernel (Function.update phase kernel.current .outside) timers' waiting' nextProc := by
  have runnable := scheduled.runs back
  have fits := scheduled.fits kernel.current scheduled.current_lt
  have cleared : (kernel.procs kernel.current).waitState = 0 := by
    cases at' : phase kernel.current <;> rw [at'] at fits <;> simp [Fits, runnable] at fits <;>
      exact fits
  have same : kernel = { kernel with
      procs := Function.update kernel.procs kernel.current (kernel.procs kernel.current) } := by
    rw [Function.update_eq_self]
  rw [same]
  refine scheduled.changeCurrent (fun _ => ⟨runnable, rfl⟩) ⟨runnable, cleared⟩
    (fun _ => runnable) ?_ sleepsOnce counts ?_ waitsOnce
  · intro timer member
    obtain ⟨apart, old⟩ := lessTimers timer.proc (List.mem_map_of_mem member)
    rw [Function.update_of_ne apart]
    obtain ⟨other, within, sameProc⟩ := List.mem_map.mp old
    rw [← sameProc]
    exact scheduled.sleeps other within
  · intro proc member
    obtain ⟨apart, old⟩ := lessWaiting proc member
    rw [Function.update_of_ne apart]
    exact scheduled.waits proc old

/-- The current process changes, but not its state and what it waits for. -/
theorem retouch {changed : Proc} (scheduled : Scheduled kernel phase timers waiting nextProc)
    (state : changed.state = (kernel.procs kernel.current).state)
    (waitState : changed.waitState = (kernel.procs kernel.current).waitState) :
    Scheduled { kernel with procs := Function.update kernel.procs kernel.current changed }
      phase timers waiting nextProc := by
  have same : phase = Function.update phase kernel.current (phase kernel.current) :=
    (Function.update_eq_self _ _).symm
  rw [same]
  refine scheduled.changeCurrent ?_ ?_ ?_ ?_ scheduled.sleepsOnce scheduled.counts ?_
    scheduled.waitsOnce
  · intro isIdle
    constructor
    · rw [state, isIdle]
      exact scheduled.sched.idleRunnable
    · rw [isIdle]
      exact scheduled.idle
  · have fits := scheduled.fits kernel.current scheduled.current_lt
    cases at' : phase kernel.current <;> rw [at'] at fits <;>
      simpa only [Fits, state, waitState] using fits
  · intro notCalling
    rw [state]
    exact scheduled.runs notCalling
  · rw [← same]
    exact scheduled.sleeps
  · rw [← same]
    exact scheduled.waits

/-- Fewer timers and waiting processes. -/
theorem less {timers' : List Timer} {waiting' : List Nat}
    (scheduled : Scheduled kernel phase timers waiting nextProc)
    (sleeps : ∀ timer ∈ timers', phase timer.proc = .sleepCalls ∨ phase timer.proc = .sleepBack)
    (sleepsOnce : OnStacks timers')
    (counts : ∀ timer, timers'.head? = some timer → timer.expires ≠ 0)
    (waits : ∀ proc ∈ waiting', proc ∈ waiting) (waitsOnce : waiting'.Nodup) :
    Scheduled kernel phase timers' waiting' nextProc where
  sched := scheduled.sched
  counted := scheduled.counted
  fits := scheduled.fits
  calling := scheduled.calling
  runs := scheduled.runs
  idle := scheduled.idle
  fresh := scheduled.fresh
  sleeps := sleeps
  sleepsOnce := sleepsOnce
  counts := counts
  waits := fun proc member => scheduled.waits proc (waits proc member)
  waitsOnce := waitsOnce

/-- `schedule` -/
theorem switch (scheduled : Scheduled kernel phase timers waiting nextProc) :
    ∃ after, schedule defaultSchedClass kernel = .ok after ∧
      Scheduled after (Function.update phase kernel.current (phase kernel.current).afterSchedule)
        timers waiting nextProc ∧
      KeepsStates kernel after ∧
      after.rq.runList = (queueOf kernel).tail ∧
      after.current = (queueOf kernel).head?.getD idleproc := by
  obtain ⟨after, done, holds, keeps, chosen⟩ := scheduled.sched.schedule_step
  obtain ⟨list, picked, counted⟩ := schedule_queues scheduled.counted done
  have notCalling : (phase kernel.current).afterSchedule.calling = false := by
    cases phase kernel.current <;> rfl
  refine ⟨after, done, ?_, keeps, list, picked⟩
  constructor
  · exact holds
  · exact counted
  · intro proc below
    have before := scheduled.fits proc below
    have same : ∀ at', Fits (kernel.procs proc) at' → Fits (after.procs proc) at' := by
      intro at' fits
      cases at' <;> simpa only [Fits, (keeps proc).1, (keeps proc).2] using fits
    by_cases isCurrent : proc = kernel.current
    · subst isCurrent
      rw [Function.update_self]
      exact same _ (Fits.afterSchedule before)
    · rw [Function.update_of_ne isCurrent]
      exact same _ before
  · intro proc calls
    by_cases isCurrent : proc = kernel.current
    · rw [isCurrent, Function.update_self, notCalling] at calls
      cases calls
    · rw [Function.update_of_ne isCurrent] at calls
      exact absurd (scheduled.calling proc calls) isCurrent
  · intro _
    rw [(keeps _).1]
    rcases chosen with isIdle | ready
    · rw [isIdle]
      exact scheduled.sched.idleRunnable
    · exact ready.1
  · by_cases isIdle : idleproc = kernel.current
    · rw [← isIdle, Function.update_self, scheduled.idle]
      rfl
    · rw [Function.update_of_ne isIdle]
      exact scheduled.idle
  · intro proc new
    have apart : proc ≠ kernel.current := by
      have below := scheduled.current_lt
      omega
    rw [Function.update_of_ne apart]
    exact scheduled.fresh proc new
  · intro timer member
    have before := scheduled.sleeps timer member
    by_cases isCurrent : timer.proc = kernel.current
    · rw [isCurrent] at before
      rw [isCurrent, Function.update_self]
      rcases before with calls | back
      · rw [calls]
        exact Or.inr rfl
      · rw [back]
        exact Or.inr rfl
    · rw [Function.update_of_ne isCurrent]
      exact before
  · exact scheduled.sleepsOnce
  · exact scheduled.counts
  · intro proc member
    have before := scheduled.waits proc member
    by_cases isCurrent : proc = kernel.current
    · rw [isCurrent] at before
      rw [isCurrent, Function.update_self]
      rcases before with calls | back
      · rw [calls]
        exact Or.inr rfl
      · rw [back]
        exact Or.inr rfl
    · rw [Function.update_of_ne isCurrent]
      exact before
  · exact scheduled.waitsOnce

/-- `alloc_proc` and then `wakeup_proc` of the new process. -/
theorem born (scheduled : Scheduled kernel phase timers waiting nextProc) :
    ∃ after, wakeupProc defaultSchedClass (Schedule.allocProc kernel nextProc) nextProc = .ok after ∧
      Scheduled after phase timers waiting (nextProc + 1) ∧
      (after.procs nextProc).state = .runnable ∧ (after.procs nextProc).waitState = 0 ∧
      (∀ other, other ≠ nextProc → (after.procs other).state = (kernel.procs other).state ∧
        (after.procs other).waitState = (kernel.procs other).waitState) ∧
      ∃ new, Queues kernel after new := by
  have notCurrent : nextProc ≠ kernel.current := scheduled.current_lt.ne'
  have notIdle : nextProc ≠ idleproc := by
    have below := List.mem_range.mp scheduled.sched.idleAllocated
    omega
  have unborn : (kernel.procs nextProc).state = .uninit :=
    scheduled.sched.unused nextProc (by simp)
  have allocated : SchedInvariant (Schedule.allocProc kernel nextProc)
      (List.range (nextProc + 1)) := by
    apply scheduled.sched.change
    · rintro ⟨⟨runnable, _⟩, _⟩
      rw [unborn] at runnable
      cases runnable
    · exact nofun
    · exact fun isIdle => absurd isIdle notIdle
    · intro proc member
      exact List.mem_range.mpr (by have := List.mem_range.mp member; omega)
    · exact List.mem_range.mpr (Nat.lt_succ_self _)
  have newborn : (Schedule.allocProc kernel nextProc).procs nextProc = allocatedProc :=
    Function.update_self _ _ _
  have elder : ∀ other, other ≠ nextProc →
      (Schedule.allocProc kernel nextProc).procs other = kernel.procs other :=
    fun other apart => Function.update_of_ne apart _ _
  obtain ⟨after, done, holds, woken⟩ := wakeupProc_woken allocated
    (List.mem_range.mpr (Nat.lt_succ_self nextProc)) (by rw [newborn]; exact nofun)
  have current : after.current = kernel.current := woken.wakes.current
  have cleared : (after.procs nextProc).waitState = 0 :=
    woken.waitState (by rw [newborn]; exact nofun)
  have same : ∀ other, other ≠ nextProc → (after.procs other).state = (kernel.procs other).state ∧
      (after.procs other).waitState = (kernel.procs other).waitState := by
    intro other apart
    rw [← elder other apart]
    exact woken.wakes.others other apart
  obtain ⟨new, queues⟩ := woken.queues
  have queued : Queues kernel after new := ⟨queues.runList, queues.procNum, queues.current⟩
  refine ⟨after, done, ?_, woken.wakes.runnable, cleared, same, new, queued⟩
  constructor
  · exact holds
  · rw [queued.procNum, queued.runList, scheduled.counted, List.length_append]
  · intro other below
    by_cases isNew : other = nextProc
    · rw [isNew, scheduled.fresh nextProc le_rfl]
      exact ⟨woken.wakes.runnable, cleared⟩
    · have before := scheduled.fits other (by omega)
      cases at' : phase other <;> rw [at'] at before <;>
        simpa only [Fits, (same other isNew).1, (same other isNew).2] using before
  · intro other calls
    rw [current]
    exact scheduled.calling other calls
  · rw [current, (same _ notCurrent.symm).1]
    exact scheduled.runs
  · exact scheduled.idle
  · exact fun other new => scheduled.fresh other (by omega)
  · exact scheduled.sleeps
  · exact scheduled.sleepsOnce
  · exact scheduled.counts
  · exact scheduled.waits
  · exact scheduled.waitsOnce

/-- What a sleeping process that has a timer waits for. -/
theorem sleeper (scheduled : Scheduled kernel phase timers waiting nextProc)
    (sleeps : phase proc = .sleepCalls ∨ phase proc = .sleepBack) :
    proc < nextProc ∧ (kernel.procs proc).state ≠ .zombie ∧
      ((kernel.procs proc).waitState ≠ 0 →
        interruptible (kernel.procs proc).waitState = true) := by
  have below : proc < nextProc := by
    apply scheduled.lt_of_phase
    rcases sleeps with calls | back
    · rw [calls]
      exact nofun
    · rw [back]
      exact nofun
  have fits : (((kernel.procs proc).state = .sleeping ∧ (kernel.procs proc).waitState = wtTimer) ∨
      ((kernel.procs proc).state = .runnable ∧ (kernel.procs proc).waitState = 0)) := by
    have fits := scheduled.fits proc below
    rcases sleeps with calls | back
    · rw [calls] at fits
      exact fits
    · rw [back] at fits
      exact fits
  refine ⟨below, ?_, ?_⟩
  · rcases fits with ⟨state, _⟩ | ⟨state, _⟩
    · rw [state]
      exact nofun
    · rw [state]
      exact nofun
  · intro some
    rcases fits with ⟨_, waits⟩ | ⟨_, none⟩
    · rw [waits]
      rfl
    · exact absurd none some

end Scheduled

/-- The states of the processes after some of them were woken. -/
def Rouses (before after : Kernel) : Prop :=
  ∀ proc, ((after.procs proc).state = (before.procs proc).state ∧
      (after.procs proc).waitState = (before.procs proc).waitState) ∨
    ((after.procs proc).state = .runnable ∧ (before.procs proc).state ≠ .zombie)

theorem Rouses.refl : Rouses kernel kernel := fun _ => Or.inl ⟨rfl, rfl⟩

theorem Rouses.trans {middle : Kernel} (first : Rouses kernel middle)
    (second : Rouses middle after) : Rouses kernel after := by
  intro proc
  rcases second proc with ⟨state, waitState⟩ | ⟨runnable, alive⟩
  · rw [state, waitState]
    exact first proc
  · right
    refine ⟨runnable, ?_⟩
    rcases first proc with ⟨state, _⟩ | ⟨_, alive⟩
    · rw [← state]
      exact alive
    · exact alive

theorem rouses_of_woken (alive : (kernel.procs proc).state ≠ .zombie)
    (woken : Woken kernel after proc) : Rouses kernel after := by
  intro other
  by_cases same : other = proc
  · subst same
    exact Or.inr ⟨woken.wakes.runnable, alive⟩
  · exact Or.inl (woken.wakes.others other same)

theorem rouses_of_keepsStates (keeps : KeepsStates kernel after) : Rouses kernel after :=
  fun proc => Or.inl (keeps proc)

namespace Scheduled

variable {phase : Nat → KernelPhase} {timers : List Timer} {waiting : List Nat} {nextProc : Nat}

/-- The loop of `run_timer_list`. -/
theorem wakeExpired {expiring : List Timer} (scheduled : Scheduled kernel phase [] waiting nextProc)
    (sleeps : ∀ timer ∈ expiring, phase timer.proc = .sleepCalls ∨ phase timer.proc = .sleepBack) :
    ∃ after left, Schedule.wakeExpired defaultSchedClass kernel expiring = .ok (after, left) ∧
      Scheduled after phase [] waiting nextProc ∧ left <:+ expiring ∧
      (∀ timer, left.head? = some timer → timer.expires ≠ 0) ∧
      Rouses kernel after ∧ ∃ new, Queues kernel after new := by
  induction expiring generalizing kernel with
  | nil => exact ⟨kernel, [], rfl, scheduled, List.suffix_rfl, nofun, .refl, [], .refl⟩
  | cons timer rest inductionHypothesis =>
      unfold Schedule.wakeExpired
      by_cases expired : timer.expires = 0
      · obtain ⟨below, alive, waits⟩ :=
          scheduled.sleeper (sleeps timer List.mem_cons_self)
        have noAssert : ¬ ((kernel.procs timer.proc).waitState ≠ 0 ∧
            interruptible (kernel.procs timer.proc).waitState = false) := by
          rintro ⟨some, not⟩
          rw [waits some] at not
          cases not
        obtain ⟨woken, done, still, wakes⟩ := scheduled.wake below alive
        obtain ⟨after, left, finished, holds, suffix, counts, rouses, new, queues⟩ :=
          inductionHypothesis still fun other member =>
            sleeps other (List.mem_cons_of_mem _ member)
        obtain ⟨first, firstQueues⟩ := wakes.queues
        rw [if_pos expired]
        simp only [if_neg noAssert, done, bind, Except.bind]
        exact ⟨after, left, finished, holds, suffix.trans (List.suffix_cons timer rest), counts,
          (rouses_of_woken alive wakes).trans rouses, first ++ new, firstQueues.trans queues⟩
      · rw [if_neg expired]
        refine ⟨kernel, timer :: rest, rfl, scheduled, List.suffix_rfl, ?_, .refl, [], .refl⟩
        intro first isHead
        cases isHead
        exact expired

/-- The end of a tick: the running process is told. -/
theorem procTick (scheduled : Scheduled kernel phase timers waiting nextProc) :
    Scheduled (schedClassProcTick defaultSchedClass kernel kernel.current) phase timers waiting
        nextProc ∧
      KeepsStates kernel (schedClassProcTick defaultSchedClass kernel kernel.current) ∧
      Queues kernel (schedClassProcTick defaultSchedClass kernel kernel.current) [] := by
  have ticked : ∃ changed : Proc, schedClassProcTick defaultSchedClass kernel kernel.current =
      { kernel with procs := Function.update kernel.procs kernel.current changed } ∧
      changed.state = (kernel.procs kernel.current).state ∧
      changed.waitState = (kernel.procs kernel.current).waitState := by
    unfold schedClassProcTick
    split_ifs
    · exact ⟨_, rfl, rfl, rfl⟩
    · exact ⟨_, rfl, rfl, rfl⟩
  obtain ⟨changed, isTick, state, waitState⟩ := ticked
  rw [isTick]
  refine ⟨scheduled.retouch state waitState, ?_, (List.append_nil _).symm, rfl, rfl⟩
  exact keepsStates_update rfl state waitState

/-- A timer tick. -/
theorem tick (scheduled : Scheduled kernel phase timers waiting nextProc) :
    ∃ after left, runTimerList defaultSchedClass kernel timers = .ok (after, left) ∧
      Scheduled after phase left waiting nextProc ∧ Rouses kernel after ∧
      ∃ new, Queues kernel after new := by
  cases timers with
  | nil =>
      obtain ⟨holds, keeps, queues⟩ := scheduled.procTick
      exact ⟨_, [], rfl, holds, rouses_of_keepsStates keeps, [], queues⟩
  | cons timer rest =>
      have positive := scheduled.counts timer rfl
      have none : Scheduled kernel phase [] waiting nextProc :=
        scheduled.less nofun .nil nofun (fun _ => id) scheduled.waitsOnce
      have sleeps : ∀ other ∈ { timer with expires := timer.expires - 1 } :: rest,
          phase other.proc = .sleepCalls ∨ phase other.proc = .sleepBack := by
        intro other member
        cases List.mem_cons.mp member with
        | inl first =>
            rw [first]
            exact scheduled.sleeps timer List.mem_cons_self
        | inr within => exact scheduled.sleeps other (List.mem_cons_of_mem _ within)
      obtain ⟨middle, left, done, woken, suffix, counts, rouses, new, queues⟩ :=
        none.wakeExpired sleeps
      have holds : Scheduled middle phase left waiting nextProc := by
        apply woken.less _ _ counts (fun _ => id) woken.waitsOnce
        · exact fun other member => sleeps other (suffix.mem member)
        · exact scheduled.sleepsOnce.count.suffix suffix
      obtain ⟨ticked, keeps, noneQueued⟩ := holds.procTick
      refine ⟨_, left, ?_, ticked, rouses.trans (rouses_of_keepsStates keeps), new ++ [],
        queues.trans noneQueued⟩
      unfold runTimerList
      simp only [if_neg positive, done, bind, Except.bind, pure, Except.pure]

end Scheduled

end UCore.Process
