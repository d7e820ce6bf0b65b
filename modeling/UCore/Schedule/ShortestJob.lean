import Mathlib.Data.List.Sort
import UCore.Schedule.RoundRobin
import UCore.Schedule.StrideOrder

/-!
Contract: the shortest-job-first scheduling class, `kern/schedule/sched_sjf.c` of lab 6.

Owns:
- the operations of the class;
- the runs of a kernel under it, with the time at which each process was queued last;
- the order of its run queue and of dispatch.

The scheduler core of lab 6 is that of lab 8 without timers.

Does not own: why a process sleeps.
-/

set_option autoImplicit false

namespace UCore.Schedule

open UCore.Lib UCore.Libs

/-- Scans for the first process with a greater key, and inserts before it. -/
def sjfEnqueue (kernel : Kernel) (proc : Nat) : Except Stop Kernel :=
  if proc ∈ kernel.rq.runList then .error .assertFailed
  else
    let queued := kernel.updateProc proc (refillTimeSlice kernel.rq.maxTimeSlice)
    .ok { queued with
      rq := { queued.rq with
        runList := kernel.rq.runList.orderedInsert
          (fun proc next => (kernel.procs proc).lab6Priority < (kernel.procs next).lab6Priority) proc
        procNum := queued.rq.procNum + 1 } }

def sjfDequeue (kernel : Kernel) (proc : Nat) : Except Stop Kernel := rrDequeue kernel proc

def sjfPickNext (kernel : Kernel) : Option Nat × Kernel := rrPickNext kernel

/-- Not preemptive -/
def sjfProcTick (kernel : Kernel) (_ : Nat) : Kernel := kernel

def sjfSchedClass : SchedClass where
  enqueue := sjfEnqueue
  dequeue := sjfDequeue
  pickNext := sjfPickNext
  procTick := sjfProcTick

/-! ## Runs -/

/-- A kernel, the processes it has allocated, the number of events so far, and when each process was
queued last. -/
structure SjfSystem where
  kernel : Kernel
  allocated : List Nat
  clock : Nat
  arrival : Nat → Nat

namespace SjfSystem

/-- A process is made at an unused address, or at that of a reaped one. Only a process that goes
on running puts itself to sleep or exits. -/
def Admits (system : SjfSystem) : Event → Prop
  | .allocProc proc => proc ∉ system.allocated ∨
      ((system.kernel.procs proc).state = .zombie ∧ proc ≠ system.kernel.current)
  | .wakeupProc proc => proc ∈ system.allocated
  | .sleep _ | .exit => Ready system.kernel.procs system.kernel.current
  | .schedule | .lab6SetPriority _ | .procTick => True

instance (system : SjfSystem) (event : Event) : Decidable (system.Admits event) :=
  match event with
  | .allocProc _ => inferInstanceAs (Decidable (_ ∨ _))
  | .wakeupProc _ => inferInstanceAs (Decidable (_ ∈ _))
  | .sleep _ | .exit => inferInstanceAs (Decidable (Ready _ _))
  | .schedule | .lab6SetPriority _ | .procTick => .isTrue trivial

/-- Whoever comes onto the run queue arrives now. -/
def arrivalAfter (system : SjfSystem) (queued : Kernel) (proc : Nat) : Nat :=
  if proc ∈ queued.rq.runList ∧ proc ∉ system.kernel.rq.runList then system.clock
  else system.arrival proc

def answer (system : SjfSystem) : Event → Except Stop SjfSystem
  | .allocProc proc =>
      .ok ⟨allocProc system.kernel proc, proc :: system.allocated, system.clock + 1, system.arrival⟩
  | .wakeupProc proc => do
      let kernel ← wakeupProc sjfSchedClass system.kernel proc
      pure ⟨kernel, system.allocated, system.clock + 1, system.arrivalAfter kernel⟩
  | .schedule => do
      let queued ← scheduleEnqueue sjfSchedClass system.kernel
      let kernel ← schedule sjfSchedClass system.kernel
      pure ⟨kernel, system.allocated, system.clock + 1, system.arrivalAfter queued⟩
  | .sleep waitState =>
      .ok ⟨sleepCurrent system.kernel waitState, system.allocated, system.clock + 1, system.arrival⟩
  | .exit => .ok ⟨exitCurrent system.kernel, system.allocated, system.clock + 1, system.arrival⟩
  | .lab6SetPriority priority =>
      .ok ⟨lab6SetPriority system.kernel priority, system.allocated, system.clock + 1,
        system.arrival⟩
  | .procTick =>
      .ok ⟨schedClassProcTick sjfSchedClass system.kernel system.kernel.current, system.allocated,
        system.clock + 1, system.arrival⟩

end SjfSystem

def sjfMachine : Machine SjfSystem Event Stop := ⟨SjfSystem.Admits, SjfSystem.answer⟩

instance : DecidableRel sjfMachine.Admits :=
  inferInstanceAs (∀ system event, Decidable (SjfSystem.Admits system event))

def bootSjf : SjfSystem := ⟨bootKernel, [idleproc], 0, fun _ => 0⟩

/-! ## The order -/

/-- The order of the run queue: by key, and by arrival where the keys are equal. -/
def GoesBefore (procs : Nat → Proc) (arrival : Nat → Nat) (proc next : Nat) : Prop :=
  (procs proc).lab6Priority < (procs next).lab6Priority ∨
    ((procs proc).lab6Priority = (procs next).lab6Priority ∧ arrival proc < arrival next)

instance {procs : Nat → Proc} {arrival : Nat → Nat} : DecidableRel (GoesBefore procs arrival) :=
  fun _ _ => inferInstanceAs (Decidable (_ ∨ _))

variable {procs : Nat → Proc} {arrival : Nat → Nat} {kernel queued : Kernel} {list : List Nat}
  {proc clock : Nat}

/-- The one that comes last goes behind all that have the same key. -/
theorem sorted_insert (sorted : list.Pairwise (GoesBefore procs arrival))
    (early : ∀ other ∈ list, arrival other < arrival proc) :
    (list.orderedInsert (fun proc next => (procs proc).lab6Priority < (procs next).lab6Priority)
      proc).Pairwise (GoesBefore procs arrival) := by
  induction list with
  | nil => exact List.pairwise_singleton _ proc
  | cons next rest inductionHypothesis =>
      obtain ⟨before, later⟩ := List.pairwise_cons.mp sorted
      rw [List.orderedInsert_cons]
      split_ifs with less
      · refine List.pairwise_cons.mpr ⟨?_, sorted⟩
        intro other member
        left
        rcases List.mem_cons.mp member with rfl | behind
        · exact less
        · rcases before other behind with above | ⟨same, _⟩
          · exact lt_trans less above
          · exact same ▸ less
      · refine List.pairwise_cons.mpr ⟨?_, inductionHypothesis later fun other member =>
          early other (List.mem_cons_of_mem _ member)⟩
        intro other member
        rcases (List.mem_orderedInsert _).mp member with rfl | behind
        · rcases Nat.lt_or_eq_of_le (Nat.le_of_not_lt less) with above | same
          · exact Or.inl above
          · exact Or.inr ⟨same, early next List.mem_cons_self⟩
        · exact before other behind

theorem erase_insert (absent : proc ∉ list) :
    (list.orderedInsert (fun proc next => (procs proc).lab6Priority < (procs next).lab6Priority)
      proc).erase proc = list := by
  induction list with
  | nil => exact List.erase_cons_head proc []
  | cons next rest inductionHypothesis =>
      obtain ⟨apart, later⟩ := not_or.mp (mt List.mem_cons.mpr absent)
      rw [List.orderedInsert_cons]
      split_ifs with less
      · exact List.erase_cons_head proc (next :: rest)
      · have apart : (next == proc) = false := beq_eq_false_iff_ne.mpr (Ne.symm apart)
        rw [List.erase_cons_tail (by rw [apart]; exact nofun), inductionHypothesis later]

/-- What `SJF_enqueue` does. -/
structure SjfQueued (kernel : Kernel) (proc : Nat) (queued : Kernel) : Prop where
  runList : queued.rq.runList = kernel.rq.runList.orderedInsert
    (fun proc next => (kernel.procs proc).lab6Priority < (kernel.procs next).lab6Priority) proc
  keeps : KeepsStates kernel queued
  current : queued.current = kernel.current
  priority : ∀ other, (queued.procs other).lab6Priority = (kernel.procs other).lab6Priority

theorem Listed.sjfEnqueue {members : Nat → Prop} (listed : Listed kernel members)
    (absent : ¬ members proc) : ∃ queued, Schedule.sjfEnqueue kernel proc = .ok queued ∧
      Listed queued (fun other => members other ∨ other = proc) ∧ SjfQueued kernel proc queued := by
  have unlisted : proc ∉ kernel.rq.runList := fun member => absent ((listed.mem_iff proc).mp member)
  have perm := List.perm_orderedInsert (fun proc next =>
    (kernel.procs proc).lab6Priority < (kernel.procs next).lab6Priority) proc kernel.rq.runList
  rw [Schedule.sjfEnqueue, if_neg unlisted]
  refine ⟨_, rfl, ⟨?nodup, fun other => ?mem_iff, fun other member => ?onRq⟩, rfl, ?keeps, rfl, ?key⟩
  case nodup =>
    exact perm.nodup_iff.mpr (List.nodup_cons.mpr ⟨unlisted, listed.nodup⟩)
  case mem_iff =>
    change other ∈ List.orderedInsert _ _ _ ↔ _
    rw [perm.mem_iff, List.mem_cons, or_comm, listed.mem_iff other]
  case onRq =>
    by_cases same : other = proc
    · simp [Kernel.updateProc, refillTimeSlice, same]
    · simpa [Kernel.updateProc, same] using listed.onRq other (member.resolve_right same)
  case keeps =>
    apply keepsStates_update <;> rfl
  case key =>
    intro other
    by_cases same : other = proc
    · simp [Kernel.updateProc, refillTimeSlice, same]
    · simp [Kernel.updateProc, same]

/-- What holds between events. -/
structure SjfInvariant (system : SjfSystem) : Prop where
  sched : SchedInvariant system.kernel system.allocated
  sorted : system.kernel.rq.runList.Pairwise (GoesBefore system.kernel.procs system.arrival)
  early : ∀ proc ∈ system.kernel.rq.runList, system.arrival proc < system.clock

theorem bootSjf_invariant : SjfInvariant bootSjf where
  sched := bootKernel_invariant
  sorted := List.Pairwise.nil
  early := nofun

/-! ## Steps -/

theorem GoesBefore.congr {procs' : Nat → Proc} {arrival' : Nat → Nat} {left right : Nat}
    (before : GoesBefore procs arrival left right)
    (priority : ∀ other, (procs' other).lab6Priority = (procs other).lab6Priority)
    (leftArrival : arrival' left = arrival left) (rightArrival : arrival' right = arrival right) :
    GoesBefore procs' arrival' left right := by
  unfold GoesBefore
  rwa [priority, priority, leftArrival, rightArrival]

theorem scheduleEnqueue_eq (schedClass : SchedClass) (kernel : Kernel) :
    scheduleEnqueue schedClass kernel =
      if Ready kernel.procs kernel.current then
        schedClass.enqueue (clearNeedResched kernel) kernel.current
      else .ok (clearNeedResched kernel) := by
  have same : ((clearNeedResched kernel).procs kernel.current).state =
      (kernel.procs kernel.current).state := by
    rw [clearNeedResched, Kernel.updateProc_self]
  unfold scheduleEnqueue
  change (if ((clearNeedResched kernel).procs kernel.current).state = .runnable then
    schedClassEnqueue schedClass (clearNeedResched kernel) kernel.current else _) = _
  rw [same]
  by_cases runnable : (kernel.procs kernel.current).state = .runnable
  · rw [if_pos runnable]
    unfold schedClassEnqueue
    by_cases notIdle : kernel.current ≠ idleproc
    · rw [if_pos notIdle, if_pos ⟨runnable, notIdle⟩]
    · rw [if_neg notIdle, if_neg fun ready : Ready kernel.procs kernel.current => notIdle ready.2]
  · rw [if_neg runnable, if_neg fun ready : Ready kernel.procs kernel.current => runnable ready.1]

namespace SjfInvariant

variable {system : SjfSystem}

/-- A queue after one process came onto it. -/
theorem enqueued {before : Kernel} (invariant : SjfInvariant system)
    (sameList : before.rq.runList = system.kernel.rq.runList)
    (samePriority : ∀ other, (before.procs other).lab6Priority =
      (system.kernel.procs other).lab6Priority)
    (absent : proc ∉ system.kernel.rq.runList) (outcome : SjfQueued before proc queued) :
    queued.rq.runList.Pairwise (GoesBefore queued.procs (system.arrivalAfter queued)) ∧
      (∀ other ∈ queued.rq.runList, system.arrivalAfter queued other < system.clock + 1) ∧
      queued.rq.runList.erase proc = system.kernel.rq.runList := by
  have perm := List.perm_orderedInsert (fun proc next =>
    (before.procs proc).lab6Priority < (before.procs next).lab6Priority) proc before.rq.runList
  rw [← outcome.runList, sameList] at perm
  have arrives : system.arrivalAfter queued proc = system.clock :=
    if_pos ⟨perm.mem_iff.mpr List.mem_cons_self, absent⟩
  have old : ∀ other ∈ system.kernel.rq.runList,
      system.arrivalAfter queued other = system.arrival other :=
    fun other member => if_neg fun both => both.2 member
  have samePriority' : ∀ other, (queued.procs other).lab6Priority =
      (system.kernel.procs other).lab6Priority :=
    fun other => (outcome.priority other).trans (samePriority other)
  have sorted : system.kernel.rq.runList.Pairwise
      (GoesBefore before.procs (system.arrivalAfter queued)) := by
    refine List.Pairwise.imp_of_mem (fun {left right} leftMember rightMember before => ?_)
      invariant.sorted
    exact before.congr samePriority (old left leftMember) (old right rightMember)
  refine ⟨?_, ?_, ?_⟩
  · have inserted := sorted_insert sorted fun other member => by
      rw [old other member, arrives]
      exact invariant.early other member
    rw [outcome.runList, sameList]
    exact inserted.imp fun before => before.congr outcome.priority rfl rfl
  · intro other member
    rcases List.mem_cons.mp (perm.mem_iff.mp member) with rfl | before
    · rw [arrives]
      exact Nat.lt_succ_self _
    · rw [old other before]
      exact Nat.lt_succ_of_lt (invariant.early other before)
  · rw [outcome.runList, sameList]
    exact erase_insert absent

/-- What `schedule` queues. -/
structure SchedulesFrom (system : SjfSystem) (queued : Kernel) : Prop where
  done : scheduleEnqueue sjfSchedClass system.kernel = .ok queued
  listed : Listed queued (Ready system.kernel.procs)
  keeps : KeepsStates system.kernel queued
  sorted : queued.rq.runList.Pairwise (GoesBefore queued.procs (system.arrivalAfter queued))
  early : ∀ other ∈ queued.rq.runList, system.arrivalAfter queued other < system.clock + 1
  others : queued.rq.runList.erase system.kernel.current = system.kernel.rq.runList

theorem schedulesFrom (invariant : SjfInvariant system) :
    ∃ queued, SchedulesFrom system queued := by
  have keeps : KeepsStates system.kernel (clearNeedResched system.kernel) := by
    apply keepsStates_update <;> rfl
  have priority : ∀ other, ((clearNeedResched system.kernel).procs other).lab6Priority =
      (system.kernel.procs other).lab6Priority := by
    intro other
    by_cases same : other = system.kernel.current
    · simp [clearNeedResched, Kernel.updateProc, same]
    · simp [clearNeedResched, Kernel.updateProc, same]
  have listed : Listed (clearNeedResched system.kernel)
      (fun proc => Ready system.kernel.procs proc ∧ proc ≠ system.kernel.current) :=
    invariant.sched.listed.frame rfl fun other member => by
      rw [clearNeedResched, Kernel.updateProc_of_ne _ _ member.2]
  have absent : system.kernel.current ∉ system.kernel.rq.runList := fun member =>
    ((invariant.sched.listed.mem_iff _).mp member).2 rfl
  by_cases ready : Ready system.kernel.procs system.kernel.current
  · obtain ⟨queued, done, queuedListed, outcome⟩ := listed.sjfEnqueue fun inside => inside.2 rfl
    have sameList : (clearNeedResched system.kernel).rq.runList = system.kernel.rq.runList := rfl
    obtain ⟨sorted, early, others⟩ := invariant.enqueued sameList priority absent outcome
    refine ⟨queued, ?_, queuedListed.congr fun proc => ?_, keeps.trans outcome.keeps, sorted, early,
      others⟩
    · rw [scheduleEnqueue_eq, if_pos ready]
      exact done
    · by_cases same : proc = system.kernel.current
      · simp [same, ready]
      · simp [same]
  · have same : system.arrivalAfter (clearNeedResched system.kernel) = system.arrival :=
      funext fun other => if_neg fun both => both.2 both.1
    refine ⟨clearNeedResched system.kernel, ?_, listed.congr fun proc => ?_, keeps, ?_, ?_,
      List.erase_of_not_mem absent⟩
    · rw [scheduleEnqueue_eq, if_neg ready]
    · exact and_iff_left_of_imp fun procReady same => ready (same ▸ procReady)
    · rw [same]
      exact invariant.sorted.imp fun before => before.congr priority rfl rfl
    · rw [same]
      exact fun other member => Nat.lt_succ_of_lt (invariant.early other member)

/-- What `schedule` does. -/
structure Schedules (system : SjfSystem) (queued after : Kernel) : Prop where
  done : schedule sjfSchedClass system.kernel = .ok after
  /-- it dispatches the first process of the queue, or the idle process -/
  queue : (queued.rq.runList = [] ∧ after.rq.runList = [] ∧ after.current = idleproc) ∨
    queued.rq.runList = after.current :: after.rq.runList
  priority : ∀ other, (after.procs other).lab6Priority = (queued.procs other).lab6Priority

theorem schedules (invariant : SjfInvariant system) (from' : SchedulesFrom system queued) :
    ∃ after, Schedules system queued after ∧
      SjfInvariant ⟨after, system.allocated, system.clock + 1, system.arrivalAfter queued⟩ := by
  have priority : ∀ (dequeued : Kernel) (next other : Nat),
      ((scheduleSwitch dequeued next).procs other).lab6Priority =
        (dequeued.procs other).lab6Priority := by
    intro dequeued next other
    by_cases same : other = next
    · simp [scheduleSwitch, Kernel.updateProc, same]
    · simp [scheduleSwitch, Kernel.updateProc, same]
  cases runList : queued.rq.runList with
  | nil =>
      have chosen : sjfSchedClass.pickNext queued = (none, queued) := by
        simp [sjfSchedClass, sjfPickNext, rrPickNext, runList]
      obtain ⟨holds, _⟩ := invariant.sched.switch from'.keeps invariant.sched.idleAllocated
        (from'.listed.congr fun proc => (and_iff_left_of_imp fun ready => ready.2).symm)
      have empty : (scheduleSwitch queued idleproc).rq.runList = [] := runList
      refine ⟨_, ⟨schedule_none from'.done chosen, Or.inl ⟨runList, runList, rfl⟩,
        priority queued idleproc⟩, holds, ?_, ?_⟩
      · rw [empty]
        exact List.Pairwise.nil
      · rw [empty]
        intros
        contradiction
  | cons next rest =>
      have chosen : sjfSchedClass.pickNext queued = (some next, queued) := by
        simp [sjfSchedClass, sjfPickNext, rrPickNext, runList]
      obtain ⟨dequeued, answered, ready, remaining, kept⟩ := from'.listed.dequeue_head runList
      obtain ⟨holds, _⟩ := invariant.sched.switch (from'.keeps.trans kept)
        (invariant.sched.ready_allocated ready) remaining
      have taken : dequeued.rq.runList = rest ∧ dequeued.procs = queued.procs := by
        have present : next ∈ queued.rq.runList := runList ▸ List.mem_cons_self
        rw [rrDequeue, if_pos ⟨present, from'.listed.onRq next ready⟩] at answered
        obtain rfl := Except.ok.inj answered
        refine ⟨?_, rfl⟩
        change queued.rq.runList.erase next = rest
        rw [runList, List.erase_cons_head]
      have list : (scheduleSwitch dequeued next).rq.runList = rest := taken.1
      have sorted := from'.sorted
      have early := from'.early
      rw [runList] at sorted early
      have samePriority : ∀ other, ((scheduleSwitch dequeued next).procs other).lab6Priority =
          (queued.procs other).lab6Priority := fun other => by
        rw [priority, taken.2]
      refine ⟨_, ⟨schedule_some from'.done chosen answered, Or.inr ?_, samePriority⟩, holds, ?_, ?_⟩
      · rw [list]
        exact runList
      · rw [list]
        exact (List.pairwise_cons.mp sorted).2.imp fun before => before.congr samePriority rfl rfl
      · rw [list]
        exact fun other member => early other (List.mem_cons_of_mem _ member)

/-- The queue is as it was. -/
theorem unchanged {after : Kernel} {allocated : List Nat} (invariant : SjfInvariant system)
    (sched : SchedInvariant after allocated)
    (sameList : after.rq.runList = system.kernel.rq.runList)
    (samePriority : ∀ other ∈ system.kernel.rq.runList,
      (after.procs other).lab6Priority = (system.kernel.procs other).lab6Priority) :
    SjfInvariant ⟨after, allocated, system.clock + 1, system.arrival⟩ where
  sched := sched
  sorted := by
    change after.rq.runList.Pairwise _
    rw [sameList]
    refine List.Pairwise.imp_of_mem (fun {left right} leftMember rightMember before => ?_)
      invariant.sorted
    unfold GoesBefore
    rwa [samePriority left leftMember, samePriority right rightMember]
  early := by
    change ∀ proc ∈ after.rq.runList, _
    rw [sameList]
    exact fun proc member => Nat.lt_succ_of_lt (invariant.early proc member)

/-- The current process changes, and the idle process goes on. -/
theorem changeCurrent {changed : Proc} (invariant : SjfInvariant system)
    (idle : system.kernel.current = idleproc → changed.state = .runnable) :
    SjfInvariant ⟨{ system.kernel with
      procs := Function.update system.kernel.procs system.kernel.current changed },
      system.allocated, system.clock + 1, system.arrival⟩ :=
  invariant.unchanged (invariant.sched.changeCurrent idle) rfl fun other member =>
    congrArg Proc.lab6Priority (Function.update_of_ne
      ((invariant.sched.listed.mem_iff other).mp member).2 _ _)

/-- What waking a process does to the queue. -/
theorem wakeup {after : Kernel} (invariant : SjfInvariant system) (present : proc ∈ system.allocated)
    (done : wakeupProc sjfSchedClass system.kernel proc = .ok after) :
    SjfInvariant ⟨after, system.allocated, system.clock + 1, system.arrivalAfter after⟩ ∧
      (after.rq.runList = system.kernel.rq.runList ∨
        after.rq.runList.erase proc = system.kernel.rq.runList) := by
  have stays : ∀ {after : Kernel}, after.rq.runList = system.kernel.rq.runList →
      system.arrivalAfter after = system.arrival := fun same => funext fun other => if_neg fun both =>
    both.2 (same ▸ both.1)
  unfold wakeupProc at done
  split_ifs at done with dead runnable other
  · obtain rfl := Except.ok.inj done
    rw [stays rfl]
    exact ⟨invariant.unchanged invariant.sched rfl fun _ _ => rfl, Or.inl rfl⟩
  · have notIdle : proc ≠ idleproc := fun same => runnable (same ▸ invariant.sched.idleRunnable)
    have absent : proc ∉ system.kernel.rq.runList := fun member =>
      runnable ((invariant.sched.listed.mem_iff proc).mp member).1.1
    obtain ⟨queued, enqueued, queuedListed, outcome⟩ :=
      (invariant.sched.markRunnable_listed runnable).sjfEnqueue fun inside => runnable inside.1.1
    rw [schedClassEnqueue, if_pos notIdle] at done
    obtain rfl : queued = after := Except.ok.inj (enqueued.symm.trans done)
    obtain ⟨sched, _⟩ := invariant.sched.woken present runnable other queuedListed outcome.keeps
      outcome.current
    have samePriority : ∀ other, ((markRunnable system.kernel proc).procs other).lab6Priority =
        (system.kernel.procs other).lab6Priority := by
      intro other
      by_cases same : other = proc
      · simp [markRunnable, Kernel.updateProc, same]
      · simp [markRunnable, Kernel.updateProc, same]
    have sameList : (markRunnable system.kernel proc).rq.runList = system.kernel.rq.runList := rfl
    obtain ⟨sorted, early, others⟩ := invariant.enqueued sameList samePriority absent outcome
    exact ⟨⟨sched, sorted, early⟩, Or.inr others⟩
  · obtain rfl : proc = system.kernel.current := not_not.mp other
    obtain rfl := Except.ok.inj done
    have sameList : (markRunnable system.kernel system.kernel.current).rq.runList =
        system.kernel.rq.runList := rfl
    rw [stays sameList]
    exact ⟨invariant.changeCurrent fun _ => rfl, Or.inl rfl⟩

theorem step {event : Event} {after : SjfSystem} (invariant : SjfInvariant system)
    (step : sjfMachine.Step system event after) : SjfInvariant after := by
  obtain ⟨admitted, answered⟩ := step
  have answered : system.answer event = .ok after := answered
  cases event with
  | allocProc proc =>
      obtain rfl := Except.ok.inj answered
      have notReady : ¬ Ready system.kernel.procs proc := by
        rcases admitted with fresh | ⟨dead, _⟩
        · exact fun ready => fresh (invariant.sched.ready_allocated ready)
        · exact fun ready => nomatch dead.symm.trans ready.1
      have notIdle : proc ≠ idleproc := by
        rintro rfl
        rcases admitted with fresh | ⟨dead, _⟩
        · exact fresh invariant.sched.idleAllocated
        · exact nomatch dead.symm.trans invariant.sched.idleRunnable
      refine invariant.unchanged (invariant.sched.change (fun inside => notReady inside.1) nofun
        (fun same => absurd same notIdle) (fun _ => List.mem_cons_of_mem _) List.mem_cons_self) rfl
        fun other member => congrArg Proc.lab6Priority (Function.update_of_ne ?_ _ _)
      rintro rfl
      exact notReady ((invariant.sched.listed.mem_iff other).mp member).1
  | wakeupProc proc =>
      change Except.bind (Schedule.wakeupProc sjfSchedClass system.kernel proc) _ = _ at answered
      cases done : Schedule.wakeupProc sjfSchedClass system.kernel proc with
      | error stop =>
          rw [done] at answered
          cases answered
      | ok kernel =>
          rw [done] at answered
          obtain rfl := Except.ok.inj answered
          exact (invariant.wakeup admitted done).1
  | schedule =>
      obtain ⟨queued, from'⟩ := invariant.schedulesFrom
      obtain ⟨kernel, outcome, holds⟩ := invariant.schedules from'
      unfold SjfSystem.answer at answered
      rw [from'.done, outcome.done] at answered
      obtain rfl := Except.ok.inj answered
      exact holds
  | sleep waitState =>
      obtain rfl := Except.ok.inj answered
      have ready : Ready system.kernel.procs system.kernel.current := admitted
      exact invariant.changeCurrent fun idle => absurd idle ready.2
  | exit =>
      obtain rfl := Except.ok.inj answered
      have ready : Ready system.kernel.procs system.kernel.current := admitted
      exact invariant.changeCurrent fun idle => absurd idle ready.2
  | lab6SetPriority priority =>
      obtain rfl := Except.ok.inj answered
      refine invariant.changeCurrent fun idle => ?_
      rw [idle]
      exact invariant.sched.idleRunnable
  | procTick =>
      obtain rfl := Except.ok.inj answered
      unfold schedClassProcTick
      split_ifs with busy
      · exact invariant.unchanged invariant.sched rfl fun _ _ => rfl
      · refine invariant.changeCurrent fun idle => ?_
        rw [idle]
        exact invariant.sched.idleRunnable

theorem run {events : List Event} (run : Run sjfMachine.Step bootSjf events system) :
    SjfInvariant system :=
  run.invariant SjfInvariant (fun _ _ _ invariant move => invariant.step move) bootSjf_invariant

end SjfInvariant

/-! ## The order of dispatch -/

/-- The run queue is always in order; `schedule` dispatches its first process after the current one
came back to it, and takes out no other; and a process that is woken leaves the order of the others
as it was. -/
theorem sjf_order {events : List Event} {system : SjfSystem}
    (run : Run sjfMachine.Step bootSjf events system) :
    system.kernel.rq.runList.Pairwise (GoesBefore system.kernel.procs system.arrival) ∧
      (∀ proc, proc ∈ system.kernel.rq.runList ↔
        Ready system.kernel.procs proc ∧ proc ≠ system.kernel.current) ∧
      (∃ queued after, scheduleEnqueue sjfSchedClass system.kernel = .ok queued ∧
        sjfMachine.Step system .schedule after ∧
        -- every process that can run is queued, and all of them in the order they had
        (∀ proc, proc ∈ queued.rq.runList ↔ Ready system.kernel.procs proc) ∧
        queued.rq.runList.erase system.kernel.current = system.kernel.rq.runList ∧
        -- the earliest one with the least key runs
        ((queued.rq.runList = [] ∧ after.kernel.rq.runList = [] ∧ after.kernel.current = idleproc) ∨
          (queued.rq.runList = after.kernel.current :: after.kernel.rq.runList ∧
            ∀ other ∈ after.kernel.rq.runList,
              GoesBefore after.kernel.procs after.arrival after.kernel.current other))) ∧
      ∀ proc after, sjfMachine.Step system (.wakeupProc proc) after →
        after.kernel.rq.runList = system.kernel.rq.runList ∨
          after.kernel.rq.runList.erase proc = system.kernel.rq.runList := by
  have invariant := SjfInvariant.run run
  obtain ⟨queued, from'⟩ := invariant.schedulesFrom
  obtain ⟨kernel, outcome, holds⟩ := invariant.schedules from'
  refine ⟨invariant.sorted, invariant.sched.listed.mem_iff, ⟨queued,
    ⟨kernel, system.allocated, system.clock + 1, system.arrivalAfter queued⟩, from'.done,
    ⟨trivial, ?_⟩, from'.listed.mem_iff, from'.others, ?_⟩, ?_⟩
  · change system.answer .schedule = _
    unfold SjfSystem.answer
    rw [from'.done, outcome.done]
    rfl
  · rcases outcome.queue with idle | next
    · exact Or.inl idle
    · right
      refine ⟨next, fun other member => ?_⟩
      have sorted := from'.sorted
      rw [next] at sorted
      exact ((List.pairwise_cons.mp sorted).1 other member).congr outcome.priority rfl rfl
  · rintro proc after ⟨admitted, answered⟩
    have answered : system.answer (.wakeupProc proc) = .ok after := answered
    change Except.bind (wakeupProc sjfSchedClass system.kernel proc) _ = _ at answered
    cases done : wakeupProc sjfSchedClass system.kernel proc with
    | error stop =>
        rw [done] at answered
        cases answered
    | ok kernel =>
        rw [done] at answered
        obtain rfl := Except.ok.inj answered
        exact (invariant.wakeup admitted done).2

/-- Two processes are made, and the first one gives itself a lower priority and is queued again. -/
def sjfEvents : List Event :=
  [.allocProc 1, .wakeupProc 1, .allocProc 2, .wakeupProc 2, .schedule, .lab6SetPriority 7]

theorem sjf_order_two : ∃ system after, Run sjfMachine.Step bootSjf sjfEvents system ∧
    system.kernel.current = 1 ∧ sjfMachine.Step system .schedule after ∧
    after.kernel.rq.runList.Pairwise (GoesBefore after.kernel.procs after.arrival) ∧
    after.kernel.current = 2 ∧ after.kernel.rq.runList = [1] := by
  have done : (follow (sjfMachine.next fun _ _ => True) bootSjf sjfEvents).any (fun system =>
      decide (system.kernel.current = 1) &&
        match sjfMachine.answer system .schedule with
        | .ok after => decide (after.kernel.current = 2 ∧ after.kernel.rq.runList = [1])
        | .error _ => false) = true := by decide
  obtain ⟨system, finished, found⟩ := (Option.any_eq_true _ _).mp done
  obtain ⟨isOne, found⟩ := Bool.and_eq_true_iff.mp found
  have run : Run sjfMachine.Step bootSjf sjfEvents system :=
    Run.mono (fun _ _ _ move => move.1) (Machine.follow_next_run finished)
  obtain ⟨_, _, ⟨_, after, _, move, _⟩, _⟩ := sjf_order run
  rw [move.2] at found
  obtain ⟨isTwo, list⟩ := of_decide_eq_true found
  obtain ⟨sorted, _⟩ := sjf_order (run.append (Run.single move))
  exact ⟨system, after, run, of_decide_eq_true isOne, move, sorted, isTwo, list⟩

end UCore.Schedule
