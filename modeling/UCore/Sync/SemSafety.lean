import UCore.Lib.Ledger
import UCore.Sync.SemSystem

/-!
Contract: what semaphores guarantee in every run.

Owns:
- the invariant of a run: a waiter is on the queue and asleep, or released, runnable and off it,
  and the tokens of a semaphore are conserved;
- its preservation by every event, and the absence of failing assertions;
- the correctness of semaphores while no value overflows.
-/

set_option autoImplicit false

namespace UCore.Sync

open UCore.Lib UCore.Schedule

namespace SemSystem

/-- The waiters on `sem` that are released and have not yet returned from `down`. -/
def granted (system : SemSystem) (sem : Nat) : Nat :=
  system.allocated.countP fun proc =>
    decide ((system.phase proc).sem = some sem ∧ proc ∉ system.queue sem)

/-- A waiter on the queue sleeps, and is not running past its call of `schedule`. -/
structure Queued (system : SemSystem) (sem proc : Nat) : Prop where
  phase : (system.phase proc).sem = some sem
  owner : (system.sync.waits proc).proc = proc
  linked : (system.sync.waits proc).linked = true
  waitQueue : (system.sync.waits proc).waitQueue = some sem
  asleep : (system.sync.kernel.procs proc).state = .sleeping
  waitState : (system.sync.kernel.procs proc).waitState = wtKsem
  away : system.phase proc = .scheduled sem → proc ≠ system.current

/-- A released waiter is runnable and carries the flags that `down` looks for. -/
structure Served (system : SemSystem) (proc : Nat) : Prop where
  unlinked : (system.sync.waits proc).linked = false
  wakeupFlags : (system.sync.waits proc).wakeupFlags = wtKsem
  runnable : (system.sync.kernel.procs proc).state = .runnable

/-- What holds of one semaphore. -/
structure Conserves (initial : Nat → Int) (system : SemSystem) (sem : Nat) : Prop where
  distinct : (system.queue sem).Nodup
  nonneg : 0 ≤ (system.sync.sems sem).value
  fits : (system.sync.sems sem).value < 2 ^ 31
  idle : 0 < (system.sync.sems sem).value → system.queue sem = []
  tokens : initial sem + system.ups sem =
    (system.sync.sems sem).value + system.taken sem + system.granted sem
  fifo : system.arrived sem = system.released sem ++ system.queue sem

end SemSystem

open SemSystem

structure SemInvariant (initial : Nat → Int) (system : SemSystem) : Prop where
  sched : SchedInvariant system.sync.kernel system.allocated
  distinct : system.allocated.Nodup
  queued : ∀ sem proc, proc ∈ system.queue sem → system.Queued sem proc
  served : ∀ sem proc, (system.phase proc).sem = some sem → proc ∉ system.queue sem →
    system.Served proc
  waiting : ∀ sem proc, system.phase proc = .waiting sem → proc = system.current
  conserves : ∀ sem, system.Conserves initial sem

variable {initial : Nat → Int} {system : SemSystem}

theorem bootSemSystem_invariant (range : ∀ sem, 0 ≤ initial sem ∧ initial sem < 2 ^ 31) :
    SemInvariant initial (bootSemSystem initial) where
  sched := bootKernel_invariant
  distinct := List.nodup_singleton _
  queued _ _ member := absurd member List.not_mem_nil
  served sem proc inside := by simp [bootSemSystem, DownPhase.sem] at inside
  waiting sem proc inside := by simp [bootSemSystem] at inside
  conserves sem := by
    refine ⟨List.nodup_nil, (range sem).1, (range sem).2, fun _ => rfl, ?_, rfl⟩
    simp [bootSemSystem, semInit, granted, DownPhase.sem]

/-- A semaphore that is left alone, with its history and its released waiters. -/
theorem SemSystem.Conserves.transport {after : SemSystem} {sem : Nat}
    (before : system.Conserves initial sem)
    (sems : after.sync.sems sem = system.sync.sems sem) (ups : after.ups sem = system.ups sem)
    (taken : after.taken sem = system.taken sem) (granted : after.granted sem = system.granted sem)
    (arrived : after.arrived sem = system.arrived sem)
    (released : after.released sem = system.released sem) : after.Conserves initial sem := by
  have queue : after.queue sem = system.queue sem := congrArg Semaphore.waitQueue sems
  refine ⟨?_, ?_, ?_, ?_, ?_, ?_⟩
  · rw [queue]
    exact before.distinct
  · rw [sems]
    exact before.nonneg
  · rw [sems]
    exact before.fits
  · rw [sems, queue]
    exact before.idle
  · rw [sems, ups, taken, granted]
    exact before.tokens
  · rw [arrived, released, queue]
    exact before.fifo

theorem granted_congr {after : SemSystem} {sem : Nat} (allocated : after.allocated = system.allocated)
    (phase : ∀ proc, (after.phase proc).sem = some sem ↔ (system.phase proc).sem = some sem)
    (queue : after.queue sem = system.queue sem) : after.granted sem = system.granted sem := by
  unfold granted
  rw [allocated]
  apply List.countP_congr
  intro proc _
  simp only [phase proc, queue]

/-- A queue that stays as it is adds nothing to its history. -/
theorem record_history {sync : SyncState} {sem : Nat}
    (same : (sync.sems sem).waitQueue = system.queue sem) :
    (system.record sync).arrived sem = system.arrived sem ∧
      (system.record sync).released sem = system.released sem := by
  have none : ∀ queue : List Nat, queue.filter (fun proc => decide (proc ∉ queue)) = [] := by
    intro queue
    simp
  constructor <;> simp only [record, same, none, List.append_nil]

theorem recordKernel_released (kernel : Kernel) (sem : Nat) :
    (system.recordKernel kernel).released sem = system.released sem :=
  (@record_history system { system.sync with kernel := kernel } sem rfl).2

namespace SemInvariant

/-- A process inside `down` sleeps or is runnable. -/
theorem inside_state (invariant : SemInvariant initial system) {sem proc : Nat}
    (inside : (system.phase proc).sem = some sem) :
    (system.sync.kernel.procs proc).state = .sleeping ∨
      (system.sync.kernel.procs proc).state = .runnable := by
  by_cases member : proc ∈ system.queue sem
  · exact Or.inl (invariant.queued sem proc member).asleep
  · exact Or.inr (invariant.served sem proc inside member).runnable

theorem inside_allocated (invariant : SemInvariant initial system) {sem proc : Nat}
    (inside : (system.phase proc).sem = some sem) : proc ∈ system.allocated := by
  by_contra absent
  have unused := invariant.sched.unused proc absent
  rcases invariant.inside_state inside with asleep | runnable
  · cases asleep.symm.trans unused
  · cases runnable.symm.trans unused

/-! ## Events that leave the semaphores alone -/

/-- A change of the kernel that keeps waiters asleep and released processes runnable. -/
theorem kernelStep {kernel : Kernel} {phase : Nat → DownPhase} {allocated : List Nat}
    (invariant : SemInvariant initial system) (sched : SchedInvariant kernel allocated)
    (distinct : allocated.Nodup)
    (grows : ∀ p : Nat → Bool, (∀ proc, (system.phase proc).sem = none → p proc = false) →
      allocated.countP p = system.allocated.countP p)
    (samePhase : ∀ proc, (phase proc).sem = (system.phase proc).sem)
    (asleep : ∀ sem proc, proc ∈ system.queue sem →
      (kernel.procs proc).state = .sleeping ∧ (kernel.procs proc).waitState = wtKsem ∧
        (phase proc = .scheduled sem → proc ≠ kernel.current))
    (awake : ∀ sem proc, (system.phase proc).sem = some sem →
      (system.sync.kernel.procs proc).state = .runnable → (kernel.procs proc).state = .runnable)
    (waiting : ∀ sem proc, phase proc = .waiting sem → proc = kernel.current) :
    SemInvariant initial
      { system.recordKernel kernel with phase := phase, allocated := allocated } := by
  refine ⟨sched, distinct, fun sem proc member => ?queued, fun sem proc inside absent => ?served,
    waiting, fun sem => ?conserves⟩
  case queued =>
    have before := invariant.queued sem proc member
    obtain ⟨state, waitState, away⟩ := asleep sem proc member
    exact ⟨(samePhase proc).trans before.phase, before.owner, before.linked, before.waitQueue, state,
      waitState, away⟩
  case served =>
    have insideBefore := (samePhase proc).symm.trans inside
    have before := invariant.served sem proc insideBefore absent
    exact ⟨before.unlinked, before.wakeupFlags, awake sem proc insideBefore before.runnable⟩
  case conserves =>
    obtain ⟨arrived, released⟩ := @record_history system
      { system.sync with kernel := kernel } sem rfl
    apply (invariant.conserves sem).transport
    · rfl
    · rfl
    · rfl
    · unfold granted
      simp only [samePhase]
      apply grows
      intro proc outside
      simp [outside]
    · exact arrived
    · exact released

/-- Any process becomes runnable that is not waiting. -/
theorem wakeupProc_step {proc : Nat} (invariant : SemInvariant initial system)
    (admitted : system.Admits (.wakeupProc proc)) :
    ∃ after, system.answer (.wakeupProc proc) = .ok after ∧ SemInvariant initial after ∧
      ∀ other, after.released other = system.released other := by
  obtain ⟨present, alive, notWaiting⟩ := admitted
  obtain ⟨kernel, woke, sched, wakes⟩ := invariant.sched.wakeup_step present alive
  refine ⟨system.recordKernel kernel, by simp [answer, woke, bind, Except.bind, pure, Except.pure],
    invariant.kernelStep sched invariant.distinct (fun _ _ => rfl) (fun _ => rfl) ?_ ?_ ?_,
    recordKernel_released kernel⟩
  · intro sem other member
    have before := invariant.queued sem other member
    have apart : other ≠ proc := by
      rintro rfl
      exact notWaiting ⟨before.asleep, before.waitState⟩
    rw [(wakes.others other apart).1, (wakes.others other apart).2, wakes.current]
    exact ⟨before.asleep, before.waitState, before.away⟩
  · intro sem other _ runnable
    by_cases same : other = proc
    · subst same
      exact wakes.runnable
    · exact (wakes.others other same).1.trans runnable
  · intro sem other phase
    rw [wakes.current]
    exact invariant.waiting sem other phase

theorem schedule_step (invariant : SemInvariant initial system) :
    ∃ after, system.answer .schedule = .ok after ∧ SemInvariant initial after ∧
      ∀ other, after.released other = system.released other := by
  obtain ⟨kernel, scheduled, sched, keeps, current⟩ := invariant.sched.schedule_step
  have answered : system.answer .schedule = .ok ((system.recordKernel kernel).setPhase
      system.current (system.phase system.current).afterSchedule) := by
    simp only [answer, scheduled, bind, Except.bind, pure, Except.pure]
  refine ⟨_, answered, ?_, recordKernel_released kernel⟩
  have currentRunnable : (system.sync.kernel.procs kernel.current).state = .runnable := by
    rcases current with idle | ready
    · rw [idle]
      exact invariant.sched.idleRunnable
    · exact ready.1
  apply invariant.kernelStep sched invariant.distinct (fun _ _ => rfl)
  · intro proc
    by_cases same : proc = system.current
    · subst same
      simp [recordKernel, record]
    · simp [recordKernel, record, same]
  · intro sem proc member
    have before := invariant.queued sem proc member
    refine ⟨(keeps proc).1.trans before.asleep, (keeps proc).2.trans before.waitState, ?_⟩
    rintro _ rfl
    cases before.asleep.symm.trans currentRunnable
  · intro sem proc _ runnable
    exact (keeps proc).1.trans runnable
  · intro sem proc phase
    by_cases same : proc = system.current
    · subst same
      simp only [recordKernel, record, Function.update_self] at phase
      cases before : system.phase system.current <;>
        simp [before, DownPhase.afterSchedule] at phase
    · simp only [recordKernel, record, Function.update_of_ne same] at phase
      exact absurd (invariant.waiting sem proc phase) same

/-- Outside `down`, a process changes its own state as it likes. -/
theorem currentStep {changed : Proc} (invariant : SemInvariant initial system)
    (outside : system.phase system.current = .outside)
    (idle : system.current = idleproc → changed.state = .runnable) :
    SemInvariant initial (system.recordKernel { system.sync.kernel with
      procs := Function.update system.sync.kernel.procs system.current changed }) := by
  have apart : ∀ sem proc, (system.phase proc).sem = some sem → proc ≠ system.current := by
    rintro sem proc inside rfl
    rw [outside] at inside
    cases inside
  have elsewhere : ∀ sem proc, (system.phase proc).sem = some sem →
      Function.update system.sync.kernel.procs system.current changed proc =
        system.sync.kernel.procs proc :=
    fun sem proc inside => Function.update_of_ne (apart sem proc inside) _ _
  apply invariant.kernelStep (invariant.sched.changeCurrent idle) invariant.distinct
    (fun _ _ => rfl) (fun _ => rfl)
  · intro sem proc member
    have before := invariant.queued sem proc member
    have same := elsewhere sem proc before.phase
    exact ⟨(congrArg Proc.state same).trans before.asleep,
      (congrArg Proc.waitState same).trans before.waitState, before.away⟩
  · intro sem proc inside runnable
    exact (congrArg Proc.state (elsewhere sem proc inside)).trans runnable
  · exact invariant.waiting

theorem procTick_step (invariant : SemInvariant initial system) :
    SemInvariant initial (system.recordKernel
      (schedClassProcTick defaultSchedClass system.sync.kernel system.current)) := by
  have ticked : ∃ changed : Proc,
      changed.state = (system.sync.kernel.procs system.current).state ∧
      changed.waitState = (system.sync.kernel.procs system.current).waitState ∧
      schedClassProcTick defaultSchedClass system.sync.kernel system.current =
        { system.sync.kernel with
          procs := Function.update system.sync.kernel.procs system.current changed } := by
    unfold schedClassProcTick
    split_ifs
    · exact ⟨consumeTimeSlice (system.sync.kernel.procs system.current), rfl, rfl, rfl⟩
    · exact ⟨{ system.sync.kernel.procs system.current with needResched := true }, rfl, rfl, rfl⟩
  obtain ⟨changed, state, waitState, ticked⟩ := ticked
  have keeps : KeepsStates system.sync.kernel { system.sync.kernel with
      procs := Function.update system.sync.kernel.procs system.current changed } :=
    keepsStates_update rfl state waitState
  rw [ticked]
  apply invariant.kernelStep _ invariant.distinct (fun _ _ => rfl) (fun _ => rfl)
  · intro sem proc member
    have before := invariant.queued sem proc member
    exact ⟨(keeps proc).1.trans before.asleep, (keeps proc).2.trans before.waitState, before.away⟩
  · intro sem proc _ runnable
    exact (keeps proc).1.trans runnable
  · exact invariant.waiting
  · apply invariant.sched.changeCurrent
    intro idle
    have isIdle : system.current = idleproc := idle
    rw [state, isIdle]
    exact invariant.sched.idleRunnable

theorem allocProc_step {proc : Nat} (invariant : SemInvariant initial system)
    (admitted : system.Admits (.allocProc proc)) :
    SemInvariant initial { system.recordKernel (allocProc system.sync.kernel proc) with
      allocated := system.allocated.insert proc } := by
  have dead : (system.sync.kernel.procs proc).state = .uninit ∨
      (system.sync.kernel.procs proc).state = .zombie := by
    rcases admitted with absent | ⟨zombie, _⟩
    · exact Or.inl (invariant.sched.unused proc absent)
    · exact Or.inr zombie
  have outside : (system.phase proc).sem = none := by
    by_contra inside
    obtain ⟨sem, inside⟩ := Option.ne_none_iff_exists'.mp inside
    rcases invariant.inside_state inside with asleep | runnable
    · rcases dead with unused | zombie
      · cases asleep.symm.trans unused
      · cases asleep.symm.trans zombie
    · rcases dead with unused | zombie
      · cases runnable.symm.trans unused
      · cases runnable.symm.trans zombie
  have apart : ∀ sem other, (system.phase other).sem = some sem → other ≠ proc := by
    rintro sem other inside rfl
    cases inside.symm.trans outside
  have sched : SchedInvariant (allocProc system.sync.kernel proc) (system.allocated.insert proc) := by
    apply invariant.sched.change
    · rintro ⟨ready, _⟩
      rcases dead with unused | zombie
      · cases ready.1.symm.trans unused
      · cases ready.1.symm.trans zombie
    · intro runnable
      cases runnable
    · rintro rfl
      rcases dead with unused | zombie
      · cases invariant.sched.idleRunnable.symm.trans unused
      · cases invariant.sched.idleRunnable.symm.trans zombie
    · exact fun other member => List.mem_insert_of_mem member
    · exact List.mem_insert_self
  apply invariant.kernelStep sched invariant.distinct.insert _ (fun _ => rfl)
  · intro sem other member
    have before := invariant.queued sem other member
    rw [allocProc, Kernel.updateProc_of_ne _ _ (apart sem other before.phase)]
    exact ⟨before.asleep, before.waitState, before.away⟩
  · intro sem other inside runnable
    rw [allocProc, Kernel.updateProc_of_ne _ _ (apart sem other inside)]
    exact runnable
  · exact invariant.waiting
  · intro p off
    by_cases present : proc ∈ system.allocated
    · rw [List.insert_of_mem present]
    · rw [List.insert_of_not_mem present, List.countP_cons_of_neg (by simp [off proc outside])]

/-! ## Events on a semaphore -/

/-- Changing the value of one semaphore, and counting what that means. -/
theorem valueStep {sem : Nat} {value : Int} {ups taken : Nat → Nat}
    (invariant : SemInvariant initial system) (nonneg : 0 ≤ value) (fits : value < 2 ^ 31)
    (idle : 0 < value → system.queue sem = [])
    (tokens : (ups sem : Int) - system.ups sem =
      value - (system.sync.sems sem).value + taken sem - system.taken sem)
    (others : ∀ other, other ≠ sem → ups other = system.ups other ∧ taken other = system.taken other) :
    SemInvariant initial { system.record (system.sync.setSem sem
      { system.sync.sems sem with value := value }) with ups := ups, taken := taken } := by
  set sync := system.sync.setSem sem { system.sync.sems sem with value := value } with isSync
  have same : ∀ other, (sync.sems other).waitQueue = system.queue other := by
    intro other
    by_cases isSem : other = sem
    · simp [isSync, SyncState.setSem, isSem, queue]
    · simp [isSync, SyncState.setSem, isSem, queue]
  refine ⟨invariant.sched, invariant.distinct, fun other proc member => ?queued,
    fun other proc inside absent => ?served, invariant.waiting, fun other => ?conserves⟩
  case queued =>
    have member : proc ∈ (sync.sems other).waitQueue := member
    rw [same other] at member
    have before := invariant.queued other proc member
    exact ⟨before.phase, before.owner, before.linked, before.waitQueue, before.asleep,
      before.waitState, before.away⟩
  case served =>
    have absent : proc ∉ (sync.sems other).waitQueue := absent
    rw [same other] at absent
    have before := invariant.served other proc inside absent
    exact ⟨before.unlinked, before.wakeupFlags, before.runnable⟩
  case conserves =>
    have before := invariant.conserves other
    obtain ⟨arrived, released⟩ := record_history (same other)
    have sameGranted : granted { system.record sync with ups := ups, taken := taken } other =
        system.granted other := granted_congr rfl (fun _ => Iff.rfl) (same other)
    by_cases isSem : other = sem
    · subst isSem
      have newValue : (sync.sems other).value = value := by simp [isSync, SyncState.setSem]
      refine ⟨?_, newValue ▸ nonneg, newValue ▸ fits, ?_, ?_, ?_⟩
      · show (sync.sems other).waitQueue.Nodup
        rw [same other]
        exact before.distinct
      · exact fun positive => (same other).trans (idle (newValue ▸ positive))
      · rw [sameGranted]
        show initial other + (ups other : Int) = (sync.sems other).value + taken other + _
        have conserved := before.tokens
        omega
      · have fifo := before.fifo
        rw [← arrived, ← released, ← same other] at fifo
        exact fifo
    · apply before.transport
      · exact Function.update_of_ne isSem _ _
      · exact (others other isSem).1
      · exact (others other isSem).2
      · exact sameGranted
      · exact arrived
      · exact released

/-- The state in which a waiter is taken off the queue and woken. -/
def handedOff (sync : SyncState) (sem wait : Nat) (kernel : Kernel) : SyncState where
  kernel := kernel
  sems := Function.update sync.sems sem
    { sync.sems sem with waitQueue := (sync.sems sem).waitQueue.erase wait }
  waits := Function.update sync.waits wait
    { sync.waits wait with linked := false, wakeupFlags := wtKsem }

/-- `up` with a waiter hands it the token. -/
theorem up_handoff {sem wait : Nat} {rest : List Nat} {kernel : Kernel}
    (waiters : system.queue sem = wait :: rest) (first : system.Queued sem wait)
    (woke : wakeupProc defaultSchedClass system.sync.kernel wait = .ok kernel) :
    up system.sync sem = .ok (handedOff system.sync sem wait kernel) := by
  have head : waitQueueFirst system.sync sem = some wait := by
    simp [waitQueueFirst, show (system.sync.sems sem).waitQueue = wait :: rest from waiters]
  have removed : waitQueueDel system.sync sem wait =
      .ok ((system.sync.setWait wait { system.sync.waits wait with linked := false }).setSem
        sem { system.sync.sems sem with
          waitQueue := (system.sync.sems sem).waitQueue.erase wait }) := by
    rw [waitQueueDel, if_pos ⟨first.linked, first.waitQueue⟩]
  unfold up semUp
  simp only [head]
  rw [first.owner, if_pos first.waitState, wakeupWait, if_pos rfl, removed]
  simp [handedOff, SyncState.setWait, SyncState.setSem, first.owner, woke, bind, Except.bind, pure,
    Except.pure]

/-- A token goes to the first waiter. -/
theorem handoff_step {sem wait : Nat} {rest : List Nat} (invariant : SemInvariant initial system)
    (waiters : system.queue sem = wait :: rest) :
    ∃ after, system.answer (.up sem) = .ok after ∧ SemInvariant initial after ∧
      after.released sem = system.released sem ++ [wait] ∧
      ∀ other, other ≠ sem → after.released other = system.released other := by
  have first := invariant.queued sem wait (waiters ▸ List.mem_cons_self)
  have conserved := invariant.conserves sem
  obtain ⟨fresh, restDistinct⟩ : wait ∉ rest ∧ rest.Nodup :=
    List.nodup_cons.mp (waiters ▸ conserved.distinct)
  have present := invariant.inside_allocated first.phase
  obtain ⟨kernel, woke, sched, wakes⟩ :=
    invariant.sched.wakeup_step present (by rw [first.asleep]; decide)
  set sync := handedOff system.sync sem wait kernel with isSync
  have answered : system.answer (.up sem) = .ok ((system.record sync).countUp sem) := by
    simp only [answer, up_handoff waiters first woke, bind, Except.bind, pure, Except.pure]
    rfl
  have queueSem : (sync.sems sem).waitQueue = rest := by
    have waiters : (system.sync.sems sem).waitQueue = wait :: rest := waiters
    simp [isSync, handedOff, waiters]
  have semsElsewhere : ∀ other, other ≠ sem → sync.sems other = system.sync.sems other :=
    fun other apart => Function.update_of_ne apart _ _
  have waitsElsewhere : ∀ other, other ≠ wait → sync.waits other = system.sync.waits other :=
    fun other apart => Function.update_of_ne apart _ _
  have shrinks : ∀ other proc, proc ∈ (sync.sems other).waitQueue →
      proc ∈ system.queue other ∧ proc ≠ wait := by
    intro other proc member
    by_cases isSem : other = sem
    · subst isSem
      rw [queueSem] at member
      exact ⟨waiters ▸ List.mem_cons_of_mem _ member, fun same => fresh (same ▸ member)⟩
    · rw [semsElsewhere other isSem] at member
      refine ⟨member, ?_⟩
      rintro rfl
      have phase := (invariant.queued other proc member).phase
      exact isSem (Option.some.inj (phase.symm.trans first.phase))
  have stays : ∀ other proc, proc ∈ system.queue other → proc ≠ wait →
      proc ∈ (sync.sems other).waitQueue := by
    intro other proc member apart
    by_cases isSem : other = sem
    · subst isSem
      rw [waiters] at member
      exact queueSem ▸ (List.mem_cons.mp member).resolve_left apart
    · rw [semsElsewhere other isSem]
      exact member
  have releasedSem : (system.record sync).released sem = system.released sem ++ [wait] := by
    have none : rest.filter (fun proc => decide (proc ∉ rest)) = [] := by simp
    simp only [record, queueSem, waiters]
    rw [List.filter_cons_of_pos (by simpa using fresh), none]
  have arrivedSem : (system.record sync).arrived sem = system.arrived sem := by
    simp only [record, queueSem, waiters]
    rw [List.filter_eq_nil_iff.mpr (by simp +contextual), List.append_nil]
  have queueElsewhere : ∀ other, other ≠ sem →
      (sync.sems other).waitQueue = system.queue other :=
    fun other apart => congrArg Semaphore.waitQueue (semsElsewhere other apart)
  refine ⟨_, answered, ⟨sched, invariant.distinct, fun other proc member => ?queued,
    fun other proc inside absent => ?served, fun other proc phase => ?waiting,
    fun other => ?conserves⟩, releasedSem,
    fun other apart => (record_history (queueElsewhere other apart)).2⟩
  case queued =>
    obtain ⟨member, apart⟩ := shrinks other proc member
    have before := invariant.queued other proc member
    have sameWait : sync.waits proc = system.sync.waits proc := waitsElsewhere proc apart
    refine ⟨before.phase, ?_, ?_, ?_, ?_, ?_, fun phase => ?_⟩
    · exact (congrArg Wait.proc sameWait).trans before.owner
    · exact (congrArg Wait.linked sameWait).trans before.linked
    · exact (congrArg Wait.waitQueue sameWait).trans before.waitQueue
    · exact (wakes.others proc apart).1.trans before.asleep
    · exact (wakes.others proc apart).2.trans before.waitState
    · exact fun same => before.away phase (same.trans wakes.current)
  case served =>
    by_cases same : proc = wait
    · subst same
      refine ⟨?_, ?_, wakes.runnable⟩
      · simp [countUp, record, isSync, handedOff]
      · simp [countUp, record, isSync, handedOff]
    · have before := invariant.served other proc inside fun member =>
        absent (stays other proc member same)
      have sameWait : sync.waits proc = system.sync.waits proc := waitsElsewhere proc same
      refine ⟨?_, ?_, ?_⟩
      · exact (congrArg Wait.linked sameWait).trans before.unlinked
      · exact (congrArg Wait.wakeupFlags sameWait).trans before.wakeupFlags
      · exact (wakes.others proc same).1.trans before.runnable
  case waiting =>
    exact (invariant.waiting other proc phase).trans wakes.current.symm
  case conserves =>
    by_cases isSem : other = sem
    · subst isSem
      have sameValue : (sync.sems other).value = (system.sync.sems other).value := by
        simp [isSync, handedOff]
      have nonpositive : ¬ 0 < (system.sync.sems other).value := by
        intro positive
        have empty := conserved.idle positive
        rw [waiters] at empty
        cases empty
      have oneMore : granted ((system.record sync).countUp other) other =
          system.granted other + 1 := by
        apply countP_switch_on invariant.distinct present
        · simp [waiters]
        · have absent : wait ∉ (sync.sems other).waitQueue := queueSem ▸ fresh
          simp [countUp, record, queue, first.phase, absent]
        · intro proc apart
          have sameMember : proc ∈ (sync.sems other).waitQueue ↔ proc ∈ system.queue other :=
            ⟨fun member => (shrinks other proc member).1, fun member => stays other proc member apart⟩
          exact decide_eq_decide.mpr (and_congr_right' (not_congr sameMember))
      refine ⟨?_, sameValue ▸ conserved.nonneg, sameValue ▸ conserved.fits, ?_, ?_, ?_⟩
      · show (sync.sems other).waitQueue.Nodup
        rw [queueSem]
        exact restDistinct
      · exact fun positive => absurd (sameValue ▸ positive) nonpositive
      · have tokens := conserved.tokens
        rw [oneMore]
        show initial other + (Function.update system.ups other (system.ups other + 1) other : Int) =
          (sync.sems other).value + system.taken other + _
        rw [Function.update_self, sameValue]
        push_cast
        omega
      · show (system.record sync).arrived other =
          (system.record sync).released other ++ (sync.sems other).waitQueue
        rw [arrivedSem, releasedSem, queueSem, conserved.fifo, waiters, List.append_assoc,
          List.singleton_append]
    · apply (invariant.conserves other).transport
      · exact semsElsewhere other isSem
      · exact Function.update_of_ne isSem _ _
      · rfl
      · apply granted_congr
        · rfl
        · exact fun _ => Iff.rfl
        · exact queueElsewhere other isSem
      · exact (record_history (queueElsewhere other isSem)).1
      · exact (record_history (queueElsewhere other isSem)).2

/-- The state in which the current process is on the queue and asleep. -/
def entered (sync : SyncState) (sem : Nat) : SyncState where
  kernel := sleepCurrent sync.kernel wtKsem
  sems := Function.update sync.sems sem
    { sync.sems sem with waitQueue := (sync.sems sem).waitQueue ++ [sync.kernel.current] }
  waits := Function.update sync.waits sync.kernel.current
    ⟨sync.kernel.current, wtInterrupted, some sem, true⟩

theorem downEnter_waits {sync : SyncState} {sem : Nat} (empty : ¬ (sync.sems sem).value > 0) :
    downEnter sync sem = .ok (false, entered sync sem) := by
  rw [downEnter, semDownEnter, if_neg empty]
  simp [waitCurrentSet, waitInit, waitQueueAdd, SyncState.setWait, SyncState.setSem, entered, bind,
    Except.bind, pure, Except.pure]

/-- Without a token, the current process queues itself last. -/
theorem enter_step {sem : Nat} (invariant : SemInvariant initial system)
    (ready : Ready system.sync.kernel.procs system.current)
    (outside : system.phase system.current = .outside)
    (empty : ¬ (system.sync.sems sem).value > 0) :
    ∃ after, system.answer (.downEnter sem) = .ok after ∧ SemInvariant initial after ∧
      ∀ other, after.released other = system.released other := by
  set sync := entered system.sync sem with isSync
  have conserved := invariant.conserves sem
  have notQueued : ∀ other, system.current ∉ system.queue other := by
    intro other member
    have phase := (invariant.queued other system.current member).phase
    rw [outside] at phase
    cases phase
  have answered : system.answer (.downEnter sem) =
      .ok ((system.record sync).setPhase system.current (.waiting sem)) := by
    simp only [answer, downEnter_waits empty, bind, Except.bind, pure, Except.pure]
    rfl
  have queueSem : (sync.sems sem).waitQueue = system.queue sem ++ [system.current] := by
    simp [isSync, entered, queue, current]
  have semsElsewhere : ∀ other, other ≠ sem → sync.sems other = system.sync.sems other :=
    fun other apart => Function.update_of_ne apart _ _
  have queueElsewhere : ∀ other, other ≠ sem →
      (sync.sems other).waitQueue = system.queue other :=
    fun other apart => congrArg Semaphore.waitQueue (semsElsewhere other apart)
  have waitsElsewhere : ∀ other, other ≠ system.current →
      sync.waits other = system.sync.waits other :=
    fun other apart => Function.update_of_ne apart _ _
  have procsElsewhere : ∀ other, other ≠ system.current →
      sync.kernel.procs other = system.sync.kernel.procs other :=
    fun other apart => Function.update_of_ne apart _ _
  have phaseElsewhere : ∀ other, other ≠ system.current →
      ((system.record sync).setPhase system.current (.waiting sem)).phase other =
        system.phase other :=
    fun other apart => Function.update_of_ne apart _ _
  have phaseCurrent : ((system.record sync).setPhase system.current (.waiting sem)).phase
      system.current = .waiting sem := Function.update_self _ _ _
  have grows : ∀ other proc, proc ∈ (sync.sems other).waitQueue ↔
      proc ∈ system.queue other ∨ (other = sem ∧ proc = system.current) := by
    intro other proc
    by_cases isSem : other = sem
    · subst isSem
      simp [queueSem]
    · simp [queueElsewhere other isSem, isSem]
  have arrivedSem : (system.record sync).arrived sem = system.arrived sem ++ [system.current] := by
    have none : (system.queue sem).filter (fun proc => decide (proc ∉ system.queue sem)) = [] := by
      simp
    simp only [record, queueSem]
    rw [List.filter_append, none, List.nil_append,
      List.filter_cons_of_pos (by simpa using notQueued sem), List.filter_nil]
  have releasedSem : (system.record sync).released sem = system.released sem := by
    simp only [record, queueSem]
    rw [List.filter_eq_nil_iff.mpr (by simp +contextual), List.append_nil]
  have released : ∀ other, (system.record sync).released other = system.released other := by
    intro other
    by_cases isSem : other = sem
    · rw [isSem, releasedSem]
    · exact (record_history (queueElsewhere other isSem)).2
  have sched : SchedInvariant sync.kernel system.allocated :=
    invariant.sched.changeCurrent fun idle => absurd idle ready.2
  refine ⟨_, answered, ⟨sched, invariant.distinct, fun other proc member => ?queued,
    fun other proc inside absent => ?served, fun other proc phase => ?waiting,
    fun other => ?conserves⟩, released⟩
  case queued =>
    by_cases isCurrent : proc = system.current
    · subst isCurrent
      obtain ⟨rfl, _⟩ := ((grows other system.current).mp member).resolve_left (notQueued other)
      have newWait : sync.waits system.current =
          ⟨system.current, wtInterrupted, some other, true⟩ := Function.update_self _ _ _
      have newProc : sync.kernel.procs system.current =
          { system.sync.kernel.procs system.current with
            state := .sleeping, waitState := wtKsem } := Function.update_self _ _ _
      refine ⟨?_, congrArg Wait.proc newWait, congrArg Wait.linked newWait,
        congrArg Wait.waitQueue newWait, congrArg Proc.state newProc,
        congrArg Proc.waitState newProc, fun phase => ?_⟩
      · rw [phaseCurrent]
        rfl
      · rw [phaseCurrent] at phase
        cases phase
    · have before := invariant.queued other proc
        (((grows other proc).mp member).resolve_right fun new => isCurrent new.2)
      have sameWait := waitsElsewhere proc isCurrent
      have sameProc := procsElsewhere proc isCurrent
      refine ⟨?_, (congrArg Wait.proc sameWait).trans before.owner,
        (congrArg Wait.linked sameWait).trans before.linked,
        (congrArg Wait.waitQueue sameWait).trans before.waitQueue,
        (congrArg Proc.state sameProc).trans before.asleep,
        (congrArg Proc.waitState sameProc).trans before.waitState, fun _ => isCurrent⟩
      rw [phaseElsewhere proc isCurrent]
      exact before.phase
  case served =>
    by_cases isCurrent : proc = system.current
    · subst isCurrent
      rw [phaseCurrent] at inside
      cases inside
      exact absurd ((grows sem system.current).mpr (Or.inr ⟨rfl, rfl⟩)) absent
    · rw [phaseElsewhere proc isCurrent] at inside
      have before := invariant.served other proc inside fun member =>
        absent ((grows other proc).mpr (Or.inl member))
      have sameWait := waitsElsewhere proc isCurrent
      exact ⟨(congrArg Wait.linked sameWait).trans before.unlinked,
        (congrArg Wait.wakeupFlags sameWait).trans before.wakeupFlags,
        (congrArg Proc.state (procsElsewhere proc isCurrent)).trans before.runnable⟩
  case waiting =>
    by_cases isCurrent : proc = system.current
    · exact isCurrent
    · rw [phaseElsewhere proc isCurrent] at phase
      exact invariant.waiting other proc phase
  case conserves =>
    have sameGranted : granted ((system.record sync).setPhase system.current (.waiting sem)) other =
        system.granted other := by
      apply List.countP_congr
      intro proc _
      simp only [decide_eq_true_eq]
      by_cases isCurrent : proc = system.current
      · subst isCurrent
        rw [phaseCurrent, outside]
        refine iff_of_false ?_ fun inside => nomatch inside.1
        rintro ⟨phase, absent⟩
        cases phase
        exact absent ((grows sem system.current).mpr (Or.inr ⟨rfl, rfl⟩))
      · rw [phaseElsewhere proc isCurrent]
        apply and_congr_right'
        exact not_congr ((grows other proc).trans (or_iff_left fun new => isCurrent new.2))
    by_cases isSem : other = sem
    · subst isSem
      have sameValue : (sync.sems other).value = (system.sync.sems other).value := by
        simp [isSync, entered]
      refine ⟨?_, sameValue ▸ conserved.nonneg, sameValue ▸ conserved.fits, ?_, ?_, ?_⟩
      · show (sync.sems other).waitQueue.Nodup
        rw [queueSem]
        exact conserved.distinct.append (List.pairwise_singleton _ _)
          (List.disjoint_singleton.mpr (notQueued other))
      · exact fun positive => absurd (sameValue ▸ positive) empty
      · rw [sameGranted]
        show initial other + (system.ups other : Int) =
          (sync.sems other).value + system.taken other + _
        rw [sameValue]
        exact conserved.tokens
      · show (system.record sync).arrived other =
          (system.record sync).released other ++ (sync.sems other).waitQueue
        rw [arrivedSem, releasedSem, queueSem, conserved.fifo, List.append_assoc]
    · apply (invariant.conserves other).transport
      · exact semsElsewhere other isSem
      · rfl
      · rfl
      · exact sameGranted
      · exact (record_history (queueElsewhere other isSem)).1
      · exact released other

/-- A process that comes back from `schedule` was released, and takes the token it was handed. -/
theorem leave_step {sem : Nat} (invariant : SemInvariant initial system)
    (inside : system.phase system.current = .scheduled sem) :
    ∃ after, system.answer (.downLeave sem) = .ok after ∧ SemInvariant initial after ∧
      ∀ other, after.released other = system.released other := by
  have onSem : (system.phase system.current).sem = some sem := by
    rw [inside]
    rfl
  have absent : system.current ∉ system.queue sem := fun member =>
    (invariant.queued sem system.current member).away inside rfl
  have served := invariant.served sem system.current onSem absent
  have unlinked : (system.sync.waits system.sync.kernel.current).linked = false := served.unlinked
  have flags : (system.sync.waits system.sync.kernel.current).wakeupFlags = wtKsem :=
    served.wakeupFlags
  have left : downLeave system.sync sem = .ok system.sync := by
    simp [downLeave, semDownLeave, waitCurrentDel, waitInQueue, unlinked, flags, bind, Except.bind,
      pure, Except.pure]
  have answered : system.answer (.downLeave sem) =
      .ok (((system.record system.sync).setPhase system.current .outside).countTaken sem) := by
    simp only [answer, left, bind, Except.bind, pure, Except.pure]
  have history : ∀ other, (system.record system.sync).arrived other = system.arrived other ∧
      (system.record system.sync).released other = system.released other :=
    fun other => record_history rfl
  have phaseElsewhere : ∀ other, other ≠ system.current →
      (((system.record system.sync).setPhase system.current .outside).countTaken sem).phase other =
        system.phase other :=
    fun other apart => Function.update_of_ne apart _ _
  have phaseCurrent :
      (((system.record system.sync).setPhase system.current .outside).countTaken sem).phase
        system.current = .outside := Function.update_self _ _ _
  refine ⟨_, answered, ⟨invariant.sched, invariant.distinct, fun other proc member => ?queued,
    fun other proc inside' absent' => ?served, fun other proc phase => ?waiting,
    fun other => ?conserves⟩, fun other => (history other).2⟩
  case queued =>
    have before := invariant.queued other proc member
    have apart : proc ≠ system.current := by
      rintro rfl
      have sameSem : sem = other := Option.some.inj (onSem.symm.trans before.phase)
      exact absent (sameSem ▸ member)
    refine ⟨?_, before.owner, before.linked, before.waitQueue, before.asleep, before.waitState,
      fun _ => apart⟩
    rw [phaseElsewhere proc apart]
    exact before.phase
  case served =>
    by_cases isCurrent : proc = system.current
    · subst isCurrent
      rw [phaseCurrent] at inside'
      cases inside'
    · rw [phaseElsewhere proc isCurrent] at inside'
      have before := invariant.served other proc inside' absent'
      exact ⟨before.unlinked, before.wakeupFlags, before.runnable⟩
  case waiting =>
    by_cases isCurrent : proc = system.current
    · exact isCurrent
    · rw [phaseElsewhere proc isCurrent] at phase
      exact invariant.waiting other proc phase
  case conserves =>
    by_cases isSem : other = sem
    · subst isSem
      have conserved := invariant.conserves other
      have oneLess : system.granted other =
          granted (((system.record system.sync).setPhase system.current .outside).countTaken other)
            other + 1 := by
        apply countP_switch_on invariant.distinct (invariant.inside_allocated onSem)
        · rw [phaseCurrent]
          rfl
        · simp [onSem, absent]
        · intro proc apart
          rw [phaseElsewhere proc apart]
          rfl
      refine ⟨conserved.distinct, conserved.nonneg, conserved.fits, conserved.idle, ?_, ?_⟩
      · have tokens := conserved.tokens
        show initial other + (system.ups other : Int) = (system.sync.sems other).value +
          (Function.update system.taken other (system.taken other + 1) other : Int) + _
        rw [Function.update_self]
        push_cast
        omega
      · exact (history other).1.trans (conserved.fifo.trans
          (congrArg (· ++ system.queue other) (history other).2.symm))
    · apply (invariant.conserves other).transport
      · rfl
      · rfl
      · exact Function.update_of_ne isSem _ _
      · apply List.countP_congr
        intro proc _
        simp only [decide_eq_true_eq]
        by_cases isCurrent : proc = system.current
        · subst isCurrent
          rw [phaseCurrent, onSem]
          refine iff_of_false (fun new => nomatch new.1) fun old => ?_
          exact isSem (Option.some.inj old.1).symm
        · rw [phaseElsewhere proc isCurrent]
          exact Iff.rfl
      · exact (history other).1
      · exact (history other).2

end SemInvariant

/-! ## Runs -/

/-- No `up` counts past the largest `int`. -/
def NoOverflow (system : SemSystem) : SemEvent → Prop
  | .up sem => system.queue sem = [] → (system.sync.sems sem).value < 2 ^ 31 - 1
  | _ => True

instance : DecidableRel NoOverflow := fun system event =>
  match event with
  | .up sem => inferInstanceAs (Decidable (system.queue sem = [] → _))
  | .tryDown _ => inferInstanceAs (Decidable True)
  | .downEnter _ => inferInstanceAs (Decidable True)
  | .downLeave _ => inferInstanceAs (Decidable True)
  | .schedule => inferInstanceAs (Decidable True)
  | .wakeupProc _ => inferInstanceAs (Decidable True)
  | .sleep _ => inferInstanceAs (Decidable True)
  | .exit => inferInstanceAs (Decidable True)
  | .allocProc _ => inferInstanceAs (Decidable True)
  | .procTick => inferInstanceAs (Decidable True)

/-- From `before` to `after`, an `up` releases the first waiter of its semaphore if there is one,
and nothing else releases any. -/
def ReleasesFirst (before : SemSystem) (event : SemEvent) (after : SemSystem) : Prop :=
  ∀ sem, after.released sem = before.released sem ∨
    (event = .up sem ∧ ∃ wait rest, before.queue sem = wait :: rest ∧
      after.released sem = before.released sem ++ [wait])

namespace SemInvariant

/-- `up` without a waiter counts up. -/
theorem count_step {sem : Nat} (invariant : SemInvariant initial system)
    (noWaiter : system.queue sem = []) (small : (system.sync.sems sem).value < 2 ^ 31 - 1) :
    ∃ after, system.answer (.up sem) = .ok after ∧ SemInvariant initial after ∧
      ∀ other, after.released other = system.released other := by
  have nonneg := (invariant.conserves sem).nonneg
  have counted : up system.sync sem = .ok (system.sync.setSem sem
      { system.sync.sems sem with value := (system.sync.sems sem).value + 1 }) := by
    have noFirst : waitQueueFirst system.sync sem = none := by
      simp [waitQueueFirst, show (system.sync.sems sem).waitQueue = [] from noWaiter]
    simp only [up, semUp, noFirst]
    rw [wrap32_of_range (by omega) (by omega)]
  have answered : system.answer (.up sem) = .ok ((system.record (system.sync.setSem sem
      { system.sync.sems sem with value := (system.sync.sems sem).value + 1 })).countUp sem) := by
    simp only [answer, counted, bind, Except.bind, pure, Except.pure]
  refine ⟨_, answered, ?_, ?_⟩
  · apply invariant.valueStep
    · omega
    · omega
    · exact fun _ => noWaiter
    · simp only [record, Function.update_self]
      omega
    · intro other apart
      simp [record, apart]
  · intro other
    apply And.right
    apply record_history
    by_cases isSem : other = sem <;> simp [SyncState.setSem, queue, isSem]

/-- Taking a token that is there counts down. -/
theorem take_step {sem : Nat} (invariant : SemInvariant initial system)
    (available : (system.sync.sems sem).value > 0) :
    SemInvariant initial ((system.record (system.sync.setSem sem
      { system.sync.sems sem with value := (system.sync.sems sem).value - 1 })).countTaken sem) ∧
      ∀ other, ((system.record (system.sync.setSem sem
        { system.sync.sems sem with value := (system.sync.sems sem).value - 1 })).countTaken
          sem).released other = system.released other := by
  have conserved := invariant.conserves sem
  have fits := conserved.fits
  constructor
  · apply invariant.valueStep
    · omega
    · omega
    · exact fun _ => conserved.idle available
    · simp only [record, Function.update_self]
      omega
    · intro other apart
      simp [record, apart]
  · intro other
    apply And.right
    apply record_history
    by_cases isSem : other = sem <;> simp [SyncState.setSem, queue, isSem]

/-- Every admitted event is answered, so no assertion fails. -/
theorem step {event : SemEvent} (invariant : SemInvariant initial system)
    (admitted : system.Admits event) (noOverflow : NoOverflow system event) :
    ∃ after, system.answer event = .ok after ∧ SemInvariant initial after ∧
      ReleasesFirst system event after := by
  cases event with
  | up sem =>
      cases waiters : system.queue sem with
      | nil =>
          obtain ⟨after, answered, holds, released⟩ :=
            invariant.count_step waiters (noOverflow waiters)
          exact ⟨after, answered, holds, fun other => Or.inl (released other)⟩
      | cons wait rest =>
          obtain ⟨after, answered, holds, released, others⟩ := invariant.handoff_step waiters
          refine ⟨after, answered, holds, fun other => ?_⟩
          by_cases isSem : other = sem
          · subst isSem
            exact Or.inr ⟨rfl, wait, rest, waiters, released⟩
          · exact Or.inl (others other isSem)
  | tryDown sem =>
      by_cases available : (system.sync.sems sem).value > 0
      · obtain ⟨holds, released⟩ := invariant.take_step available
        refine ⟨_, ?_, holds, fun other => Or.inl (released other)⟩
        simp only [answer, tryDown, if_pos available]
      · have unchanged := @record_history system system.sync
        refine ⟨system.record system.sync, ?_, ?_, fun other => Or.inl (unchanged rfl).2⟩
        · simp only [answer, tryDown, if_neg available]
        · exact invariant.kernelStep invariant.sched invariant.distinct (fun _ _ => rfl)
            (fun _ => rfl) (fun sem proc member =>
              ⟨(invariant.queued sem proc member).asleep, (invariant.queued sem proc member).waitState,
                (invariant.queued sem proc member).away⟩)
            (fun _ _ _ runnable => runnable) invariant.waiting
  | downEnter sem =>
      by_cases available : (system.sync.sems sem).value > 0
      · obtain ⟨holds, released⟩ := invariant.take_step available
        refine ⟨_, ?_, holds, fun other => Or.inl (released other)⟩
        simp only [answer, downEnter, semDownEnter, if_pos available, bind, Except.bind, pure,
          Except.pure]
      · obtain ⟨after, answered, holds, released⟩ :=
          invariant.enter_step admitted.1 admitted.2 available
        exact ⟨after, answered, holds, fun other => Or.inl (released other)⟩
  | downLeave sem =>
      obtain ⟨after, answered, holds, released⟩ := invariant.leave_step admitted
      exact ⟨after, answered, holds, fun other => Or.inl (released other)⟩
  | schedule =>
      obtain ⟨after, answered, holds, released⟩ := invariant.schedule_step
      exact ⟨after, answered, holds, fun other => Or.inl (released other)⟩
  | wakeupProc proc =>
      obtain ⟨after, answered, holds, released⟩ := invariant.wakeupProc_step admitted
      exact ⟨after, answered, holds, fun other => Or.inl (released other)⟩
  | sleep waitState =>
      exact ⟨_, rfl, invariant.currentStep admitted.2 fun idle => absurd idle admitted.1.2,
        fun other => Or.inl (recordKernel_released _ other)⟩
  | exit =>
      exact ⟨_, rfl, invariant.currentStep admitted.2 fun idle => absurd idle admitted.1.2,
        fun other => Or.inl (recordKernel_released _ other)⟩
  | allocProc proc =>
      exact ⟨_, rfl, invariant.allocProc_step admitted,
        fun other => Or.inl (recordKernel_released _ other)⟩
  | procTick =>
      exact ⟨_, rfl, invariant.procTick_step, fun other => Or.inl (recordKernel_released _ other)⟩

theorem run {events : List SemEvent} {last : SemSystem} (invariant : SemInvariant initial system)
    (run : Run (semMachine.StepMeeting NoOverflow) system events last) :
    SemInvariant initial last := by
  apply run.invariant (SemInvariant initial) _ invariant
  rintro before event after holds ⟨⟨admitted, answered⟩, noOverflow⟩
  obtain ⟨after', answered', holds', _⟩ := holds.step admitted noOverflow
  cases answered.symm.trans answered'
  exact holds'

end SemInvariant

/-- What a semaphore guarantees in one state of a run. -/
structure Guarantees (initial : Nat → Int) (system : SemSystem) (sem : Nat) : Prop where
  nonneg : 0 ≤ (system.sync.sems sem).value
  idle : 0 < (system.sync.sems sem).value → system.queue sem = []
  tokens : initial sem + system.ups sem =
    (system.sync.sems sem).value + system.taken sem + system.granted sem
  /-- waiters leave the queue in the order in which they entered it -/
  fifo : system.arrived sem = system.released sem ++ system.queue sem
  /-- every wait of a process was released once, except the one it is still queued for -/
  once : ∀ proc, (system.arrived sem).count proc =
    (system.released sem).count proc + if proc ∈ system.queue sem then 1 else 0
  /-- a process returns from `down` only when it was released -/
  returns : system.phase system.current = .scheduled sem → system.current ∉ system.queue sem

theorem SemInvariant.guarantees (invariant : SemInvariant initial system) (sem : Nat) :
    Guarantees initial system sem where
  nonneg := (invariant.conserves sem).nonneg
  idle := (invariant.conserves sem).idle
  tokens := (invariant.conserves sem).tokens
  fifo := (invariant.conserves sem).fifo
  once proc := by
    rw [(invariant.conserves sem).fifo, List.count_append,
      (invariant.conserves sem).distinct.count]
  returns phase member := (invariant.queued sem _ member).away phase rfl

/-- In every run in which no `up` counts past the largest `int`, from any initial values, every
semaphore keeps its guarantees, and every event that may come next is answered without a failing
assertion, releasing at most the first waiter. -/
theorem semaphore_correct {initial : Nat → Int} {events : List SemEvent} {system : SemSystem}
    (range : ∀ sem, 0 ≤ initial sem ∧ initial sem < 2 ^ 31)
    (run : Run (semMachine.StepMeeting NoOverflow) (bootSemSystem initial) events system) :
    (∀ sem, Guarantees initial system sem) ∧
      ∀ event, system.Admits event → NoOverflow system event →
        ∃ after, system.answer event = .ok after ∧ ReleasesFirst system event after := by
  have invariant := (bootSemSystem_invariant range).run run
  refine ⟨invariant.guarantees, fun event admitted noOverflow => ?_⟩
  obtain ⟨after, answered, _, released⟩ := invariant.step admitted noOverflow
  exact ⟨after, answered, released⟩

/-- One process waits for a semaphore, another one ups it, and the first one goes on. -/
def handoffEvents : List SemEvent :=
  [.allocProc 1, .wakeupProc 1, .allocProc 2, .wakeupProc 2, .schedule, .downEnter 0, .schedule,
    .up 0, .tryDown 0, .schedule, .downLeave 0, .up 0]

theorem semaphore_correct_handoff :
    ∃ system, follow (semMachine.next NoOverflow) (bootSemSystem fun _ => 0) handoffEvents =
      some system ∧ (∀ sem, Guarantees (fun _ => 0) system sem) ∧
      ∀ event, system.Admits event → NoOverflow system event →
        ∃ after, system.answer event = .ok after ∧ ReleasesFirst system event after := by
  have done : (follow (semMachine.next NoOverflow) (bootSemSystem fun _ => 0)
      handoffEvents).isSome = true := by decide
  obtain ⟨system, finished⟩ := Option.isSome_iff_exists.mp done
  exact ⟨system, finished,
    semaphore_correct (fun _ => by decide) (Machine.follow_next_run finished)⟩

/-- A semaphore at the largest `int` is upped once more. -/
theorem semaphore_value_wraps :
    ¬ ∀ initial events system, (∀ sem, 0 ≤ initial sem ∧ initial sem < 2 ^ 31) →
      Run semMachine.Step (bootSemSystem initial) events system →
      ∀ sem, 0 ≤ (system.sync.sems sem).value := by
  intro staysNonneg
  have answered : ∃ system, semMachine.answer (bootSemSystem fun _ => 2 ^ 31 - 1) (.up 0) =
      .ok system ∧ (system.sync.sems 0).value = -2 ^ 31 := ⟨_, rfl, by decide⟩
  obtain ⟨system, answered, wrapped⟩ := answered
  have nonneg := staysNonneg (fun _ => 2 ^ 31 - 1) [.up 0] system (fun _ => by decide)
    (Run.single ⟨trivial, answered⟩) 0
  omega

end UCore.Sync
