import Mathlib.Data.List.Nodup
import UCore.Schedule.Sched

/-!
Contract: the round-robin scheduling class, `kern/schedule/default_sched.c`.

Owns:
- the operations of the class;
- the invariant that ties its run list to the states of the processes, and what
  `wakeup_proc` and `schedule` do under it.

Does not own: why a process sleeps.
-/

set_option autoImplicit false

namespace UCore.Schedule

def rrEnqueue (kernel : Kernel) (proc : Nat) : Except Stop Kernel :=
  if proc ∈ kernel.rq.runList then .error .assertFailed
  else
    let queued := kernel.updateProc proc (refillTimeSlice kernel.rq.maxTimeSlice)
    .ok { queued with
      rq := { queued.rq with
        runList := queued.rq.runList ++ [proc]
        procNum := queued.rq.procNum + 1 } }

def rrDequeue (kernel : Kernel) (proc : Nat) : Except Stop Kernel :=
  if proc ∈ kernel.rq.runList ∧ (kernel.procs proc).onRq = true then
    .ok { kernel with
      rq := { kernel.rq with
        runList := kernel.rq.runList.erase proc
        procNum := kernel.rq.procNum - 1 } }
  else .error .assertFailed

def rrPickNext (kernel : Kernel) : Option Nat × Kernel := (kernel.rq.runList.head?, kernel)

def rrProcTick (kernel : Kernel) (proc : Nat) : Kernel :=
  kernel.updateProc proc consumeTimeSlice

def defaultSchedClass : SchedClass where
  enqueue := rrEnqueue
  dequeue := rrDequeue
  pickNext := rrPickNext
  procTick := rrProcTick

/-! ## The run list -/

/-- The run list holds exactly `members`. -/
structure Listed (kernel : Kernel) (members : Nat → Prop) : Prop where
  nodup : kernel.rq.runList.Nodup
  mem_iff : ∀ proc, proc ∈ kernel.rq.runList ↔ members proc
  onRq : ∀ proc, members proc → (kernel.procs proc).onRq = true

/-- No process changes its state or what it waits for. -/
def KeepsStates (before after : Kernel) : Prop :=
  ∀ proc, (after.procs proc).state = (before.procs proc).state ∧
    (after.procs proc).waitState = (before.procs proc).waitState

theorem KeepsStates.trans {before middle after : Kernel} (first : KeepsStates before middle)
    (second : KeepsStates middle after) : KeepsStates before after :=
  fun proc => ⟨(second proc).1.trans (first proc).1, (second proc).2.trans (first proc).2⟩

theorem KeepsStates.ready_iff {before after : Kernel} (keeps : KeepsStates before after)
    (proc : Nat) : Ready after.procs proc ↔ Ready before.procs proc := by
  unfold Ready
  rw [(keeps proc).1]

theorem keepsStates_update {kernel after : Kernel} {proc : Nat} {changed : Proc}
    (updated : after.procs = Function.update kernel.procs proc changed)
    (state : changed.state = (kernel.procs proc).state)
    (waitState : changed.waitState = (kernel.procs proc).waitState) : KeepsStates kernel after := by
  intro other
  rw [updated]
  by_cases same : other = proc <;> simp [same, state, waitState]

namespace Listed

variable {kernel : Kernel} {members : Nat → Prop}

theorem frame {kernel' : Kernel} (listed : Listed kernel members)
    (runList : kernel'.rq.runList = kernel.rq.runList)
    (onRq : ∀ proc, members proc → (kernel'.procs proc).onRq = (kernel.procs proc).onRq) :
    Listed kernel' members where
  nodup := runList ▸ listed.nodup
  mem_iff proc := runList ▸ listed.mem_iff proc
  onRq proc member := (onRq proc member).trans (listed.onRq proc member)

theorem congr {members' : Nat → Prop} (listed : Listed kernel members)
    (same : ∀ proc, members proc ↔ members' proc) : Listed kernel members' where
  nodup := listed.nodup
  mem_iff proc := (listed.mem_iff proc).trans (same proc)
  onRq proc member := listed.onRq proc ((same proc).mpr member)

theorem enqueue {proc : Nat} (listed : Listed kernel members) (absent : ¬ members proc) :
    ∃ queued, rrEnqueue kernel proc = .ok queued ∧
      Listed queued (fun other => members other ∨ other = proc) ∧
      KeepsStates kernel queued ∧ queued.current = kernel.current := by
  have unlisted : proc ∉ kernel.rq.runList := fun member => absent ((listed.mem_iff proc).mp member)
  rw [rrEnqueue, if_neg unlisted]
  refine ⟨_, rfl, ⟨?nodup, fun other => ?mem_iff, fun other member => ?onRq⟩, ?keeps, rfl⟩
  case nodup =>
    have apart : kernel.rq.runList.Disjoint [proc] :=
      List.disjoint_singleton.mpr unlisted
    exact listed.nodup.append (List.pairwise_singleton _ proc) apart
  case mem_iff =>
    rw [List.mem_append, List.mem_singleton]
    exact or_congr_left (listed.mem_iff other)
  case onRq =>
    by_cases same : other = proc
    · simp [Kernel.updateProc, refillTimeSlice, same]
    · simpa [Kernel.updateProc, same] using listed.onRq other (member.resolve_right same)
  case keeps =>
    apply keepsStates_update <;> rfl

theorem dequeue_head {next : Nat} {rest : List Nat} (listed : Listed kernel members)
    (head : kernel.rq.runList = next :: rest) :
    ∃ dequeued, rrDequeue kernel next = .ok dequeued ∧ members next ∧
      Listed dequeued (fun other => members other ∧ other ≠ next) ∧
      KeepsStates kernel dequeued := by
  have present : next ∈ kernel.rq.runList := head ▸ List.mem_cons_self
  have member := (listed.mem_iff next).mp present
  rw [rrDequeue, if_pos ⟨present, listed.onRq next member⟩]
  refine ⟨_, rfl, member, ⟨?nodup, fun other => ?mem_iff, fun other inside => ?onRq⟩,
    fun _ => ⟨rfl, rfl⟩⟩
  case nodup =>
    exact listed.nodup.erase next
  case mem_iff =>
    rw [listed.nodup.mem_erase_iff, listed.mem_iff other]
    exact and_comm
  case onRq =>
    exact listed.onRq other inside.1

end Listed

/-! ## The invariant of the scheduler -/

/-- The ready processes other than the current one are on the run list. -/
structure SchedInvariant (kernel : Kernel) (allocated : List Nat) : Prop where
  unused : ∀ proc, proc ∉ allocated → (kernel.procs proc).state = .uninit
  idleAllocated : idleproc ∈ allocated
  idleRunnable : (kernel.procs idleproc).state = .runnable
  currentAllocated : kernel.current ∈ allocated
  listed : Listed kernel fun proc => Ready kernel.procs proc ∧ proc ≠ kernel.current

theorem bootKernel_invariant : SchedInvariant bootKernel [idleproc] where
  unused proc absent := by
    have notIdle : proc ≠ idleproc := fun same => absent (by simp [same])
    simp [bootKernel, notIdle, allocatedProc]
  idleAllocated := List.mem_cons_self
  idleRunnable := by simp [bootKernel]
  currentAllocated := List.mem_cons_self
  listed := by
    have noneReady : ∀ proc, ¬ Ready bootKernel.procs proc := by
      rintro proc ⟨runnable, notIdle⟩
      simp [bootKernel, notIdle, allocatedProc] at runnable
    refine ⟨List.nodup_nil, fun proc => ?_, fun proc member => absurd member.1 (noneReady proc)⟩
    exact iff_of_false List.not_mem_nil fun member => noneReady proc member.1

namespace SchedInvariant

variable {kernel : Kernel} {allocated : List Nat}

theorem ready_allocated (invariant : SchedInvariant kernel allocated) {proc : Nat}
    (ready : Ready kernel.procs proc) : proc ∈ allocated := by
  by_contra absent
  cases ready.1.symm.trans (invariant.unused proc absent)

/-- Changing a process that is off the run list and stays off it. -/
theorem change {proc : Nat} {changed : Proc} {allocated' : List Nat}
    (invariant : SchedInvariant kernel allocated)
    (outside : ¬ (Ready kernel.procs proc ∧ proc ≠ kernel.current))
    (stays : changed.state = .runnable → proc ≠ idleproc → proc = kernel.current)
    (idle : proc = idleproc → changed.state = .runnable)
    (grows : allocated ⊆ allocated') (present : proc ∈ allocated') :
    SchedInvariant { kernel with procs := Function.update kernel.procs proc changed } allocated' := by
  have sameMembers : ∀ other, (Ready kernel.procs other ∧ other ≠ kernel.current) ↔
      (Ready (Function.update kernel.procs proc changed) other ∧ other ≠ kernel.current) := by
    intro other
    by_cases same : other = proc
    · subst same
      refine iff_of_false outside ?_
      rintro ⟨⟨runnable, notIdle⟩, notCurrent⟩
      rw [Function.update_self] at runnable
      exact notCurrent (stays runnable notIdle)
    · simp [Ready, same]
  refine ⟨fun other absent => ?unused, grows invariant.idleAllocated, ?idleRunnable,
    grows invariant.currentAllocated, ?listed⟩
  case unused =>
    have apart : other ≠ proc := fun same => absent (same ▸ present)
    simpa [apart] using invariant.unused other fun member => absent (grows member)
  case idleRunnable =>
    by_cases same : idleproc = proc
    · simpa [same] using idle same.symm
    · simpa [same] using invariant.idleRunnable
  case listed =>
    have framed : Listed { kernel with procs := Function.update kernel.procs proc changed }
        (fun other => Ready kernel.procs other ∧ other ≠ kernel.current) :=
      invariant.listed.frame rfl fun other member =>
        congrArg Proc.onRq (Function.update_of_ne
          (fun same : other = proc => outside (same ▸ member)) _ _)
    exact framed.congr sameMembers

/-- Changing the current process. -/
theorem changeCurrent {changed : Proc} (invariant : SchedInvariant kernel allocated)
    (idle : kernel.current = idleproc → changed.state = .runnable) :
    SchedInvariant { kernel with procs := Function.update kernel.procs kernel.current changed }
      allocated :=
  invariant.change (fun inside => inside.2 rfl) (fun _ _ => rfl) idle
    (List.Subset.refl allocated) invariant.currentAllocated

/-- `schedule` puts the current process back, so that every ready process is on the run list. -/
theorem scheduleEnqueue_listed (invariant : SchedInvariant kernel allocated) :
    ∃ queued, scheduleEnqueue defaultSchedClass kernel = .ok queued ∧
      Listed queued (Ready kernel.procs) ∧ KeepsStates kernel queued := by
  have keeps : KeepsStates kernel (clearNeedResched kernel) := by
    apply keepsStates_update <;> rfl
  have listed : Listed (clearNeedResched kernel)
      (fun proc => Ready kernel.procs proc ∧ proc ≠ kernel.current) :=
    invariant.listed.frame rfl fun other member => by
      rw [clearNeedResched, Kernel.updateProc_of_ne _ _ member.2]
  have sameCurrent : (clearNeedResched kernel).current = kernel.current := rfl
  unfold scheduleEnqueue
  simp only [sameCurrent, (keeps _).1]
  by_cases ready : Ready kernel.procs kernel.current
  · have members : ∀ proc, ((Ready kernel.procs proc ∧ proc ≠ kernel.current) ∨
        proc = kernel.current) ↔ Ready kernel.procs proc := by
      intro proc
      by_cases same : proc = kernel.current
      · simp [same, ready]
      · simp [same]
    obtain ⟨queued, enqueued, queuedListed, queuedKeeps, _⟩ :=
      listed.enqueue fun inside => inside.2 rfl
    rw [if_pos ready.1, schedClassEnqueue, if_pos ready.2]
    exact ⟨queued, enqueued, queuedListed.congr members, keeps.trans queuedKeeps⟩
  · have unchanged : (if (kernel.procs kernel.current).state = .runnable then
        schedClassEnqueue defaultSchedClass (clearNeedResched kernel) kernel.current
        else Except.ok (clearNeedResched kernel)) = .ok (clearNeedResched kernel) := by
      split_ifs with runnable
      · rw [schedClassEnqueue, if_neg fun notIdle => ready ⟨runnable, notIdle⟩]
      · rfl
    refine ⟨_, unchanged, listed.congr fun proc => ?_, keeps⟩
    exact and_iff_left_of_imp fun procReady same => ready (same ▸ procReady)

/-- Switching to a process that is off the run list. -/
theorem switch {queued : Kernel} {next : Nat} (invariant : SchedInvariant kernel allocated)
    (keeps : KeepsStates kernel queued) (present : next ∈ allocated)
    (listed : Listed queued fun proc => Ready kernel.procs proc ∧ proc ≠ next) :
    SchedInvariant (scheduleSwitch queued next) allocated ∧
      KeepsStates kernel (scheduleSwitch queued next) := by
  have switched : KeepsStates kernel (scheduleSwitch queued next) := by
    apply keeps.trans
    apply keepsStates_update <;> rfl
  refine ⟨⟨fun proc absent => ?_, invariant.idleAllocated, ?_, present, ?_⟩, switched⟩
  · rw [(switched proc).1]
    exact invariant.unused proc absent
  · rw [(switched idleproc).1]
    exact invariant.idleRunnable
  · have framed : Listed (scheduleSwitch queued next)
        (fun proc => Ready kernel.procs proc ∧ proc ≠ next) :=
      listed.frame rfl fun proc member =>
        congrArg Proc.onRq (Function.update_of_ne member.2 _ _)
    exact framed.congr fun proc => and_congr_left' (switched.ready_iff proc).symm

/-- `schedule` switches to a process that is ready, or to the idle process. -/
theorem schedule_step (invariant : SchedInvariant kernel allocated) :
    ∃ after, schedule defaultSchedClass kernel = .ok after ∧ SchedInvariant after allocated ∧
      KeepsStates kernel after ∧
      (after.current = idleproc ∨ Ready kernel.procs after.current) := by
  obtain ⟨queued, enqueued, listed, keeps⟩ := invariant.scheduleEnqueue_listed
  cases runList : queued.rq.runList with
  | nil =>
      have chosen : defaultSchedClass.pickNext queued = (none, queued) := by
        simp [defaultSchedClass, rrPickNext, runList]
      obtain ⟨holds, switched⟩ := invariant.switch keeps invariant.idleAllocated
        (listed.congr fun proc => (and_iff_left_of_imp fun ready => ready.2).symm)
      exact ⟨_, schedule_none enqueued chosen, holds, switched, Or.inl rfl⟩
  | cons next rest =>
      have chosen : defaultSchedClass.pickNext queued = (some next, queued) := by
        simp [defaultSchedClass, rrPickNext, runList]
      obtain ⟨dequeued, answered, ready, remaining, kept⟩ := listed.dequeue_head runList
      obtain ⟨holds, switched⟩ := invariant.switch (keeps.trans kept)
        (invariant.ready_allocated ready) remaining
      exact ⟨_, schedule_some enqueued chosen answered, holds, switched, Or.inr ready⟩

/-- What waking one process changes. -/
structure Wakes (before after : Kernel) (proc : Nat) : Prop where
  runnable : (after.procs proc).state = .runnable
  others : ∀ other, other ≠ proc → (after.procs other).state = (before.procs other).state ∧
    (after.procs other).waitState = (before.procs other).waitState
  current : after.current = before.current

theorem wakes_markRunnable (kernel : Kernel) (proc : Nat) :
    Wakes kernel (markRunnable kernel proc) proc := by
  refine ⟨by simp [markRunnable], fun other apart => ?_, rfl⟩
  rw [markRunnable, Kernel.updateProc_of_ne _ _ apart]
  exact ⟨rfl, rfl⟩

/-- A process that is marked as runnable is still off the run list. -/
theorem markRunnable_listed {proc : Nat} (invariant : SchedInvariant kernel allocated)
    (asleep : (kernel.procs proc).state ≠ .runnable) :
    Listed (markRunnable kernel proc)
      (fun other => Ready kernel.procs other ∧ other ≠ kernel.current) :=
  invariant.listed.frame rfl fun other member =>
    congrArg Proc.onRq (Kernel.updateProc_of_ne kernel _
      fun same : other = proc => asleep (same ▸ member.1.1))

/-- Queueing a process that is marked as runnable. -/
theorem woken {proc : Nat} {queued : Kernel} (invariant : SchedInvariant kernel allocated)
    (present : proc ∈ allocated) (asleep : (kernel.procs proc).state ≠ .runnable)
    (other : proc ≠ kernel.current)
    (listed : Listed queued fun other =>
      (Ready kernel.procs other ∧ other ≠ kernel.current) ∨ other = proc)
    (keeps : KeepsStates (markRunnable kernel proc) queued)
    (sameCurrent : queued.current = kernel.current) :
    SchedInvariant queued allocated ∧ Wakes kernel queued proc := by
  have notIdle : proc ≠ idleproc := fun same => asleep (same ▸ invariant.idleRunnable)
  have marked := wakes_markRunnable kernel proc
  have woken : Wakes kernel queued proc :=
    ⟨(keeps proc).1.trans marked.runnable,
      fun other apart => ⟨(keeps other).1.trans (marked.others other apart).1,
        (keeps other).2.trans (marked.others other apart).2⟩, sameCurrent⟩
  have members : ∀ other, ((Ready kernel.procs other ∧ other ≠ kernel.current) ∨ other = proc) ↔
      (Ready queued.procs other ∧ other ≠ queued.current) := by
    intro other'
    rw [sameCurrent]
    by_cases same : other' = proc
    · subst same
      simp [Ready, woken.runnable, notIdle, other]
    · simp [Ready, (woken.others other' same).1, same]
  refine ⟨⟨fun other' absent => ?unused, invariant.idleAllocated, ?idle, ?current,
    listed.congr members⟩, woken⟩
  case unused =>
    rw [(woken.others other' fun same => absent (same ▸ present)).1]
    exact invariant.unused other' absent
  case idle =>
    rw [(woken.others idleproc notIdle.symm).1]
    exact invariant.idleRunnable
  case current =>
    rw [sameCurrent]
    exact invariant.currentAllocated

theorem wakeup_step {proc : Nat} (invariant : SchedInvariant kernel allocated)
    (present : proc ∈ allocated) (alive : (kernel.procs proc).state ≠ .zombie) :
    ∃ after, wakeupProc defaultSchedClass kernel proc = .ok after ∧
      SchedInvariant after allocated ∧ Wakes kernel after proc := by
  rw [wakeupProc, if_neg alive]
  split_ifs with runnable other
  · exact ⟨kernel, rfl, invariant, runnable, fun _ _ => ⟨rfl, rfl⟩, rfl⟩
  · have notIdle : proc ≠ idleproc := fun same => runnable (same ▸ invariant.idleRunnable)
    have listed := invariant.markRunnable_listed runnable
    obtain ⟨queued, enqueued, queuedListed, keeps, sameCurrent⟩ :=
      listed.enqueue fun inside => runnable inside.1.1
    rw [schedClassEnqueue, if_pos notIdle]
    exact ⟨queued, enqueued, invariant.woken present runnable other queuedListed keeps sameCurrent⟩
  · obtain rfl : proc = kernel.current := not_not.mp other
    exact ⟨_, rfl, invariant.changeCurrent fun _ => rfl, wakes_markRunnable kernel _⟩

end SchedInvariant

end UCore.Schedule
