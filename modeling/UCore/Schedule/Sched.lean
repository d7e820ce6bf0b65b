import Mathlib.Logic.Function.Basic
import UCore.Libs.SkewHeap
import UCore.Machine

/-!
Contract: processes and the scheduler core, `kern/process/proc.h` and `kern/schedule/sched.c`.

Owns:
- what the scheduler reads and writes of a process, and the run queue;
- the `struct sched_class` interface and its callers `wakeup_proc`, `schedule` and
  `sched_class_proc_tick`;
- the changes of state a running process makes to itself.

A process is named by a number that stands for the address of its `struct proc_struct`; the
idle process is number 0. The links of `run_list` are a list: `list_empty` of the link of a
process says that the process is not on it. Interrupts are off inside every function here, so
each of them is one step.

Does not own: any scheduling class, and the process tree.
-/

set_option autoImplicit false

namespace UCore.Schedule

open UCore.Libs

inductive ProcState
  | uninit
  | sleeping
  | runnable
  | zombie
deriving DecidableEq, Repr

structure Proc where
  state : ProcState
  runs : Nat
  needResched : Bool
  waitState : Nat
  /-- `proc->rq` is the run queue, and not `NULL` -/
  onRq : Bool
  timeSlice : Nat
  lab6Stride : Nat
  lab6Priority : Nat
deriving DecidableEq, Repr

structure RunQueue where
  runList : List Nat
  procNum : Nat
  maxTimeSlice : Nat
  lab6RunPool : SkewHeap Nat

structure Kernel where
  procs : Nat → Proc
  current : Nat
  rq : RunQueue

def idleproc : Nat := 0

def maxTimeSlice : Nat := 5

namespace Kernel

def updateProc (kernel : Kernel) (proc : Nat) (change : Proc → Proc) : Kernel :=
  { kernel with procs := Function.update kernel.procs proc (change (kernel.procs proc)) }

@[simp] theorem updateProc_self (kernel : Kernel) (proc : Nat) (change : Proc → Proc) :
    (kernel.updateProc proc change).procs proc = change (kernel.procs proc) := by
  simp [updateProc]

theorem updateProc_of_ne (kernel : Kernel) {proc other : Nat} (change : Proc → Proc)
    (apart : other ≠ proc) : (kernel.updateProc proc change).procs other = kernel.procs other := by
  simp [updateProc, apart]

@[simp] theorem updateProc_current (kernel : Kernel) (proc : Nat) (change : Proc → Proc) :
    (kernel.updateProc proc change).current = kernel.current := rfl

@[simp] theorem updateProc_rq (kernel : Kernel) (proc : Nat) (change : Proc → Proc) :
    (kernel.updateProc proc change).rq = kernel.rq := rfl

end Kernel

/-- A process that wants to run and is not the idle process. -/
def Ready (procs : Nat → Proc) (proc : Nat) : Prop :=
  (procs proc).state = .runnable ∧ proc ≠ idleproc

instance (procs : Nat → Proc) (proc : Nat) : Decidable (Ready procs proc) :=
  inferInstanceAs (Decidable (_ ∧ _))

/-- The operations of a `struct sched_class`. -/
structure SchedClass where
  enqueue : Kernel → Nat → Except Stop Kernel
  dequeue : Kernel → Nat → Except Stop Kernel
  pickNext : Kernel → Option Nat × Kernel
  procTick : Kernel → Nat → Kernel

/-- A process that is queued gets a full time slice where it has none left. -/
def refillTimeSlice (maxTimeSlice : Nat) (self : Proc) : Proc :=
  { self with
    timeSlice :=
      if self.timeSlice = 0 ∨ self.timeSlice > maxTimeSlice then maxTimeSlice else self.timeSlice
    onRq := true }

/-- One tick of the time slice of a running process. -/
def consumeTimeSlice (self : Proc) : Proc :=
  { self with
    timeSlice := self.timeSlice - 1
    needResched := if self.timeSlice - 1 = 0 then true else self.needResched }

def markRunnable (kernel : Kernel) (proc : Nat) : Kernel :=
  kernel.updateProc proc fun self => { self with state := .runnable, waitState := 0 }

def clearNeedResched (kernel : Kernel) : Kernel :=
  kernel.updateProc kernel.current fun self => { self with needResched := false }

section Sched

variable (schedClass : SchedClass)

def schedClassEnqueue (kernel : Kernel) (proc : Nat) : Except Stop Kernel :=
  if proc ≠ idleproc then schedClass.enqueue kernel proc else .ok kernel

def schedClassProcTick (kernel : Kernel) (proc : Nat) : Kernel :=
  if proc ≠ idleproc then schedClass.procTick kernel proc
  else kernel.updateProc proc fun self => { self with needResched := true }

/-- Waking a runnable process only warns. -/
def wakeupProc (kernel : Kernel) (proc : Nat) : Except Stop Kernel :=
  if (kernel.procs proc).state = .zombie then .error .assertFailed
  else if (kernel.procs proc).state = .runnable then .ok kernel
  else if proc ≠ kernel.current then schedClassEnqueue schedClass (markRunnable kernel proc) proc
  else .ok (markRunnable kernel proc)

/-- The first part of `schedule`: a current process that can go on is queued again. -/
def scheduleEnqueue (kernel : Kernel) : Except Stop Kernel :=
  let cleared := clearNeedResched kernel
  if (cleared.procs cleared.current).state = .runnable then
    schedClassEnqueue schedClass cleared cleared.current
  else .ok cleared

/-- The last part of `schedule`. `proc_run` makes `next` the current process. -/
def scheduleSwitch (kernel : Kernel) (next : Nat) : Kernel :=
  { kernel.updateProc next fun self => { self with runs := self.runs + 1 } with current := next }

def schedule (kernel : Kernel) : Except Stop Kernel := do
  let queued ← scheduleEnqueue schedClass kernel
  match schedClass.pickNext queued with
  | (some next, picked) => do
      let dequeued ← schedClass.dequeue picked next
      pure (scheduleSwitch dequeued next)
  | (none, picked) => pure (scheduleSwitch picked idleproc)

end Sched

theorem schedule_some {schedClass : SchedClass} {kernel queued picked dequeued : Kernel} {next : Nat}
    (enqueued : scheduleEnqueue schedClass kernel = .ok queued)
    (chosen : schedClass.pickNext queued = (some next, picked))
    (removed : schedClass.dequeue picked next = .ok dequeued) :
    schedule schedClass kernel = .ok (scheduleSwitch dequeued next) := by
  simp only [schedule, enqueued, chosen, removed, bind, Except.bind, pure, Except.pure]

theorem schedule_none {schedClass : SchedClass} {kernel queued picked : Kernel}
    (enqueued : scheduleEnqueue schedClass kernel = .ok queued)
    (chosen : schedClass.pickNext queued = (none, picked)) :
    schedule schedClass kernel = .ok (scheduleSwitch picked idleproc) := by
  simp only [schedule, enqueued, chosen, bind, Except.bind, pure, Except.pure]

/-- The current process goes to sleep, waiting for `wait_state`. -/
def sleepCurrent (kernel : Kernel) (waitState : Nat) : Kernel :=
  kernel.updateProc kernel.current fun self =>
    { self with state := .sleeping, waitState := waitState }

/-- What `do_exit` leaves of the current process. -/
def exitCurrent (kernel : Kernel) : Kernel :=
  kernel.updateProc kernel.current fun self => { self with state := .zombie }

/-- The process that `alloc_proc` makes. -/
def allocatedProc : Proc :=
  { state := .uninit
    runs := 0
    needResched := false
    waitState := 0
    onRq := false
    timeSlice := 0
    lab6Stride := 0
    lab6Priority := 1 }

def allocProc (kernel : Kernel) (proc : Nat) : Kernel :=
  kernel.updateProc proc fun _ => allocatedProc

/-- The kernel after `sched_init` and the first part of `proc_init`: the idle process runs and
there is no other. -/
def bootKernel : Kernel where
  procs := fun proc =>
    if proc = idleproc then { allocatedProc with state := .runnable, needResched := true }
    else allocatedProc
  current := idleproc
  rq := ⟨[], 0, maxTimeSlice, .null⟩

end UCore.Schedule
