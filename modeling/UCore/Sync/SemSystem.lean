import UCore.Lib.Transition
import UCore.Sync.Sem

/-!
Contract: the runs of processes that use semaphores.

Owns:
- the events of a run: `up`, `try_down` and the two parts of `down` on any of the semaphores,
  calls of `schedule`, and what else puts processes to sleep and wakes them;
- the history of a run: how often each semaphore was upped and taken, and in which order
  processes entered and left its wait queue.

Does not own: what holds in these runs.
-/

set_option autoImplicit false

namespace UCore.Sync

open UCore.Lib UCore.Schedule

/-- Where a process is in `down`: outside, waiting and about to call `schedule`, or past that
call. -/
inductive DownPhase
  | outside
  | waiting (sem : Nat)
  | scheduled (sem : Nat)
deriving DecidableEq, Repr

namespace DownPhase

/-- The semaphore a process is in `down` on. -/
def sem : DownPhase → Option Nat
  | outside => none
  | waiting sem => some sem
  | scheduled sem => some sem

def afterSchedule : DownPhase → DownPhase
  | outside => outside
  | waiting sem => scheduled sem
  | scheduled sem => scheduled sem

@[simp] theorem sem_afterSchedule (phase : DownPhase) : phase.afterSchedule.sem = phase.sem := by
  cases phase <;> rfl

end DownPhase

/-- The state of the kernel, its allocated processes, the place of each in `down`, and the
history of each semaphore. -/
structure SemSystem where
  sync : SyncState
  allocated : List Nat
  phase : Nat → DownPhase
  ups : Nat → Nat
  /-- downs that returned and successes of `try_down` -/
  taken : Nat → Nat
  /-- the waiters that entered the queue, in order -/
  arrived : Nat → List Nat
  /-- the waiters that left the queue, in order -/
  released : Nat → List Nat

inductive SemEvent
  | up (sem : Nat)
  | tryDown (sem : Nat)
  | downEnter (sem : Nat)
  | downLeave (sem : Nat)
  | schedule
  | wakeupProc (proc : Nat)
  | sleep (waitState : Nat)
  | exit
  | allocProc (proc : Nat)
  | procTick
deriving DecidableEq, Repr

namespace SemSystem

def queue (system : SemSystem) (sem : Nat) : List Nat := (system.sync.sems sem).waitQueue

def current (system : SemSystem) : Nat := system.sync.kernel.current

/-- `up` and `try_down` may come from anywhere, interrupt handlers too. A process enters `down`
while it runs outside it, and leaves after its call of `schedule` returned. Apart from
semaphores, a process is woken that is neither a zombie nor waits for a semaphore, as
`do_fork`, `do_exit`, `do_kill` and the timers check. -/
def Admits (system : SemSystem) : SemEvent → Prop
  | .up _ => True
  | .tryDown _ => True
  | .downEnter _ => Ready system.sync.kernel.procs system.current ∧
      system.phase system.current = .outside
  | .downLeave sem => system.phase system.current = .scheduled sem
  | .schedule => True
  | .wakeupProc proc => proc ∈ system.allocated ∧
      (system.sync.kernel.procs proc).state ≠ .zombie ∧
      ¬ ((system.sync.kernel.procs proc).state = .sleeping ∧
        (system.sync.kernel.procs proc).waitState = wtKsem)
  | .sleep _ => Ready system.sync.kernel.procs system.current ∧
      system.phase system.current = .outside
  | .exit => Ready system.sync.kernel.procs system.current ∧
      system.phase system.current = .outside
  | .allocProc proc => proc ∉ system.allocated ∨
      ((system.sync.kernel.procs proc).state = .zombie ∧ proc ≠ system.current)
  | .procTick => True

instance (system : SemSystem) (event : SemEvent) : Decidable (system.Admits event) :=
  match event with
  | .up _ => inferInstanceAs (Decidable True)
  | .tryDown _ => inferInstanceAs (Decidable True)
  | .downEnter _ => inferInstanceAs (Decidable (_ ∧ _))
  | .downLeave _ => inferInstanceAs (Decidable (_ = _))
  | .schedule => inferInstanceAs (Decidable True)
  | .wakeupProc _ => inferInstanceAs (Decidable (_ ∧ _))
  | .sleep _ => inferInstanceAs (Decidable (_ ∧ _))
  | .exit => inferInstanceAs (Decidable (_ ∧ _))
  | .allocProc _ => inferInstanceAs (Decidable (_ ∨ _))
  | .procTick => inferInstanceAs (Decidable True)

/-- Goes on to the state `sync`, and records who entered and who left the queues meanwhile. -/
def record (system : SemSystem) (sync : SyncState) : SemSystem :=
  { system with
    sync := sync
    arrived := fun sem => system.arrived sem ++
      (sync.sems sem).waitQueue.filter fun proc => proc ∉ system.queue sem
    released := fun sem => system.released sem ++
      (system.queue sem).filter fun proc => proc ∉ (sync.sems sem).waitQueue }

def recordKernel (system : SemSystem) (kernel : Kernel) : SemSystem :=
  system.record { system.sync with kernel := kernel }

def countUp (system : SemSystem) (sem : Nat) : SemSystem :=
  { system with ups := Function.update system.ups sem (system.ups sem + 1) }

def countTaken (system : SemSystem) (sem : Nat) : SemSystem :=
  { system with taken := Function.update system.taken sem (system.taken sem + 1) }

def setPhase (system : SemSystem) (proc : Nat) (phase : DownPhase) : SemSystem :=
  { system with phase := Function.update system.phase proc phase }

def answer (system : SemSystem) : SemEvent → Except Stop SemSystem
  | .up sem => do
      let sync ← up system.sync sem
      pure ((system.record sync).countUp sem)
  | .tryDown sem =>
      match tryDown system.sync sem with
      | (true, sync) => .ok ((system.record sync).countTaken sem)
      | (false, sync) => .ok (system.record sync)
  | .downEnter sem => do
      match ← downEnter system.sync sem with
      | (true, sync) => pure ((system.record sync).countTaken sem)
      | (false, sync) => pure ((system.record sync).setPhase system.current (.waiting sem))
  | .downLeave sem => do
      let sync ← downLeave system.sync sem
      pure (((system.record sync).setPhase system.current .outside).countTaken sem)
  | .schedule => do
      let kernel ← schedule defaultSchedClass system.sync.kernel
      pure ((system.recordKernel kernel).setPhase system.current
        (system.phase system.current).afterSchedule)
  | .wakeupProc proc => do
      let kernel ← wakeupProc defaultSchedClass system.sync.kernel proc
      pure (system.recordKernel kernel)
  | .sleep waitState => .ok (system.recordKernel (sleepCurrent system.sync.kernel waitState))
  | .exit => .ok (system.recordKernel (exitCurrent system.sync.kernel))
  | .allocProc proc =>
      .ok { system.recordKernel (allocProc system.sync.kernel proc) with
        allocated := system.allocated.insert proc }
  | .procTick =>
      .ok (system.recordKernel
        (schedClassProcTick defaultSchedClass system.sync.kernel system.current))

end SemSystem

def semMachine : Machine SemSystem SemEvent Stop := ⟨SemSystem.Admits, SemSystem.answer⟩

instance : DecidableRel semMachine.Admits :=
  inferInstanceAs (∀ system event, Decidable (SemSystem.Admits system event))

/-- The kernel after boot, with its semaphores initialised to given values. -/
def bootSemSystem (initial : Nat → Int) : SemSystem where
  sync := ⟨bootKernel, fun sem => semInit (initial sem), fun _ => ⟨idleproc, 0, none, false⟩⟩
  allocated := [idleproc]
  phase := fun _ => .outside
  ups := fun _ => 0
  taken := fun _ => 0
  arrived := fun _ => []
  released := fun _ => []

end UCore.Sync
