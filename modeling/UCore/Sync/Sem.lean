import UCore.Schedule.RoundRobin

/-!
Contract: wait queues and semaphores, `kern/sync/wait.c` and `kern/sync/sem.c`.

Owns: the operations on a wait queue, and `up`, `down` and `try_down`.

A `wait_t` lives on the stack of the process that waits, so it is named by that process. The
wait queues of this model are those of the semaphores, each named by its semaphore; the links of
a queue are a list. `down` gives up the processor in its middle: it is cut there, into what it
does before its call of `schedule` and after it. Every part runs with interrupts off.
-/

set_option autoImplicit false

namespace UCore.Sync

open UCore.Schedule

def wtInterrupted : Nat := 0x80000000

def wtKsem : Nat := 0x00000100

structure Wait where
  proc : Nat
  wakeupFlags : Nat
  waitQueue : Option Nat
  /-- `wait_link` is on a list -/
  linked : Bool
deriving DecidableEq, Repr

structure Semaphore where
  value : Int
  waitQueue : List Nat
deriving DecidableEq, Repr

/-- The kernel with its semaphores and the waits of its processes. -/
structure SyncState where
  kernel : Kernel
  sems : Nat → Semaphore
  waits : Nat → Wait

namespace SyncState

def setWait (sync : SyncState) (wait : Nat) (changed : Wait) : SyncState :=
  { sync with waits := Function.update sync.waits wait changed }

def setSem (sync : SyncState) (sem : Nat) (changed : Semaphore) : SyncState :=
  { sync with sems := Function.update sync.sems sem changed }

end SyncState

/-! ## `wait.c` -/

/-- `wait_init` for a process that waits on its own behalf. -/
def waitInit (sync : SyncState) (wait proc : Nat) : SyncState :=
  sync.setWait wait ⟨proc, wtInterrupted, (sync.waits wait).waitQueue, false⟩

def waitQueueAdd (sync : SyncState) (queue wait : Nat) : Except Stop SyncState :=
  if (sync.waits wait).linked = true then .error .assertFailed
  else .ok ((sync.setWait wait { sync.waits wait with waitQueue := some queue, linked := true }).setSem
    queue { sync.sems queue with waitQueue := (sync.sems queue).waitQueue ++ [wait] })

def waitQueueDel (sync : SyncState) (queue wait : Nat) : Except Stop SyncState :=
  if (sync.waits wait).linked = true ∧ (sync.waits wait).waitQueue = some queue then
    .ok ((sync.setWait wait { sync.waits wait with linked := false }).setSem
      queue { sync.sems queue with waitQueue := (sync.sems queue).waitQueue.erase wait })
  else .error .assertFailed

def waitQueueFirst (sync : SyncState) (queue : Nat) : Option Nat := (sync.sems queue).waitQueue.head?

def waitInQueue (sync : SyncState) (wait : Nat) : Bool := (sync.waits wait).linked

def wakeupWait (sync : SyncState) (queue wait wakeupFlags : Nat) (del : Bool) : Except Stop SyncState := do
  let removed ← if del then waitQueueDel sync queue wait else .ok sync
  let flagged := removed.setWait wait { removed.waits wait with wakeupFlags := wakeupFlags }
  let kernel ← wakeupProc defaultSchedClass flagged.kernel (flagged.waits wait).proc
  pure { flagged with kernel := kernel }

def waitCurrentSet (sync : SyncState) (queue wait waitState : Nat) : Except Stop SyncState :=
  let initialised := waitInit sync wait sync.kernel.current
  waitQueueAdd { initialised with kernel := sleepCurrent initialised.kernel waitState } queue wait

def waitCurrentDel (sync : SyncState) (queue wait : Nat) : Except Stop SyncState :=
  if waitInQueue sync wait = true then waitQueueDel sync queue wait else .ok sync

/-! ## `sem.c` -/

def semInit (value : Int) : Semaphore := ⟨value, []⟩

/-- `__up` -/
def semUp (sync : SyncState) (sem waitState : Nat) : Except Stop SyncState :=
  match waitQueueFirst sync sem with
  | none =>
      .ok (sync.setSem sem { sync.sems sem with value := wrap32 ((sync.sems sem).value + 1) })
  | some wait =>
      if (sync.kernel.procs (sync.waits wait).proc).waitState = waitState then
        wakeupWait sync sem wait waitState true
      else .error .assertFailed

/-- `__down` up to its call of `schedule`: whether it took the token and is done, or has set the
current process to wait. -/
def semDownEnter (sync : SyncState) (sem waitState : Nat) : Except Stop (Bool × SyncState) :=
  if (sync.sems sem).value > 0 then
    .ok (true, sync.setSem sem { sync.sems sem with value := (sync.sems sem).value - 1 })
  else do
    let waiting ← waitCurrentSet sync sem sync.kernel.current waitState
    pure (false, waiting)

/-- `__down` after its call of `schedule`, with its result. -/
def semDownLeave (sync : SyncState) (sem waitState : Nat) : Except Stop (Nat × SyncState) := do
  let wait := sync.kernel.current
  let left ← waitCurrentDel sync sem wait
  if (left.waits wait).wakeupFlags ≠ waitState then pure ((left.waits wait).wakeupFlags, left)
  else pure (0, left)

def up (sync : SyncState) (sem : Nat) : Except Stop SyncState := semUp sync sem wtKsem

def downEnter (sync : SyncState) (sem : Nat) : Except Stop (Bool × SyncState) := semDownEnter sync sem wtKsem

def downLeave (sync : SyncState) (sem : Nat) : Except Stop SyncState := do
  let (flags, left) ← semDownLeave sync sem wtKsem
  if flags = 0 then pure left else throw .assertFailed

def tryDown (sync : SyncState) (sem : Nat) : Bool × SyncState :=
  if (sync.sems sem).value > 0 then
    (true, sync.setSem sem { sync.sems sem with value := (sync.sems sem).value - 1 })
  else (false, sync)

end UCore.Sync
