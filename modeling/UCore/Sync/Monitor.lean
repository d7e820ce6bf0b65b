import Mathlib.Data.Finset.Card
import UCore.Lib.Transition
import UCore.Sync.Sem

/-!
Contract: monitors with condition variables, `kern/sync/monitor.c`.

Owns:
- semaphores as `up` and `down` change them, and that the kernel's semaphores change so;
- the code of threads that enter a monitor, signal, wait and leave, statement by statement;
- the runs of any number of threads over any number of condition variables.

Every access to a counter and every call of `up` or `down` is a step of its own, and any thread may
take the next step. A thread that `down` has put on a queue goes on once it is off that queue. The
counters are an `int` each; at most 4096 processes exist, so they do not overflow.

Does not own: the scheduler that picks the next thread.
-/

set_option autoImplicit false

namespace UCore.Sync

open UCore.Lib

/-! ## Semaphores -/

namespace Semaphore

/-- `up`: the first waiter goes, or the value grows. -/
def up (sem : Semaphore) : Semaphore :=
  match sem.waitQueue with
  | [] => { sem with value := wrap32 (sem.value + 1) }
  | _ :: rest => { sem with waitQueue := rest }

/-- `down` by `proc`, and whether it returns at once. -/
def down (sem : Semaphore) (proc : Nat) : Bool × Semaphore :=
  if sem.value > 0 then (true, { sem with value := sem.value - 1 })
  else (false, { sem with waitQueue := sem.waitQueue ++ [proc] })

end Semaphore

/-- The semaphore `sem` of the kernel after a wait is taken off its queue. -/
theorem waitQueueDel_sems {sync after : SyncState} {sem wait : Nat}
    (done : waitQueueDel sync sem wait = .ok after) :
    after.sems = Function.update sync.sems sem
      { sync.sems sem with waitQueue := (sync.sems sem).waitQueue.erase wait } := by
  unfold waitQueueDel at done
  split_ifs at done
  cases done
  rfl

theorem wakeupWait_sems {sync after : SyncState} {sem wait flags : Nat}
    (done : wakeupWait sync sem wait flags true = .ok after) :
    after.sems = Function.update sync.sems sem
      { sync.sems sem with waitQueue := (sync.sems sem).waitQueue.erase wait } := by
  unfold wakeupWait at done
  cases isRemoved : waitQueueDel sync sem wait with
  | error stop => simp [isRemoved, bind, Except.bind] at done
  | ok removed =>
      simp only [isRemoved, if_true, bind, Except.bind] at done
      split at done
      · cases done
      · cases done
        show removed.sems = _
        exact waitQueueDel_sems isRemoved

/-- The kernel's `up` changes its semaphore so, and no other. -/
theorem up_sems {sync after : SyncState} {sem : Nat} (done : up sync sem = .ok after) :
    after.sems = Function.update sync.sems sem (sync.sems sem).up := by
  unfold up semUp waitQueueFirst at done
  cases waiters : (sync.sems sem).waitQueue with
  | nil =>
      rw [waiters] at done
      cases done
      rw [Semaphore.up, waiters]
      simp [SyncState.setSem, waiters]
  | cons first rest =>
      rw [waiters] at done
      simp only [List.head?_cons] at done
      split_ifs at done
      rw [wakeupWait_sems done, Semaphore.up, waiters, List.erase_cons_head]

/-- The kernel's `down` changes its semaphore so before it calls `schedule`. -/
theorem downEnter_sems {sync after : SyncState} {sem : Nat} {returns : Bool}
    (done : downEnter sync sem = .ok (returns, after)) :
    ((sync.sems sem).down sync.kernel.current).1 = returns ∧
      after.sems = Function.update sync.sems sem
        ((sync.sems sem).down sync.kernel.current).2 := by
  unfold downEnter semDownEnter at done
  unfold Semaphore.down
  split_ifs at done ⊢ with token
  · cases done
    exact ⟨rfl, rfl⟩
  · simp only [waitCurrentSet, waitInit, waitQueueAdd, SyncState.setWait, SyncState.setSem,
      Function.update_self, bind, Except.bind, pure, Except.pure] at done
    cases done
    exact ⟨rfl, rfl⟩

/-! ## Monitors -/

/-- The semaphores of a monitor. -/
inductive MonitorSem
  | mutex
  | next
  | cond (cv : Nat)
deriving DecidableEq, Repr

/-- Where a thread is. The names of `cond_signal` and `cond_wait` say what was done last. -/
inductive MonitorPc
  | outside
  /-- `down` has put the thread on the queue -/
  | inDown (sem : MonitorSem)
  | inside
  | signalFound (cv : Nat)
  | signalCounted (cv : Nat)
  | signalUpped
  | signalBack
  | waitCounted (cv : Nat)
  | waitTested (cv : Nat) (handBack : Bool)
  | waitUpped (cv : Nat)
  | waitBack (cv : Nat)
  | leaveTested (handBack : Bool)
deriving DecidableEq, Repr

/-- `monitor_t`, with the threads that use it. -/
structure MonitorState where
  sem : MonitorSem → Semaphore
  nextCount : Int
  count : Nat → Int
  pc : Nat → MonitorPc

/-- What a thread does next; `resume` is the next statement of what it is in. -/
inductive MonitorAction
  | enter
  | condSignal (cv : Nat)
  | condWait (cv : Nat)
  | leave
  | resume
deriving DecidableEq, Repr

/-- `monitor_init` -/
def monitorInit : MonitorState where
  sem := fun sem => if sem = .mutex then semInit 1 else semInit 0
  nextCount := 0
  count := fun _ => 0
  pc := fun _ => .outside

namespace MonitorState

def setPc (state : MonitorState) (thread : Nat) (pc : MonitorPc) : MonitorState :=
  { state with pc := Function.update state.pc thread pc }

def setSem (state : MonitorState) (name : MonitorSem) (sem : Semaphore) : MonitorState :=
  { state with sem := Function.update state.sem name sem }

/-- `up`, after which the thread goes on at `pc`. -/
def upThen (state : MonitorState) (thread : Nat) (name : MonitorSem) (pc : MonitorPc) :
    MonitorState :=
  (state.setSem name (state.sem name).up).setPc thread pc

/-- Where a thread goes on after `down`. -/
def returnPoint : MonitorSem → MonitorPc
  | .mutex => .inside
  | .next => .signalBack
  | .cond cv => .waitBack cv

/-- `down` up to its call of `schedule`. -/
def enterDown (state : MonitorState) (thread : Nat) (name : MonitorSem) : MonitorState :=
  match (state.sem name).down thread with
  | (true, sem) => (state.setSem name sem).setPc thread (returnPoint name)
  | (false, sem) => (state.setSem name sem).setPc thread (.inDown name)

/-- The semaphore that is upped by who gives up the monitor: a signaller goes first. -/
def handTo (handBack : Bool) : MonitorSem := if handBack = true then .next else .mutex

/-- The next statement of a thread. -/
def resume (state : MonitorState) (thread : Nat) : MonitorState :=
  match state.pc thread with
  | .outside => state
  | .inside => state
  | .inDown name => state.setPc thread (returnPoint name)
  -- `cond_signal`
  | .signalFound cv =>
      { state with nextCount := state.nextCount + 1 }.setPc thread (.signalCounted cv)
  | .signalCounted cv => state.upThen thread (.cond cv) .signalUpped
  | .signalUpped => state.enterDown thread .next
  | .signalBack => { state with nextCount := state.nextCount - 1 }.setPc thread .inside
  -- `cond_wait`
  | .waitCounted cv => state.setPc thread (.waitTested cv (decide (state.nextCount > 0)))
  | .waitTested cv handBack => state.upThen thread (handTo handBack) (.waitUpped cv)
  | .waitUpped cv => state.enterDown thread (.cond cv)
  | .waitBack cv =>
      { state with count := Function.update state.count cv (state.count cv - 1) }.setPc thread
        .inside
  -- leaving the monitor
  | .leaveTested handBack => state.upThen thread (handTo handBack) .outside

/-- A thread of `threads` enters from outside, calls or leaves from inside, and otherwise goes on;
in `down` it goes on once it is off the queue. -/
def Admits (threads : Finset Nat) (state : MonitorState) (event : Nat × MonitorAction) : Prop :=
  event.1 ∈ threads ∧
    match event.2 with
    | .enter => state.pc event.1 = .outside
    | .condSignal _ | .condWait _ | .leave => state.pc event.1 = .inside
    | .resume => state.pc event.1 ≠ .outside ∧ state.pc event.1 ≠ .inside ∧
        ∀ name, state.pc event.1 = .inDown name → event.1 ∉ (state.sem name).waitQueue

instance {pc : MonitorPc} {holds : MonitorSem → Prop} [DecidablePred holds] :
    Decidable (∀ name, pc = .inDown name → holds name) :=
  match pc with
  | .inDown name => decidable_of_iff (holds name)
      ⟨fun held _ same => MonitorPc.inDown.inj same ▸ held, fun held => held name rfl⟩
  | .outside | .inside | .signalFound _ | .signalCounted _ | .signalUpped | .signalBack
  | .waitCounted _ | .waitTested _ _ | .waitUpped _ | .waitBack _ | .leaveTested _ => isTrue nofun

instance {threads : Finset Nat} {state : MonitorState} {event : Nat × MonitorAction} :
    Decidable (state.Admits threads event) :=
  match event with
  | (_, .enter) => inferInstanceAs (Decidable (_ ∧ _))
  | (_, .condSignal _) => inferInstanceAs (Decidable (_ ∧ _))
  | (_, .condWait _) => inferInstanceAs (Decidable (_ ∧ _))
  | (_, .leave) => inferInstanceAs (Decidable (_ ∧ _))
  | (_, .resume) => inferInstanceAs (Decidable (_ ∧ _ ∧ _ ∧ ∀ _, _ → _))

def answer (state : MonitorState) (event : Nat × MonitorAction) : MonitorState :=
  match event.2 with
  | .enter => state.enterDown event.1 .mutex
  | .condSignal cv => if state.count cv > 0 then state.setPc event.1 (.signalFound cv) else state
  | .condWait cv =>
      { state with count := Function.update state.count cv (state.count cv + 1) }.setPc event.1
        (.waitCounted cv)
  | .leave => state.setPc event.1 (.leaveTested (decide (state.nextCount > 0)))
  | .resume => state.resume event.1

end MonitorState

/-- Any of `threads` may take the next step. -/
def monitorMachine (threads : Finset Nat) : Machine MonitorState (Nat × MonitorAction) Stop where
  Admits := MonitorState.Admits threads
  answer state event := .ok (state.answer event)

instance {threads : Finset Nat} : DecidableRel (monitorMachine threads).Admits :=
  fun state event => inferInstanceAs (Decidable (state.Admits threads event))

end UCore.Sync
