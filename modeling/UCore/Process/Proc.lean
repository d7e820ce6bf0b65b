import UCore.Lib.Transition
import UCore.Libs.Hash
import UCore.Process.Pid
import UCore.Schedule.Timer
import UCore.Sync.Sem

/-!
Contract: processes, `kern/process/proc.c`.

Owns:
- the process list, the hash lists of identifiers and the relation links of the processes;
- `do_fork`, `do_exit`, `do_wait`, `do_kill`, `do_sleep` and `do_yield` with what interrupt
  handlers do meanwhile, and the runs of the kernel from `proc_init` on.

A process is named by the order of its creation, the idle process by 0 and `initproc` by 1: memory
that is used again makes another process. The kernel is not preempted: a process gives up the
processor in its calls of `schedule` alone, so its code is cut there, and interrupts come between
the parts. Nothing in `do_fork` sleeps, as no memory is shared by two processes that can run.

Does not own: the memory and the files of a process, and which allocations fail.
-/

set_option autoImplicit false

namespace UCore.Process

open UCore.Lib UCore.Libs UCore.Schedule UCore.Sync

def wtChild : Nat := 0x80000001

def wtTimer : Nat := 0x80000002

def wtKbd : Nat := 0x80000004

def initproc : Nat := 1

def hashShift : Nat := 10

def pidHashfn (pid : Int) : Nat := hash32 pid.toNat hashShift

/-- The relation links of all processes. -/
structure Family where
  parent : Nat → Option Nat
  cptr : Nat → Option Nat
  yptr : Nat → Option Nat
  optr : Nat → Option Nat

namespace Family

/-- `proc` becomes the youngest child of `parent`. -/
def insert (family : Family) (proc parent : Nat) : Family where
  parent := Function.update family.parent proc (some parent)
  yptr := match family.cptr parent with
    | none => Function.update family.yptr proc none
    | some older => Function.update (Function.update family.yptr proc none) older (some proc)
  optr := Function.update family.optr proc (family.cptr parent)
  cptr := Function.update family.cptr parent (some proc)

/-- The links of `remove_links`. -/
def remove (family : Family) (proc : Nat) : Family where
  parent := family.parent
  yptr := match family.optr proc with
    | none => family.yptr
    | some older => Function.update family.yptr older (family.yptr proc)
  optr := match family.yptr proc with
    | none => family.optr
    | some younger => Function.update family.optr younger (family.optr proc)
  cptr := match family.yptr proc, family.parent proc with
    | none, some parent => Function.update family.cptr parent (family.optr proc)
    | _, _ => family.cptr

/-- In `do_exit`, the youngest child `proc` of `current` goes to `initproc`. -/
def adopt (family : Family) (current proc : Nat) : Family :=
  { family with cptr := Function.update family.cptr current (family.optr proc) }.insert proc
    initproc

end Family

/-- Where a process is in the kernel. After `waitCalls`, `sleepCalls`, `queueCalls` and
`exitCalls` it calls `schedule`. -/
inductive KernelPhase
  | outside
  | waitCalls (pid : Int)
  | waitBack (pid : Int)
  | sleepCalls
  | sleepBack
  | queueCalls
  | queueBack
  | exitCalls
  | exited
deriving DecidableEq, Repr

namespace KernelPhase

def afterSchedule : KernelPhase → KernelPhase
  | waitCalls pid => waitBack pid
  | sleepCalls => sleepBack
  | queueCalls => queueBack
  | exitCalls => exited
  | other => other

/-- The process is about to call `schedule`. -/
def calling : KernelPhase → Bool
  | waitCalls _ | sleepCalls | queueCalls | exitCalls => true
  | outside | waitBack _ | sleepBack | queueBack | exited => false

end KernelPhase

/-- A process that was waited for: whose child it was then, who got its exit code, and the code. -/
structure Reaped where
  child : Nat
  parent : Option Nat
  reaper : Nat
  code : Int
deriving DecidableEq, Repr

/-- The state of the kernel. `waiting` are the processes on wait queues; the last four fields record
the history: the processes in the order in which they were queued to run and dispatched, the codes
given to `do_exit`, and the processes that were waited for. -/
structure ProcSystem where
  kernel : Kernel
  family : Family
  pid : Nat → Int
  exitCode : Nat → Int
  exiting : Nat → Bool
  procList : List Nat
  hashList : Nat → List Nat
  nrProcess : Nat
  lastPid : Int
  nextSafe : Int
  timerList : List Timer
  waiting : List Nat
  phase : Nat → KernelPhase
  nextProc : Nat
  arrivals : List Nat
  dispatches : List Nat
  exitGiven : Nat → Option Int
  reaped : List Reaped

/-- What happens next. Most is done by the current process; `wakeupWait` and `tick` come from
interrupt handlers too. -/
inductive ProcEvent
  /-- whether `alloc_proc` and the copies succeed -/
  | fork (allocProc copies : Bool)
  | exit (code : Int)
  | wait (pid : Int)
  | waitAgain
  | kill (pid : Int)
  | sleep (time : Nat)
  | sleepReturns
  /-- sleeps on a wait queue, for the keyboard or for a semaphore -/
  | sleepQueue (keyboard : Bool)
  | queueReturns
  | wakeupWait (proc : Nat)
  | yield
  | schedule
  | tick
deriving DecidableEq, Repr

namespace ProcSystem

variable (system : ProcSystem)

def current : Nat := system.kernel.current

def setPhase (proc : Nat) (phase : KernelPhase) : ProcSystem :=
  { system with phase := Function.update system.phase proc phase }

def waitState (proc : Nat) : Nat := (system.kernel.procs proc).waitState

def state (proc : Nat) : ProcState := (system.kernel.procs proc).state

/-- `wakeup_proc` -/
def wakeup (proc : Nat) : Except Stop ProcSystem := do
  let kernel ← wakeupProc defaultSchedClass system.kernel proc
  pure { system with kernel := kernel }

def findProc (pid : Int) : Option Nat :=
  if 0 < pid ∧ pid < maxPid then
    (system.hashList (pidHashfn pid)).find? fun proc => system.pid proc = pid
  else none

def hashProc (proc : Nat) : ProcSystem :=
  { system with
    hashList := Function.update system.hashList (pidHashfn (system.pid proc))
      (proc :: system.hashList (pidHashfn (system.pid proc))) }

def unhashProc (proc : Nat) : ProcSystem :=
  { system with
    hashList := Function.update system.hashList (pidHashfn (system.pid proc))
      ((system.hashList (pidHashfn (system.pid proc))).erase proc) }

def setLinks (proc parent : Nat) : ProcSystem :=
  { system with
    procList := proc :: system.procList
    family := system.family.insert proc parent
    nrProcess := system.nrProcess + 1 }

def removeLinks (proc : Nat) : ProcSystem :=
  { system with
    procList := system.procList.erase proc
    family := system.family.remove proc
    nrProcess := system.nrProcess - 1 }

/-- The process that `alloc_proc` makes. -/
def allocProc : ProcSystem :=
  { system with
    kernel := Schedule.allocProc system.kernel system.nextProc
    pid := Function.update system.pid system.nextProc (-1)
    exiting := Function.update system.exiting system.nextProc false
    family :=
      { parent := Function.update system.family.parent system.nextProc none
        cptr := Function.update system.family.cptr system.nextProc none
        yptr := Function.update system.family.yptr system.nextProc none
        optr := Function.update system.family.optr system.nextProc none }
    nextProc := system.nextProc + 1 }

def setPid (proc : Nat) (pid : Int) : ProcSystem :=
  { system with pid := Function.update system.pid proc pid }

/-- The part of `do_fork` that makes the new process known and runnable. -/
def forkChild (child : Nat) : Except Stop ProcSystem := do
  let (lastPid, nextSafe) ← getPid (system.procList.map system.pid) maxPid.toNat system.lastPid
    system.nextSafe
  let named := { system.setPid child lastPid with lastPid := lastPid, nextSafe := nextSafe }
  ((named.hashProc child).setLinks child system.current).wakeup child

def doFork (allocates copies : Bool) : Except Stop ProcSystem :=
  if system.nrProcess ≥ maxProcess then .ok system
  else if allocates = false then .ok system
  else if system.waitState system.current ≠ 0 then .error .assertFailed
  else if copies = false then .ok system
  else system.allocProc.forkChild system.nextProc

/-- The loop of `do_exit`. -/
def adoptChildren : Nat → ProcSystem → Except Stop ProcSystem
  | 0, _ => .error .outOfFuel
  | fuel + 1, system =>
      match system.family.cptr system.current with
      | none => .ok system
      | some proc =>
          let adopted := { system with family := system.family.adopt system.current proc }
          if system.state proc = .zombie ∧ system.waitState initproc = wtChild then do
            let woken ← adopted.wakeup initproc
            adoptChildren fuel woken
          else adoptChildren fuel adopted

def markExited (code : Int) : ProcSystem :=
  { system with
    kernel := exitCurrent system.kernel
    exitCode := Function.update system.exitCode system.current code
    exitGiven := Function.update system.exitGiven system.current (some code)
    phase := Function.update system.phase system.current .exitCalls }

/-- `do_exit` up to its call of `schedule`. -/
def doExit (code : Int) : Except Stop ProcSystem :=
  if system.current = idleproc ∨ system.current = initproc then .error .panicked
  else do
    let exited := system.markExited code
    match system.family.parent system.current with
    | none => Except.error .panicked
    | some parent => do
        let told ← if exited.waitState parent = wtChild then exited.wakeup parent else pure exited
        adoptChildren (system.procList.length + 1) told

/-- The loop of `do_wait` over the children: the first zombie. -/
def scanChildren : Nat → Option Nat → Except Stop (Option Nat)
  | _, none => .ok none
  | 0, some _ => .error .outOfFuel
  | fuel + 1, some proc =>
      if system.state proc = .zombie then .ok (some proc)
      else scanChildren fuel (system.family.optr proc)

/-- `haskid`, and the zombie that was found. -/
def scanWait (pid : Int) : Except Stop (Bool × Option Nat) :=
  if pid ≠ 0 then
    match system.findProc pid with
    | none => .ok (false, none)
    | some proc =>
        if system.family.parent proc = some system.current then
          .ok (true, if system.state proc = .zombie then some proc else none)
        else .ok (false, none)
  else do
    let found ← system.scanChildren system.procList.length (system.family.cptr system.current)
    pure ((system.family.cptr system.current).isSome, found)

/-- The part of `do_wait` that frees the zombie it found. -/
def reap (proc : Nat) : Except Stop ProcSystem :=
  if proc = idleproc ∨ proc = initproc then .error .panicked
  else
    let gone := ((system.unhashProc proc).removeLinks proc).setPhase system.current .outside
    .ok { gone with
      reaped := ⟨proc, system.family.parent proc, system.current, system.exitCode proc⟩ ::
        system.reaped }

/-- `do_wait` from `repeat` on, up to its call of `schedule`. -/
def doWait (pid : Int) : Except Stop ProcSystem := do
  match ← system.scanWait pid with
  | (_, some proc) => system.reap proc
  | (true, none) =>
      pure ({ system with kernel := sleepCurrent system.kernel wtChild }.setPhase system.current
        (.waitCalls pid))
  | (false, none) => pure (system.setPhase system.current .outside)

def doKill (pid : Int) : Except Stop ProcSystem :=
  match system.findProc pid with
  | none => .ok system
  | some proc =>
      if system.exiting proc = true then .ok system
      else
        let marked := { system with exiting := Function.update system.exiting proc true }
        if interruptible (system.waitState proc) = true then marked.wakeup proc else .ok marked

/-- `do_sleep` up to its call of `schedule`. -/
def doSleep (time : Nat) : Except Stop ProcSystem :=
  if time = 0 then .ok system
  else do
    let timers ← addTimer system.timerList ⟨system.current, time, system.current⟩
    pure ({ system with
      kernel := sleepCurrent system.kernel wtTimer
      timerList := timers }.setPhase system.current .sleepCalls)

/-- `wait_current_set` -/
def waitCurrentSet (keyboard : Bool) : ProcSystem :=
  { system with
    kernel := sleepCurrent system.kernel (if keyboard = true then wtKbd else wtKsem)
    waiting := system.waiting ++ [system.current] }.setPhase system.current .queueCalls

/-- A process calls when it runs outside the kernel code of this module, and goes on there after its
call of `schedule` returned. The idle process only schedules. Any process on a wait queue may be
woken. -/
def Admits : ProcEvent → Prop
  | .fork _ _ | .exit _ | .wait _ | .kill _ | .sleep _ | .sleepQueue _ | .yield =>
      system.current ≠ idleproc ∧ system.phase system.current = .outside
  | .waitAgain => ∃ pid, system.phase system.current = .waitBack pid
  | .sleepReturns => system.phase system.current = .sleepBack
  | .queueReturns => system.phase system.current = .queueBack
  | .wakeupWait proc => proc ∈ system.waiting
  | .schedule => system.phase system.current = .outside ∨
      (system.phase system.current).calling = true
  | .tick => True

instance (at' : KernelPhase) : Decidable (∃ pid, at' = .waitBack pid) :=
  match at' with
  | .waitBack pid => .isTrue ⟨pid, rfl⟩
  | .outside | .waitCalls _ | .sleepCalls | .sleepBack | .queueCalls | .queueBack | .exitCalls
  | .exited => .isFalse nofun

instance (event : ProcEvent) : Decidable (system.Admits event) :=
  match event with
  | .fork _ _ | .exit _ | .wait _ | .kill _ | .sleep _ | .sleepQueue _ | .yield =>
      inferInstanceAs (Decidable (_ ∧ _))
  | .waitAgain => inferInstanceAs (Decidable (∃ pid, _ = KernelPhase.waitBack pid))
  | .sleepReturns | .queueReturns => inferInstanceAs (Decidable (_ = _))
  | .wakeupWait _ => inferInstanceAs (Decidable (_ ∈ _))
  | .schedule => inferInstanceAs (Decidable (_ ∨ _))
  | .tick => .isTrue trivial

def act : ProcEvent → Except Stop ProcSystem
  | .fork allocates copies => system.doFork allocates copies
  | .exit code => system.doExit code
  | .wait pid => system.doWait pid
  | .waitAgain =>
      match system.phase system.current with
      | .waitBack pid =>
          -- `-E_KILLED`
          if system.exiting system.current = true then
            (system.setPhase system.current .outside).doExit (-9)
          else system.doWait pid
      | _ => .ok system
  | .kill pid => system.doKill pid
  | .sleep time => system.doSleep time
  | .sleepReturns =>
      .ok ({ system with timerList := delTimer system.timerList system.current }.setPhase
        system.current .outside)
  | .sleepQueue keyboard => .ok (system.waitCurrentSet keyboard)
  | .queueReturns =>
      .ok ({ system with waiting := system.waiting.erase system.current }.setPhase
        system.current .outside)
  | .wakeupWait proc => { system with waiting := system.waiting.erase proc }.wakeup proc
  | .yield =>
      .ok { system with kernel :=
        system.kernel.updateProc system.current fun self => { self with needResched := true } }
  | .schedule => do
      let kernel ← schedule defaultSchedClass system.kernel
      pure ({ system with kernel := kernel }.setPhase system.current
        (system.phase system.current).afterSchedule)
  | .tick => do
      let (kernel, timers) ← runTimerList defaultSchedClass system.kernel system.timerList
      pure { system with kernel := kernel, timerList := timers }

/-- Records what an event did to the run queue. -/
def note (event : ProcEvent) (after : ProcSystem) : ProcSystem :=
  match event with
  | .schedule =>
      { after with
        arrivals := system.arrivals ++
          if Ready system.kernel.procs system.current then [system.current] else []
        dispatches := system.dispatches ++ if after.current = idleproc then [] else [after.current] }
  | _ =>
      { after with
        arrivals := system.arrivals ++
          after.kernel.rq.runList.drop system.kernel.rq.runList.length
        dispatches := system.dispatches }

def answer (event : ProcEvent) : Except Stop ProcSystem := do
  let after ← system.act event
  pure (system.note event after)

end ProcSystem

/-- The idle process before `proc_init` calls `kernel_thread`. -/
def bootSystem : ProcSystem where
  kernel := bootKernel
  family := ⟨fun _ => none, fun _ => none, fun _ => none, fun _ => none⟩
  pid := fun proc => if proc = idleproc then 0 else -1
  exitCode := fun _ => 0
  exiting := fun _ => false
  procList := []
  hashList := fun _ => []
  nrProcess := 1
  lastPid := maxPid
  nextSafe := maxPid
  timerList := []
  waiting := []
  phase := fun _ => .outside
  nextProc := 1
  arrivals := []
  dispatches := []
  exitGiven := fun _ => none
  reaped := []

/-- `proc_init`: the idle process makes `initproc`. -/
def procInit : Except Stop ProcSystem := bootSystem.answer (.fork true true)

def procMachine : Machine ProcSystem ProcEvent Stop := ⟨ProcSystem.Admits, ProcSystem.answer⟩

instance : DecidableRel procMachine.Admits :=
  fun system event => inferInstanceAs (Decidable (system.Admits event))

end UCore.Process
