import UCore.Process.Kinship

/-!
Contract: the invariant of the kernel's processes, and what each event does under it.

Owns:
- the invariant, which holds after `proc_init`;
- for each function of `proc.c` that it goes through without a failed assertion and keeps the
  invariant, and what it puts on the run queue.

Does not own: runs of several events.
-/

set_option autoImplicit false

namespace UCore.Process

open UCore.Lib UCore.Libs UCore.Schedule UCore.Sync

structure ProcInvariant (system : ProcSystem) (children : Nat → List Nat) : Prop where
  scheduled : Scheduled system.kernel system.phase system.timerList system.waiting system.nextProc
  registered : Registered system.procList system.hashList system.nrProcess system.pid
    system.lastPid system.nextSafe system.nextProc system.reaped
  related : Related system.family none children system.procList system.kernel
  attentive : Attentive system.kernel system.phase system.pid children
  recorded : Recorded system.kernel system.exitCode system.exitGiven system.reaped system.nextProc

/-- The event is answered under the invariant and only adds to the run queue, or `initproc` exits,
which is fatal. -/
def Goes (system : ProcSystem) (outcome : Except Stop ProcSystem) : Prop :=
  (∃ after children, outcome = .ok after ∧ ProcInvariant after children ∧
    ∃ new, Queues system.kernel after.kernel new) ∨
  (system.current = initproc ∧ outcome = .error .panicked)

variable {system : ProcSystem} {children : Nat → List Nat} {kernel after : Kernel}
  {phase : Nat → KernelPhase} {timers : List Timer} {waiting : List Nat}
  {proc : Nat} {pid : Int}

theorem Rouses.zombie_iff (rouses : Rouses kernel after) (proc : Nat) :
    (after.procs proc).state = .zombie ↔ (kernel.procs proc).state = .zombie := by
  rcases rouses proc with ⟨same, _⟩ | ⟨runnable, alive⟩
  · rw [same]
  · rw [runnable]
    exact iff_of_false nofun alive

theorem Rouses.waits (rouses : Rouses kernel after) {target : Int}
    (waits : Waits after phase proc target) : Waits kernel phase proc target := by
  obtain ⟨at', sleeping⟩ := waits
  rcases rouses proc with ⟨same, _⟩ | ⟨runnable, _⟩
  · exact ⟨at', same ▸ sleeping⟩
  · rw [runnable] at sleeping
    cases sleeping

namespace ProcInvariant

/-! ## What the invariant says of a process -/

theorem existing (invariant : ProcInvariant system children) (below : proc < system.nextProc)
    (alive : (system.kernel.procs proc).state ≠ .zombie) :
    proc = idleproc ∨ proc ∈ system.procList := by
  by_cases isIdle : proc = idleproc
  · exact Or.inl isIdle
  · right
    refine (invariant.registered.listed proc).mpr ⟨isIdle, below, ?_⟩
    intro gone
    obtain ⟨record, member, rfl⟩ := List.mem_map.mp gone
    exact alive (invariant.recorded.byParent record member).2.2

theorem lt_of_listed (invariant : ProcInvariant system children) (listed : proc ∈ system.procList) :
    proc < system.nextProc :=
  ((invariant.registered.listed proc).mp listed).2.1

theorem lt_of_known (invariant : ProcInvariant system children)
    (known : proc = idleproc ∨ proc ∈ system.procList) : proc < system.nextProc := by
  rcases known with rfl | listed
  · exact List.mem_range.mp invariant.scheduled.sched.idleAllocated
  · exact invariant.lt_of_listed listed

/-- `find_proc` answers a process that exists. -/
theorem findProc_some (invariant : ProcInvariant system children)
    (found : system.findProc pid = some proc) :
    proc ∈ system.procList ∧ system.pid proc = pid := by
  unfold ProcSystem.findProc at found
  split_ifs at found
  have member := List.mem_of_find?_eq_some found
  have same := List.find?_some found
  exact ⟨((invariant.registered.hashed _ proc).mp member).1, of_decide_eq_true same⟩

/-- `find_proc` finds every process that exists. -/
theorem findProc_none (invariant : ProcInvariant system children)
    (missing : system.findProc pid = none) (listed : proc ∈ system.procList) :
    system.pid proc ≠ pid := by
  rintro rfl
  unfold ProcSystem.findProc at missing
  rw [if_pos (invariant.registered.pidRange proc listed)] at missing
  have member : proc ∈ system.hashList (pidHashfn (system.pid proc)) :=
    (invariant.registered.hashed _ proc).mpr ⟨listed, rfl⟩
  have differs := List.find?_eq_none.mp missing proc member
  exact differs (decide_eq_true rfl)

/-! ## Events that leave the process tree alone -/

/-- The kernel moves on, nobody becomes a zombie and nobody more waits for a child. -/
theorem rest (invariant : ProcInvariant system children)
    (scheduled : Scheduled kernel phase timers waiting system.nextProc)
    (zombies : ∀ proc, (kernel.procs proc).state = .zombie ↔
      (system.kernel.procs proc).state = .zombie)
    (fewer : ∀ proc target, Waits kernel phase proc target →
      Waits system.kernel system.phase proc target) :
    ProcInvariant { system with
      kernel := kernel
      phase := phase
      timerList := timers
      waiting := waiting } children where
  scheduled := scheduled
  registered := invariant.registered
  related := invariant.related.congr fun proc => (zombies proc).mp
  attentive := invariant.attentive.mono (fun proc => (zombies proc).mp) fewer
  recorded := invariant.recorded.congr zombies

/-- Some processes are woken. -/
theorem rouse (invariant : ProcInvariant system children)
    (scheduled : Scheduled kernel system.phase timers waiting system.nextProc)
    (rouses : Rouses system.kernel kernel) :
    ProcInvariant { system with
      kernel := kernel
      timerList := timers
      waiting := waiting } children :=
  invariant.rest scheduled rouses.zombie_iff fun _ _ => rouses.waits

/-- A process is marked as killed. -/
theorem mark (invariant : ProcInvariant system children) (exiting : Nat → Bool) :
    ProcInvariant { system with exiting := exiting } children where
  scheduled := invariant.scheduled
  registered := invariant.registered
  related := invariant.related
  attentive := invariant.attentive
  recorded := invariant.recorded

theorem stays (invariant : ProcInvariant system children) : Goes system (.ok system) :=
  Or.inl ⟨system, children, rfl, invariant, [], .refl⟩

/-- The current process changes and goes on where it does not wait for a child. -/
theorem moves {changed : Proc} {next : KernelPhase} (invariant : ProcInvariant system children)
    (scheduled : Scheduled
      { system.kernel with
        procs := Function.update system.kernel.procs system.kernel.current changed }
      (Function.update system.phase system.kernel.current next) timers waiting system.nextProc)
    (runs : (system.phase system.kernel.current).calling = false)
    (alive : changed.state ≠ .zombie) (elsewhere : ∀ target, ¬ Waits
      { system.kernel with
        procs := Function.update system.kernel.procs system.kernel.current changed }
      (Function.update system.phase system.kernel.current next) system.kernel.current target) :
    ProcInvariant { system with
      kernel :=
        { system.kernel with
          procs := Function.update system.kernel.procs system.kernel.current changed }
      phase := Function.update system.phase system.kernel.current next
      timerList := timers
      waiting := waiting } children := by
  apply invariant.rest scheduled
  · intro other
    show (Function.update system.kernel.procs system.kernel.current changed other).state =
      .zombie ↔ _
    by_cases same : other = system.kernel.current
    · subst same
      rw [Function.update_self, invariant.scheduled.runs runs]
      exact iff_of_false alive nofun
    · rw [Function.update_of_ne same]
  · intro other target
    apply waits_of_moved _ elsewhere
    intro other apart
    show (Function.update system.kernel.procs system.kernel.current changed other).state = _
    rw [Function.update_of_ne apart]

end ProcInvariant

end UCore.Process
