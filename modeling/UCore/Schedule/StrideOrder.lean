import UCore.Lib.Transition
import UCore.Schedule.StrideDispatch

/-!
Contract: the order in which the stride scheduler runs processes.

Owns:
- the runs of a kernel under the stride class: processes are made, woken, put to sleep, given
  priorities, ticked, scheduled and exit, in any order;
- the unbounded stride of every process, which the 32-bit field is reduced from;
- the invariant of these runs while every woken process is near the ready ones, and the order
  of picking that follows;
- a run in which a new process is overlooked.
-/

set_option autoImplicit false

namespace UCore.Schedule

open UCore.Lib UCore.Libs

/-- A kernel, the processes it has allocated, and the strides before their reduction to 32 bits. -/
structure System where
  kernel : Kernel
  allocated : List Nat
  pass : Nat → Nat

inductive Event
  | allocProc (proc : Nat)
  | wakeupProc (proc : Nat)
  | schedule
  | sleep (waitState : Nat)
  | exit
  | lab6SetPriority (priority : Nat)
  | procTick
deriving DecidableEq, Repr

namespace System

/-- A process is made at an unused address, or at that of a reaped one. Only a process that goes
on running puts itself to sleep or exits. -/
def Admits (system : System) : Event → Prop
  | .allocProc proc => proc ∉ system.allocated ∨
      ((system.kernel.procs proc).state = .zombie ∧ proc ≠ system.kernel.current)
  | .wakeupProc proc => proc ∈ system.allocated
  | .sleep _ => Ready system.kernel.procs system.kernel.current
  | .exit => Ready system.kernel.procs system.kernel.current
  | .schedule => True
  | .lab6SetPriority _ => True
  | .procTick => True

instance (system : System) (event : Event) : Decidable (system.Admits event) :=
  match event with
  | .allocProc _ => inferInstanceAs (Decidable (_ ∨ _))
  | .wakeupProc _ => inferInstanceAs (Decidable (_ ∈ _))
  | .sleep _ => inferInstanceAs (Decidable (Ready _ _))
  | .exit => inferInstanceAs (Decidable (Ready _ _))
  | .schedule => inferInstanceAs (Decidable True)
  | .lab6SetPriority _ => inferInstanceAs (Decidable True)
  | .procTick => inferInstanceAs (Decidable True)

/-- The picked process advances by its step, without reduction. -/
def passPicked (queued : Kernel) (pass : Nat → Nat) : Nat → Nat :=
  match queued.rq.lab6RunPool.root with
  | none => pass
  | some next =>
      Function.update pass next (pass next + bigStride / (queued.procs next).lab6Priority)

theorem passPicked_some {queued : Kernel} {next : Nat} (pass : Nat → Nat)
    (atRoot : queued.rq.lab6RunPool.root = some next) :
    passPicked queued pass =
      Function.update pass next (pass next + bigStride / (queued.procs next).lab6Priority) := by
  simp only [passPicked, atRoot]

theorem passPicked_none {queued : Kernel} (pass : Nat → Nat)
    (noRoot : queued.rq.lab6RunPool.root = none) : passPicked queued pass = pass := by
  simp only [passPicked, noRoot]

def answer (system : System) : Event → Except Stop System
  | .allocProc proc =>
      .ok ⟨allocProc system.kernel proc, proc :: system.allocated,
        Function.update system.pass proc 0⟩
  | .wakeupProc proc => do
      let kernel ← wakeupProc strideSchedClass system.kernel proc
      pure ⟨kernel, system.allocated, system.pass⟩
  | .schedule => do
      let queued ← scheduleEnqueue strideSchedClass system.kernel
      let kernel ← schedule strideSchedClass system.kernel
      pure ⟨kernel, system.allocated, passPicked queued system.pass⟩
  | .sleep waitState =>
      .ok ⟨sleepCurrent system.kernel waitState, system.allocated, system.pass⟩
  | .exit => .ok ⟨exitCurrent system.kernel, system.allocated, system.pass⟩
  | .lab6SetPriority priority =>
      .ok ⟨lab6SetPriority system.kernel priority, system.allocated, system.pass⟩
  | .procTick =>
      .ok ⟨schedClassProcTick strideSchedClass system.kernel system.kernel.current,
        system.allocated, system.pass⟩

end System

def strideMachine : Machine System Event Stop := ⟨System.Admits, System.answer⟩

instance : DecidableRel strideMachine.Admits :=
  inferInstanceAs (∀ system event, Decidable (System.Admits system event))

def bootSystem : System := ⟨bootKernel, [idleproc], fun _ => 0⟩

/-- A process that becomes runnable does so with a stride less than half the range away from
that of every other ready process. -/
def WakesNear (system : System) : Event → Prop
  | .wakeupProc proc => (system.kernel.procs proc).state ≠ .runnable →
      ∀ other ∈ system.allocated, Ready system.kernel.procs other →
        Near (system.pass other) (system.pass proc)
  | _ => True

instance : DecidableRel WakesNear := fun _ event =>
  match event with
  | .wakeupProc _ => inferInstanceAs (Decidable (_ → _))
  | .allocProc _ => inferInstanceAs (Decidable True)
  | .sleep _ => inferInstanceAs (Decidable True)
  | .exit => inferInstanceAs (Decidable True)
  | .schedule => inferInstanceAs (Decidable True)
  | .lab6SetPriority _ => inferInstanceAs (Decidable True)
  | .procTick => inferInstanceAs (Decidable True)

/-! ## The invariant -/

/-- The pool holds the ready processes other than the current one, and all ready processes,
the current one too, are near each other. -/
structure StrideInvariant (system : System) : Prop where
  tracks : ∀ proc, Tracks system.kernel.procs system.pass proc
  priority : ∀ proc, 0 < (system.kernel.procs proc).lab6Priority
  unused : ∀ proc, proc ∉ system.allocated → (system.kernel.procs proc).state = .uninit
  idleAllocated : idleproc ∈ system.allocated
  idleRunnable : (system.kernel.procs idleproc).state = .runnable
  currentAllocated : system.kernel.current ∈ system.allocated
  pooled : Pooled system.kernel.procs system.kernel.rq system.pass fun proc =>
    Ready system.kernel.procs proc ∧ proc ≠ system.kernel.current
  near : ∀ left right, Ready system.kernel.procs left → Ready system.kernel.procs right →
    Near (system.pass left) (system.pass right)

theorem bootSystem_invariant : StrideInvariant bootSystem where
  tracks proc := by
    by_cases idle : proc = idleproc <;>
      simp [Tracks, bootSystem, bootKernel, idle, allocatedProc, u32]
  priority proc := by
    by_cases idle : proc = idleproc <;> simp [bootSystem, bootKernel, idle, allocatedProc]
  unused proc absent := by
    have notIdle : proc ≠ idleproc := fun same => absent (by simp [bootSystem, same])
    simp [bootSystem, bootKernel, notIdle, allocatedProc]
  idleAllocated := by simp [bootSystem]
  idleRunnable := by simp [bootSystem, bootKernel]
  currentAllocated := by simp [bootSystem, bootKernel]
  pooled := by
    have noneReady : ∀ proc, ¬ Ready bootKernel.procs proc := by
      rintro proc ⟨runnable, notIdle⟩
      simp [bootKernel, notIdle, allocatedProc] at runnable
    refine ⟨List.nodup_nil, fun proc => ?_, fun proc member => ?_, rfl, trivial⟩
    · simp [bootSystem, bootKernel, SkewHeap.entries] at *
      exact fun ready => absurd ready (noneReady proc)
    · exact absurd member.1 (noneReady proc)
  near left right ready _ := by
    simp [bootSystem, Near]

variable {system : System}

namespace StrideInvariant

/-- Changing a process that is outside the pool and stays outside it. -/
theorem change {proc value : Nat} {changed : Proc} {allocated : List Nat}
    (invariant : StrideInvariant system)
    (outside : ¬ (Ready system.kernel.procs proc ∧ proc ≠ system.kernel.current))
    (stays : changed.state = .runnable → proc ≠ idleproc → proc = system.kernel.current)
    (stride : changed.lab6Stride = u32 value) (priority : 0 < changed.lab6Priority)
    (idle : proc = idleproc → changed.state = .runnable)
    (grows : system.allocated ⊆ allocated) (present : proc ∈ allocated)
    (near : changed.state = .runnable → proc ≠ idleproc →
      ∀ other, Ready system.kernel.procs other → other ≠ proc → Near (system.pass other) value) :
    StrideInvariant ⟨{ system.kernel with procs := Function.update system.kernel.procs proc changed },
      allocated, Function.update system.pass proc value⟩ := by
  have elsewhere : ∀ other, other ≠ proc →
      Function.update system.kernel.procs proc changed other = system.kernel.procs other :=
    fun other apart => Function.update_of_ne apart _ _
  have readyElsewhere : ∀ other, other ≠ proc →
      (Ready (Function.update system.kernel.procs proc changed) other ↔
        Ready system.kernel.procs other) := by
    intro other apart
    unfold Ready
    rw [elsewhere other apart]
  have sameMembers : ∀ other, (Ready system.kernel.procs other ∧ other ≠ system.kernel.current) ↔
      (Ready (Function.update system.kernel.procs proc changed) other ∧
        other ≠ system.kernel.current) := by
    intro other
    by_cases same : other = proc
    · subst same
      refine iff_of_false outside ?_
      rintro ⟨⟨runnable, notIdle⟩, notCurrent⟩
      rw [Function.update_self] at runnable
      exact notCurrent (stays runnable notIdle)
    · rw [readyElsewhere other same]
  have memberElsewhere : ∀ other,
      Ready system.kernel.procs other ∧ other ≠ system.kernel.current → other ≠ proc :=
    fun other member same => outside (same ▸ member)
  refine ⟨fun other => ?tracks, fun other => ?priority, fun other absent => ?unused,
    grows invariant.idleAllocated, ?idleRunnable, grows invariant.currentAllocated, ?pooled,
    fun left right leftReady rightReady => ?near⟩
  case tracks =>
    by_cases same : other = proc
    · subst same
      simpa [Tracks] using stride
    · simpa [Tracks, same] using invariant.tracks other
  case priority =>
    by_cases same : other = proc
    · subst same
      simpa using priority
    · simpa [same] using invariant.priority other
  case unused =>
    have apart : other ≠ proc := fun same => absent (same ▸ present)
    simpa [apart] using invariant.unused other fun member => absent (grows member)
  case idleRunnable =>
    by_cases same : idleproc = proc
    · simpa [same] using idle same.symm
    · simpa [same] using invariant.idleRunnable
  case pooled =>
    have kept := invariant.pooled.frame
      (fun other member => congrArg Proc.onRq (elsewhere other (memberElsewhere other member)))
      (fun other member => Function.update_of_ne (memberElsewhere other member) value system.pass)
    exact kept.congr sameMembers
  case near =>
    have atProc : ∀ other, other ≠ proc →
        Ready (Function.update system.kernel.procs proc changed) other →
        Ready (Function.update system.kernel.procs proc changed) proc →
        Near (system.pass other) value := by
      intro other apart otherReady procReady
      obtain ⟨runnable, notIdle⟩ := procReady
      rw [Function.update_self] at runnable
      exact near runnable notIdle other ((readyElsewhere other apart).mp otherReady) apart
    by_cases isLeft : left = proc <;> by_cases isRight : right = proc
    · subst isLeft isRight
      simp [Near]
    · subst isLeft
      simpa [isRight] using (atProc right isRight rightReady leftReady).symm
    · subst isRight
      simpa [isLeft] using atProc left isLeft leftReady rightReady
    · simpa [isLeft, isRight] using invariant.near left right
        ((readyElsewhere left isLeft).mp leftReady) ((readyElsewhere right isRight).mp rightReady)

/-- Changing the current process, in a way that leaves its stride alone. -/
theorem changeCurrent {changed : Proc} (invariant : StrideInvariant system)
    (stride : changed.lab6Stride = (system.kernel.procs system.kernel.current).lab6Stride)
    (priority : 0 < changed.lab6Priority)
    (idle : system.kernel.current = idleproc → changed.state = .runnable)
    (near : changed.state = .runnable → system.kernel.current ≠ idleproc →
      ∀ other, Ready system.kernel.procs other → other ≠ system.kernel.current →
        Near (system.pass other) (system.pass system.kernel.current)) :
    StrideInvariant ⟨{ system.kernel with
      procs := Function.update system.kernel.procs system.kernel.current changed },
      system.allocated, system.pass⟩ := by
  have changed' := invariant.change (fun inside => inside.2 rfl) (fun _ _ => rfl)
    (stride.trans (invariant.tracks system.kernel.current)) priority idle
    (List.Subset.refl system.allocated) invariant.currentAllocated near
  rwa [Function.update_eq_self] at changed'

/-- Changing neither the state nor the stride of the current process. -/
theorem touchCurrent {changed : Proc} (invariant : StrideInvariant system)
    (state : changed.state = (system.kernel.procs system.kernel.current).state)
    (stride : changed.lab6Stride = (system.kernel.procs system.kernel.current).lab6Stride)
    (priority : 0 < changed.lab6Priority) :
    StrideInvariant ⟨{ system.kernel with
      procs := Function.update system.kernel.procs system.kernel.current changed },
      system.allocated, system.pass⟩ := by
  apply invariant.changeCurrent stride priority
  · intro idle
    rw [state, idle]
    exact invariant.idleRunnable
  · intro runnable notIdle other ready _
    exact invariant.near other system.kernel.current ready ⟨state.symm.trans runnable, notIdle⟩

/-! ## Queueing and picking -/

theorem inOrder (invariant : StrideInvariant system) : InOrder system.kernel system.pass :=
  ⟨fun proc _ => invariant.tracks proc, invariant.pooled, invariant.near⟩

theorem ready_allocated (invariant : StrideInvariant system) {proc : Nat}
    (ready : Ready system.kernel.procs proc) : proc ∈ system.allocated := by
  by_contra absent
  have unused := ready.1.symm.trans (invariant.unused proc absent)
  cases unused

theorem schedule_step (invariant : StrideInvariant system) :
    ∃ queued kernel, scheduleEnqueue strideSchedClass system.kernel = .ok queued ∧
      schedule strideSchedClass system.kernel = .ok kernel ∧
      StrideInvariant ⟨kernel, system.allocated, System.passPicked queued system.pass⟩ := by
  obtain ⟨queued, enqueued, pooled, keeps⟩ := invariant.inOrder.enqueue
  cases atRoot : queued.rq.lab6RunPool.root with
  | none =>
      obtain ⟨kernel, scheduled, current, kept, inOrder⟩ :=
        invariant.inOrder.schedule_idle enqueued pooled keeps atRoot
      refine ⟨queued, kernel, enqueued, scheduled, ?_⟩
      rw [System.passPicked_none system.pass atRoot]
      refine ⟨fun proc => kept.tracks (invariant.tracks proc), fun proc => ?_, fun proc absent => ?_,
        invariant.idleAllocated, ?_, ?_, inOrder.pooled, inOrder.near⟩
      · rw [kept.priority proc]
        exact invariant.priority proc
      · rw [kept.state proc]
        exact invariant.unused proc absent
      · rw [kept.state idleproc]
        exact invariant.idleRunnable
      · rw [current]
        exact invariant.idleAllocated
  | some next =>
      obtain ⟨kernel, scheduled, advanced, inOrder⟩ :=
        invariant.inOrder.schedule_next enqueued pooled keeps atRoot
      obtain ⟨nextReady, _⟩ := pooled.root_le atRoot
      have samePriority := keeps.priority next
      refine ⟨queued, kernel, enqueued, scheduled, ?_⟩
      rw [System.passPicked_some system.pass atRoot, samePriority]
      refine ⟨fun proc => advanced.tracks (invariant.tracks proc), fun proc => ?_,
        fun proc absent => ?_, invariant.idleAllocated, ?_, ?_, inOrder.pooled, inOrder.near⟩
      · rw [advanced.priority proc]
        exact invariant.priority proc
      · rw [advanced.state proc]
        exact invariant.unused proc absent
      · rw [advanced.state idleproc]
        exact invariant.idleRunnable
      · rw [advanced.current]
        exact invariant.ready_allocated nextReady

/-- Waking a process that is not running puts it into the pool. -/
theorem wakeup_other {proc : Nat} (invariant : StrideInvariant system)
    (present : proc ∈ system.allocated) (apart : proc ≠ system.kernel.current)
    (asleep : (system.kernel.procs proc).state ≠ .runnable)
    (near : ∀ other, Ready system.kernel.procs other →
      Near (system.pass other) (system.pass proc)) :
    ∃ kernel, schedClassEnqueue strideSchedClass (markRunnable system.kernel proc) proc = .ok kernel ∧
      StrideInvariant ⟨kernel, system.allocated, system.pass⟩ := by
  have notIdle : proc ≠ idleproc := fun same => asleep (same ▸ invariant.idleRunnable)
  have notReady : ¬ Ready system.kernel.procs proc := fun ready => asleep ready.1
  set woken := markRunnable system.kernel proc with isWoken
  have elsewhere : ∀ other, other ≠ proc → woken.procs other = system.kernel.procs other :=
    fun other different => Kernel.updateProc_of_ne _ _ different
  have ready : ∀ other, Ready woken.procs other ↔ Ready system.kernel.procs other ∨ other = proc := by
    intro other
    by_cases same : other = proc
    · simp [Ready, isWoken, markRunnable, same, notIdle]
    · simp [Ready, elsewhere other same, same]
  have tracks : ∀ other, Tracks woken.procs system.pass other := by
    intro other
    by_cases same : other = proc
    · simpa [Tracks, isWoken, markRunnable, same] using invariant.tracks proc
    · simpa [Tracks, elsewhere other same] using invariant.tracks other
  have nearAll : ∀ left right, Ready woken.procs left → Ready woken.procs right →
      Near (system.pass left) (system.pass right) := by
    intro left right leftReady rightReady
    rcases (ready left).mp leftReady with leftOld | rfl
    · rcases (ready right).mp rightReady with rightOld | rfl
      · exact invariant.near left right leftOld rightOld
      · exact near left leftOld
    · rcases (ready right).mp rightReady with rightOld | rfl
      · exact (near right rightOld).symm
      · simp [Near]
  have pooled : Pooled woken.procs woken.rq system.pass
      (fun other => Ready system.kernel.procs other ∧ other ≠ system.kernel.current) :=
    invariant.pooled.frame
      (fun other member =>
        congrArg Proc.onRq (elsewhere other fun same => notReady (same ▸ member.1)))
      (fun _ _ => rfl)
  have members : ∀ other, ((Ready system.kernel.procs other ∧ other ≠ system.kernel.current) ∨
      other = proc) ↔ (Ready woken.procs other ∧ other ≠ system.kernel.current) := by
    intro other
    rw [ready other]
    by_cases same : other = proc
    · simp [same, apart]
    · simp [same]
  obtain ⟨queued, enqueued, queuedPooled, keeps, sameCurrent⟩ :=
    strideEnqueue_pooled pooled (fun inside => notReady inside.1) (fun other _ => tracks other)
      (fun left right inLeft inRight =>
        nearAll left right ((members left).mp inLeft).1 ((members right).mp inRight).1)
  have sameCurrent : queued.current = system.kernel.current := sameCurrent
  refine ⟨queued, by rw [schedClassEnqueue, if_pos notIdle]; exact enqueued, ?_⟩
  refine ⟨fun other => keeps.tracks (tracks other), fun other => ?priority,
    fun other absent => ?unused, invariant.idleAllocated, ?idleRunnable, ?current, ?pooled,
    fun left right leftReady rightReady => ?near⟩
  case priority =>
    rw [keeps.priority other]
    by_cases same : other = proc
    · simpa [isWoken, markRunnable, same] using invariant.priority proc
    · rw [elsewhere other same]
      exact invariant.priority other
  case unused =>
    rw [keeps.state other, elsewhere other fun same => absent (same ▸ present)]
    exact invariant.unused other absent
  case idleRunnable =>
    rw [keeps.state idleproc, elsewhere idleproc notIdle.symm]
    exact invariant.idleRunnable
  case current =>
    rw [sameCurrent]
    exact invariant.currentAllocated
  case pooled =>
    apply queuedPooled.congr
    intro other
    rw [members other, sameCurrent, keeps.ready_iff other]
  case near =>
    exact nearAll left right ((keeps.ready_iff left).mp leftReady)
      ((keeps.ready_iff right).mp rightReady)

theorem wakeup_step {proc : Nat} {after : Kernel} (invariant : StrideInvariant system)
    (present : proc ∈ system.allocated)
    (near : (system.kernel.procs proc).state ≠ .runnable → ∀ other ∈ system.allocated,
      Ready system.kernel.procs other → Near (system.pass other) (system.pass proc))
    (woke : wakeupProc strideSchedClass system.kernel proc = .ok after) :
    StrideInvariant ⟨after, system.allocated, system.pass⟩ := by
  unfold wakeupProc at woke
  split_ifs at woke with zombie runnable other
  · cases woke
    exact invariant
  · have nearReady := fun other ready => near runnable other (invariant.ready_allocated ready) ready
    obtain ⟨kernel, enqueued, holds⟩ := invariant.wakeup_other present other runnable nearReady
    rw [enqueued] at woke
    cases woke
    exact holds
  · obtain rfl : proc = system.kernel.current := not_not.mp other
    cases woke
    apply invariant.changeCurrent
    · rfl
    · exact invariant.priority system.kernel.current
    · exact fun _ => rfl
    · exact fun _ _ other ready _ => near runnable other (invariant.ready_allocated ready) ready

/-- What one event does to the invariant. -/
theorem step {event : Event} {after : System} (invariant : StrideInvariant system)
    (move : strideMachine.StepMeeting WakesNear system event after) : StrideInvariant after := by
  obtain ⟨⟨admitted, answered⟩, near⟩ := move
  have answered : system.answer event = .ok after := answered
  cases event with
  | allocProc proc =>
      cases answered
      have notReady : ¬ Ready system.kernel.procs proc := by
        intro ready
        rcases admitted with absent | ⟨zombie, _⟩
        · exact absent (invariant.ready_allocated ready)
        · cases ready.1.symm.trans zombie
      apply invariant.change (fun inside => notReady inside.1)
      · intro runnable
        cases runnable
      · rfl
      · exact Nat.one_pos
      · intro idle
        subst idle
        rcases admitted with absent | ⟨zombie, _⟩
        · exact absurd invariant.idleAllocated absent
        · cases invariant.idleRunnable.symm.trans zombie
      · exact List.subset_cons_self _ _
      · exact List.mem_cons_self
      · intro runnable
        cases runnable
  | wakeupProc proc =>
      cases woke : wakeupProc strideSchedClass system.kernel proc with
      | error stop => simp [System.answer, woke, bind, Except.bind] at answered
      | ok kernel =>
          simp only [System.answer, woke, bind, Except.bind, pure, Except.pure,
            Except.ok.injEq] at answered
          subst answered
          exact invariant.wakeup_step admitted near woke
  | schedule =>
      obtain ⟨queued, kernel, enqueued, scheduled, holds⟩ := invariant.schedule_step
      simp only [System.answer, enqueued, scheduled, bind, Except.bind, pure, Except.pure,
        Except.ok.injEq] at answered
      subst answered
      exact holds
  | sleep waitState =>
      cases answered
      apply invariant.changeCurrent
      · rfl
      · exact invariant.priority system.kernel.current
      · exact fun idle => absurd idle admitted.2
      · intro runnable
        cases runnable
  | exit =>
      cases answered
      apply invariant.changeCurrent
      · rfl
      · exact invariant.priority system.kernel.current
      · exact fun idle => absurd idle admitted.2
      · intro runnable
        cases runnable
  | lab6SetPriority priority =>
      cases answered
      apply invariant.touchCurrent
      · rfl
      · rfl
      · dsimp only
        split_ifs with zero
        · exact Nat.one_pos
        · exact Nat.pos_of_ne_zero zero
  | procTick =>
      cases answered
      unfold schedClassProcTick
      split_ifs <;> apply invariant.touchCurrent
      · rfl
      · rfl
      · exact invariant.priority system.kernel.current
      · rfl
      · rfl
      · exact invariant.priority system.kernel.current

theorem run {events : List Event} {last : System} (invariant : StrideInvariant system)
    (run : Run (strideMachine.StepMeeting WakesNear) system events last) : StrideInvariant last :=
  run.invariant StrideInvariant (fun _ _ _ holds move => holds.step move) invariant

end StrideInvariant

/-! ## The order of picking -/

/-- Two processes in the pool compare as their unbounded strides do. -/
def ComparesTruly (kernel : Kernel) (pass : Nat → Nat) : Prop :=
  ∀ left ∈ kernel.rq.lab6RunPool.entries, ∀ right ∈ kernel.rq.lab6RunPool.entries,
    procStrideCompF kernel.procs left right = Int.sign ((pass left : Int) - pass right)

theorem comparesTruly_of_near {kernel : Kernel} {pass : Nat → Nat} {members : Nat → Prop}
    (pooled : Pooled kernel.procs kernel.rq pass members)
    (tracks : ∀ proc, Tracks kernel.procs pass proc)
    (near : ∀ left right, members left → members right → Near (pass left) (pass right)) :
    ComparesTruly kernel pass := by
  intro left leftMember right rightMember
  apply procStrideCompF_near (tracks left) (tracks right)
  exact near left right ((pooled.mem_iff left).mp leftMember) ((pooled.mem_iff right).mp rightMember)

/-- `stride_pick_next`, called by `schedule`, answers with a ready process of least unbounded
stride, and with `NULL` only where no process is ready. -/
def PicksLeast (queued : Kernel) (pass : Nat → Nat) : Prop :=
  match (stridePickNext queued).1 with
  | none => ∀ proc, ¬ Ready queued.procs proc
  | some next => Ready queued.procs next ∧ ∀ proc, Ready queued.procs proc → pass next ≤ pass proc

theorem picksLeast_of_pooled {queued : Kernel} {pass : Nat → Nat}
    (pooled : Pooled queued.procs queued.rq pass (Ready queued.procs)) : PicksLeast queued pass := by
  unfold PicksLeast
  cases atRoot : queued.rq.lab6RunPool.root with
  | none =>
      rw [stridePickNext_none atRoot]
      exact pooled.root_none atRoot
  | some next =>
      rw [stridePickNext_some atRoot]
      exact pooled.root_le atRoot

/-- While every process that wakes is near the ready ones, 32-bit strides compare as the unbounded
ones in the pool, also in the pool that `schedule` picks from, and it picks a least one. -/
theorem stride_order_true {events : List Event} {system : System}
    (run : Run (strideMachine.StepMeeting WakesNear) bootSystem events system) :
    ComparesTruly system.kernel system.pass ∧
      ∃ queued, scheduleEnqueue strideSchedClass system.kernel = .ok queued ∧
        ComparesTruly queued system.pass ∧ PicksLeast queued system.pass := by
  have invariant := bootSystem_invariant.run run
  obtain ⟨queued, enqueued, pooled, keeps⟩ := invariant.inOrder.enqueue
  have ready : Pooled queued.procs queued.rq system.pass (Ready queued.procs) :=
    pooled.congr fun proc => (keeps.ready_iff proc).symm
  refine ⟨?_, queued, enqueued, ?_, picksLeast_of_pooled ready⟩
  · exact comparesTruly_of_near invariant.pooled invariant.tracks
      fun left right leftReady rightReady => invariant.near left right leftReady.1 rightReady.1
  · exact comparesTruly_of_near pooled (fun proc => keeps.tracks (invariant.tracks proc))
      invariant.near

/-- A process runs twice before a second one is forked. -/
def forkEvents : List Event :=
  [.allocProc 1, .wakeupProc 1, .schedule, .lab6SetPriority 2, .procTick, .schedule, .allocProc 2,
    .wakeupProc 2]

theorem stride_order_true_fork :
    ∃ system, follow (strideMachine.next WakesNear) bootSystem forkEvents = some system ∧
      ComparesTruly system.kernel system.pass ∧
      ∃ queued, scheduleEnqueue strideSchedClass system.kernel = .ok queued ∧
        ComparesTruly queued system.pass ∧ PicksLeast queued system.pass := by
  have done : (follow (strideMachine.next WakesNear) bootSystem forkEvents).isSome = true := by decide
  obtain ⟨system, finished⟩ := Option.isSome_iff_exists.mp done
  exact ⟨system, finished, stride_order_true (Machine.follow_next_run finished)⟩

/-- A process runs three times before a second one is forked. -/
def lateForkEvents : List Event :=
  [.allocProc 1, .wakeupProc 1, .schedule, .schedule, .schedule, .allocProc 2, .wakeupProc 2]

theorem stride_late_fork_overlooked :
    ¬ ∀ events system, Run strideMachine.Step bootSystem events system →
      ∃ queued, scheduleEnqueue strideSchedClass system.kernel = .ok queued ∧
        PicksLeast queued system.pass := by
  intro picksLeast
  have done : ((follow (strideMachine.next fun _ _ => True) bootSystem lateForkEvents).bind fun system =>
      (scheduleEnqueue strideSchedClass system.kernel).toOption.map fun queued =>
        ((stridePickNext queued).1, decide (Ready queued.procs 2), system.pass 1, system.pass 2)) =
      some (some 1, true, 3 * 2 ^ 30, 0) := by decide
  obtain ⟨system, finished, picked⟩ := Option.bind_eq_some_iff.mp done
  have run : Run strideMachine.Step bootSystem lateForkEvents system :=
    (Machine.follow_next_run finished).mono fun _ _ _ move => move.1
  obtain ⟨queued, enqueued, least⟩ := picksLeast _ _ run
  rw [enqueued] at picked
  simp only [Except.toOption, Option.map_some, Option.some.injEq, Prod.mk.injEq,
    decide_eq_true_eq] at picked
  obtain ⟨first, secondReady, firstPass, secondPass⟩ := picked
  unfold PicksLeast at least
  rw [first] at least
  have ordered := least.2 2 secondReady
  omega

end UCore.Schedule
