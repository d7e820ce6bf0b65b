import UCore.Schedule.Stride

/-!
Contract: one call of `schedule` under the stride class.

Owns:
- what it means that the run pool is in order for a kernel;
- what a call of `schedule` does to such a kernel.

Does not own: runs of the kernel.
-/

set_option autoImplicit false

namespace UCore.Schedule

open UCore.Libs

/-- The pool holds the ready processes other than the current one, ordered by strides that are
near each other. -/
structure InOrder (kernel : Kernel) (pass : Nat → Nat) : Prop where
  tracks : ∀ proc, Ready kernel.procs proc → Tracks kernel.procs pass proc
  pooled : Pooled kernel.procs kernel.rq pass fun proc =>
    Ready kernel.procs proc ∧ proc ≠ kernel.current
  near : ∀ left right, Ready kernel.procs left → Ready kernel.procs right →
    Near (pass left) (pass right)

/-- `next` runs after `schedule` and has advanced by its step. -/
structure Advanced (before after : Kernel) (next : Nat) : Prop where
  current : after.current = next
  state : ∀ proc, (after.procs proc).state = (before.procs proc).state
  priority : ∀ proc, (after.procs proc).lab6Priority = (before.procs proc).lab6Priority
  stride : (after.procs next).lab6Stride =
    u32 ((before.procs next).lab6Stride + bigStride / (before.procs next).lab6Priority)
  others : ∀ proc, proc ≠ next → (after.procs proc).lab6Stride = (before.procs proc).lab6Stride

theorem Advanced.tracks {before after : Kernel} {next : Nat} {pass : Nat → Nat}
    (advanced : Advanced before after next) {proc : Nat} (tracked : Tracks before.procs pass proc) :
    Tracks after.procs (Function.update pass next
      (pass next + bigStride / (before.procs next).lab6Priority)) proc := by
  unfold Tracks at tracked ⊢
  by_cases same : proc = next
  · subst same
    rw [advanced.stride, Function.update_self, tracked]
    unfold u32
    rw [Nat.mod_add_mod]
  · rw [advanced.others proc same, Function.update_of_ne same]
    exact tracked

/-- A step of at most `BIG_STRIDE` keeps a least stride near the others. -/
theorem near_advance {least step other : Nat} (bounded : step ≤ bigStride) (below : least ≤ other)
    (near : Near other least) : Near other (least + step) := by
  unfold Near bigStride at *
  omega

variable {kernel : Kernel} {pass : Nat → Nat}

namespace InOrder

theorem enqueue (inOrder : InOrder kernel pass) :
    ∃ queued, scheduleEnqueue strideSchedClass kernel = .ok queued ∧
      Pooled queued.procs queued.rq pass (Ready kernel.procs) ∧
      KeepsProcs kernel.procs queued.procs := by
  have keeps : KeepsProcs kernel.procs (clearNeedResched kernel).procs := by
    apply KeepsProcs.update <;> rfl
  have pooled : Pooled (clearNeedResched kernel).procs (clearNeedResched kernel).rq pass
      (fun proc => Ready kernel.procs proc ∧ proc ≠ kernel.current) :=
    inOrder.pooled.frame
      (fun other member => by rw [clearNeedResched, Kernel.updateProc_of_ne _ _ member.2])
      (fun _ _ => rfl)
  have sameCurrent : (clearNeedResched kernel).current = kernel.current := rfl
  unfold scheduleEnqueue
  simp only [sameCurrent, keeps.state]
  by_cases runnable : (kernel.procs kernel.current).state = .runnable
  · rw [if_pos runnable]
    by_cases idle : kernel.current = idleproc
    · rw [schedClassEnqueue, if_neg (fun notIdle => notIdle idle)]
      refine ⟨_, rfl, pooled.congr fun proc => ?_, keeps⟩
      exact and_iff_left_of_imp fun ready same => ready.2 (same.trans idle)
    · have currentReady : Ready kernel.procs kernel.current := ⟨runnable, idle⟩
      have members : ∀ proc, ((Ready kernel.procs proc ∧ proc ≠ kernel.current) ∨
          proc = kernel.current) ↔ Ready kernel.procs proc := by
        intro proc
        by_cases same : proc = kernel.current
        · simp [same, currentReady]
        · simp [same]
      obtain ⟨queued, enqueued, queuedPooled, queuedKeeps, _⟩ :=
        strideEnqueue_pooled pooled (fun inside => inside.2 rfl)
          (fun other member => keeps.tracks (inOrder.tracks other ((members other).mp member)))
          (fun left right inLeft inRight =>
            inOrder.near left right ((members left).mp inLeft) ((members right).mp inRight))
      rw [schedClassEnqueue, if_pos idle]
      exact ⟨queued, enqueued, queuedPooled.congr members, keeps.trans queuedKeeps⟩
  · rw [if_neg runnable]
    refine ⟨_, rfl, pooled.congr fun proc => ?_, keeps⟩
    exact and_iff_left_of_imp fun ready same => runnable (same ▸ ready.1)

/-- Only the strides of ready processes matter. -/
theorem congr {pass' : Nat → Nat} (inOrder : InOrder kernel pass)
    (same : ∀ proc, Ready kernel.procs proc → pass' proc = pass proc) : InOrder kernel pass' := by
  refine ⟨fun proc ready => ?_, inOrder.pooled.frame (fun _ _ => rfl) fun proc member =>
    same proc member.1, fun left right leftReady rightReady => ?_⟩
  · unfold Tracks
    rw [same proc ready]
    exact inOrder.tracks proc ready
  · rw [same left leftReady, same right rightReady]
    exact inOrder.near left right leftReady rightReady

/-- Changing neither the state nor the stride of the current process. -/
theorem touchCurrent {change : Proc → Proc} (inOrder : InOrder kernel pass)
    (keeps : KeepsProcs kernel.procs (kernel.updateProc kernel.current change).procs) :
    InOrder (kernel.updateProc kernel.current change) pass := by
  refine ⟨fun proc ready => keeps.tracks (inOrder.tracks proc ((keeps.ready_iff proc).mp ready)),
    ?_, fun left right leftReady rightReady => inOrder.near left right
      ((keeps.ready_iff left).mp leftReady) ((keeps.ready_iff right).mp rightReady)⟩
  have framed : Pooled (kernel.updateProc kernel.current change).procs kernel.rq pass
      (fun proc => Ready kernel.procs proc ∧ proc ≠ kernel.current) :=
    inOrder.pooled.frame
      (fun proc member => by rw [Kernel.updateProc_of_ne _ _ member.2]) (fun _ _ => rfl)
  apply framed.congr
  intro proc
  rw [keeps.ready_iff proc]
  rfl

section Picked

variable {queued : Kernel} (inOrder : InOrder kernel pass)
  (enqueued : scheduleEnqueue strideSchedClass kernel = .ok queued)
  (pooled : Pooled queued.procs queued.rq pass (Ready kernel.procs))
  (keeps : KeepsProcs kernel.procs queued.procs)

include inOrder enqueued pooled keeps

theorem schedule_idle (noRoot : queued.rq.lab6RunPool.root = none) :
    ∃ after, schedule strideSchedClass kernel = .ok after ∧ after.current = idleproc ∧
      KeepsProcs kernel.procs after.procs ∧ InOrder after pass := by
  have switched : KeepsProcs queued.procs (scheduleSwitch queued idleproc).procs := by
    apply KeepsProcs.update <;> rfl
  have all := keeps.trans switched
  refine ⟨_, schedule_none enqueued (stridePickNext_none noRoot), rfl, all, ?_⟩
  refine ⟨fun proc ready => all.tracks (inOrder.tracks proc ((all.ready_iff proc).mp ready)), ?_,
    fun left right leftReady rightReady => inOrder.near left right
      ((all.ready_iff left).mp leftReady) ((all.ready_iff right).mp rightReady)⟩
  have framed : Pooled (scheduleSwitch queued idleproc).procs (scheduleSwitch queued idleproc).rq
      pass (Ready kernel.procs) :=
    pooled.frame (fun proc member => congrArg Proc.onRq (Function.update_of_ne member.2 _ _))
      (fun _ _ => rfl)
  apply framed.congr
  intro proc
  rw [all.ready_iff proc]
  exact (and_iff_left_of_imp fun ready => ready.2).symm

theorem schedule_next {next : Nat} (atRoot : queued.rq.lab6RunPool.root = some next) :
    ∃ after, schedule strideSchedClass kernel = .ok after ∧ Advanced kernel after next ∧
      InOrder after (Function.update pass next
        (pass next + bigStride / (kernel.procs next).lab6Priority)) := by
  obtain ⟨nextReady, least⟩ := pooled.root_le atRoot
  have tracks : ∀ proc, Ready kernel.procs proc → Tracks queued.procs pass proc :=
    fun proc ready => keeps.tracks (inOrder.tracks proc ready)
  set picked := queued.updateProc next strideAdvance with isPicked
  have elsewhere : ∀ other, other ≠ next → picked.procs other = queued.procs other :=
    fun other apart => Kernel.updateProc_of_ne queued _ apart
  have pickedPooled : Pooled picked.procs picked.rq pass (Ready kernel.procs) := by
    apply pooled.frame _ fun _ _ => rfl
    intro other _
    by_cases same : other = next
    · simp [isPicked, same, strideAdvance]
    · rw [elsewhere other same]
  obtain ⟨dequeued, answered, dequeuedPooled, sameProcs, _⟩ :=
    strideDequeue_pooled pickedPooled atRoot
      (fun other member => by
        unfold Tracks
        rw [elsewhere other member.2]
        exact tracks other member.1)
      (fun left right inLeft inRight => inOrder.near left right inLeft.1 inRight.1)
  have switched : KeepsProcs dequeued.procs (scheduleSwitch dequeued next).procs := by
    apply KeepsProcs.update <;> rfl
  have pickedState : ∀ other, (picked.procs other).state = (queued.procs other).state := by
    intro other
    by_cases same : other = next
    · simp [isPicked, same, strideAdvance]
    · rw [elsewhere other same]
  have pickedPriority : ∀ other,
      (picked.procs other).lab6Priority = (queued.procs other).lab6Priority := by
    intro other
    by_cases same : other = next
    · simp [isPicked, same, strideAdvance]
    · rw [elsewhere other same]
  have state : ∀ other, ((scheduleSwitch dequeued next).procs other).state =
      (kernel.procs other).state := by
    intro other
    rw [switched.state other, sameProcs, pickedState other, keeps.state other]
  have advanced : Advanced kernel (scheduleSwitch dequeued next) next := by
    refine ⟨rfl, state, fun other => ?_, ?_, fun other apart => ?_⟩
    · rw [switched.priority other, sameProcs, pickedPriority other, keeps.priority other]
    · rw [switched.stride next, sameProcs, isPicked, Kernel.updateProc_self]
      show u32 ((queued.procs next).lab6Stride + bigStride / (queued.procs next).lab6Priority) = _
      rw [keeps.stride next, keeps.priority next]
    · rw [switched.stride other, sameProcs, elsewhere other apart, keeps.stride other]
  have ready : ∀ proc, Ready (scheduleSwitch dequeued next).procs proc ↔ Ready kernel.procs proc := by
    intro proc
    unfold Ready
    rw [state proc]
  have passElsewhere : ∀ other, other ≠ next → Function.update pass next
      (pass next + bigStride / (kernel.procs next).lab6Priority) other = pass other :=
    fun other apart => Function.update_of_ne apart _ _
  refine ⟨_, schedule_some enqueued (stridePickNext_some atRoot) answered, advanced, ?_, ?_, ?_⟩
  · exact fun other otherReady =>
      advanced.tracks (inOrder.tracks other ((ready other).mp otherReady))
  · have framed : Pooled (scheduleSwitch dequeued next).procs (scheduleSwitch dequeued next).rq
        (Function.update pass next (pass next + bigStride / (kernel.procs next).lab6Priority))
        (fun proc => Ready kernel.procs proc ∧ proc ≠ next) :=
      dequeuedPooled.frame
        (fun proc member => congrArg Proc.onRq (Function.update_of_ne member.2 _ _))
        (fun proc member => passElsewhere proc member.2)
    apply framed.congr
    intro proc
    rw [ready proc]
    rfl
  · have stepped : ∀ other, Ready kernel.procs other →
        Near (pass other) (pass next + bigStride / (kernel.procs next).lab6Priority) :=
      fun other otherReady => near_advance (Nat.div_le_self _ _) (least other otherReady)
        (inOrder.near other next otherReady nextReady)
    intro left right leftReady rightReady
    have wasLeft := (ready left).mp leftReady
    have wasRight := (ready right).mp rightReady
    by_cases isLeft : left = next <;> by_cases isRight : right = next
    · simp [isLeft, isRight, Near]
    · subst isLeft
      rw [Function.update_self, passElsewhere right isRight]
      exact (stepped right wasRight).symm
    · subst isRight
      rw [Function.update_self, passElsewhere left isLeft]
      exact stepped left wasLeft
    · rw [passElsewhere left isLeft, passElsewhere right isRight]
      exact inOrder.near left right wasLeft wasRight

end Picked

end InOrder

end UCore.Schedule
