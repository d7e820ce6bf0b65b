import Mathlib.Algebra.Order.Group.Int
import UCore.Lib.Transition
import UCore.Schedule.StrideDispatch

/-!
Contract: how the stride class shares the processor between processes that always want to run.

Owns:
- the runs in which a fixed set of processes with fixed priorities is scheduled and ticked;
- the bound on how far apart the processes are dispatched.

Does not own: processes that sleep, wake, exit or change their priority.
-/

set_option autoImplicit false

namespace UCore.Schedule

open UCore.Lib UCore.Libs

/-- A kernel, and how often `schedule` has dispatched each process. -/
structure Sharing where
  kernel : Kernel
  dispatched : Nat → Nat

inductive SharingEvent
  | schedule
  | procTick
deriving DecidableEq, Repr

namespace Sharing

/-- The process that `schedule` dispatches is the current one afterwards. -/
def answer (sharing : Sharing) : SharingEvent → Except Stop Sharing
  | .schedule => do
      let kernel ← schedule strideSchedClass sharing.kernel
      pure ⟨kernel, Function.update sharing.dispatched kernel.current
        (sharing.dispatched kernel.current + 1)⟩
  | .procTick =>
      .ok ⟨schedClassProcTick strideSchedClass sharing.kernel sharing.kernel.current,
        sharing.dispatched⟩

end Sharing

def sharingMachine : Machine Sharing SharingEvent Stop := ⟨fun _ _ => True, Sharing.answer⟩

instance : DecidableRel sharingMachine.Admits :=
  inferInstanceAs (∀ _ _, Decidable True)

/-- The processes that want to run have one stride and priorities in range, and those of them that
are not running are in the pool. -/
structure StartsEqual (kernel : Kernel) (stride : Nat) : Prop where
  equal : ∀ proc, Ready kernel.procs proc → (kernel.procs proc).lab6Stride = stride
  inRange : stride < 2 ^ 32
  priority : ∀ proc, Ready kernel.procs proc →
    1 ≤ (kernel.procs proc).lab6Priority ∧ (kernel.procs proc).lab6Priority ≤ bigStride
  nodup : kernel.rq.lab6RunPool.entries.Nodup
  queued : ∀ proc, proc ∈ kernel.rq.lab6RunPool.entries ↔
    Ready kernel.procs proc ∧ proc ≠ kernel.current
  onRq : ∀ proc, Ready kernel.procs proc ∧ proc ≠ kernel.current → (kernel.procs proc).onRq = true
  counted : kernel.rq.procNum = kernel.rq.lab6RunPool.entries.length

/-- `BIG_STRIDE / priority` -/
def strideStep (kernel : Kernel) (proc : Nat) : Nat := bigStride / (kernel.procs proc).lab6Priority

/-- The stride of each process has advanced by its step with each dispatch, and no two are more than
`BIG_STRIDE` apart. -/
structure Shared (start : Kernel) (stride : Nat) (sharing : Sharing) : Prop where
  ready : ∀ proc, Ready sharing.kernel.procs proc ↔ Ready start.procs proc
  priority : ∀ proc,
    (sharing.kernel.procs proc).lab6Priority = (start.procs proc).lab6Priority
  inOrder : InOrder sharing.kernel fun proc =>
    stride + sharing.dispatched proc * strideStep start proc
  spread : ∀ left right, Ready start.procs left → Ready start.procs right →
    sharing.dispatched left * strideStep start left ≤
      sharing.dispatched right * strideStep start right + bigStride

variable {start : Kernel} {stride : Nat} {sharing after : Sharing}

theorem StartsEqual.shared (equal : StartsEqual start stride) :
    Shared start stride ⟨start, fun _ => 0⟩ := by
  have notYet : ∀ proc, stride + 0 * strideStep start proc = stride := by
    intro proc
    rw [Nat.zero_mul, Nat.add_zero]
  refine ⟨fun _ => Iff.rfl, fun _ => rfl, ⟨?_, ⟨equal.nodup, equal.queued, equal.onRq,
    equal.counted, ?_⟩, ?_⟩, ?_⟩
  · intro proc ready
    show (start.procs proc).lab6Stride = u32 (stride + 0 * strideStep start proc)
    rw [notYet, u32_of_lt equal.inRange]
    exact equal.equal proc ready
  · exact SkewHeap.ordered_of_equal fun proc _ => notYet proc
  · intro left right _ _
    simp [Near]
  · intro left right _ _
    simp

namespace Shared

/-- A dispatch of the idle process leaves the strides of the others alone. -/
theorem schedule_idle {kernel : Kernel} (shared : Shared start stride sharing)
    (idle : kernel.current = idleproc) (keeps : KeepsProcs sharing.kernel.procs kernel.procs)
    (inOrder : InOrder kernel fun proc => stride + sharing.dispatched proc * strideStep start proc) :
    Shared start stride ⟨kernel, Function.update sharing.dispatched kernel.current
      (sharing.dispatched kernel.current + 1)⟩ := by
  have ready : ∀ proc, Ready kernel.procs proc ↔ Ready start.procs proc :=
    fun proc => (keeps.ready_iff proc).trans (shared.ready proc)
  have same : ∀ proc, Ready start.procs proc → Function.update sharing.dispatched kernel.current
      (sharing.dispatched kernel.current + 1) proc = sharing.dispatched proc :=
    fun proc isReady => Function.update_of_ne (fun isIdle => isReady.2 (isIdle.trans idle)) _ _
  refine ⟨ready, fun proc => (keeps.priority proc).trans (shared.priority proc), ?_, ?_⟩
  · apply inOrder.congr
    intro proc isReady
    simp only [same proc ((ready proc).mp isReady)]
  · intro left right leftReady rightReady
    simp only [same left leftReady, same right rightReady]
    exact shared.spread left right leftReady rightReady

/-- The dispatched process had a least stride, so that its step takes it at most `BIG_STRIDE`
ahead. -/
theorem schedule_next {kernel : Kernel} {next : Nat} (shared : Shared start stride sharing)
    (nextReady : Ready sharing.kernel.procs next)
    (least : ∀ proc, Ready sharing.kernel.procs proc →
      stride + sharing.dispatched next * strideStep start next ≤
        stride + sharing.dispatched proc * strideStep start proc)
    (advanced : Advanced sharing.kernel kernel next)
    (inOrder : InOrder kernel (Function.update
      (fun proc => stride + sharing.dispatched proc * strideStep start proc) next
      (stride + sharing.dispatched next * strideStep start next +
        bigStride / (sharing.kernel.procs next).lab6Priority))) :
    Shared start stride ⟨kernel, Function.update sharing.dispatched kernel.current
      (sharing.dispatched kernel.current + 1)⟩ := by
  have ready : ∀ proc, Ready kernel.procs proc ↔ Ready start.procs proc := by
    intro proc
    rw [← shared.ready proc]
    unfold Ready
    rw [advanced.state proc]
  have sameStep : bigStride / (sharing.kernel.procs next).lab6Priority = strideStep start next := by
    unfold strideStep
    rw [shared.priority next]
  have bounded : strideStep start next ≤ bigStride := Nat.div_le_self _ _
  rw [advanced.current]
  refine ⟨ready, fun proc => (advanced.priority proc).trans (shared.priority proc), ?_, ?_⟩
  · apply inOrder.congr
    intro proc _
    by_cases same : proc = next
    · subst same
      simp only [Function.update_self]
      rw [sameStep, Nat.add_mul, Nat.one_mul, Nat.add_assoc]
    · simp only [Function.update_of_ne same]
  · intro left right leftReady rightReady
    have before := shared.spread left right leftReady rightReady
    have below := least right ((shared.ready right).mpr rightReady)
    by_cases isLeft : left = next <;> by_cases isRight : right = next
    · simp [isLeft, isRight]
    · subst isLeft
      simp only [Function.update_self, Function.update_of_ne isRight]
      rw [Nat.add_mul, Nat.one_mul]
      omega
    · subst isRight
      simp only [Function.update_self, Function.update_of_ne isLeft]
      rw [Nat.add_mul, Nat.one_mul]
      omega
    · simp only [Function.update_of_ne isLeft, Function.update_of_ne isRight]
      exact before

theorem schedule (shared : Shared start stride sharing) :
    ∃ after, sharing.answer .schedule = .ok after ∧ Shared start stride after := by
  obtain ⟨queued, enqueued, pooled, keeps⟩ := shared.inOrder.enqueue
  cases atRoot : queued.rq.lab6RunPool.root with
  | none =>
      obtain ⟨kernel, scheduled, current, kept, inOrder⟩ :=
        shared.inOrder.schedule_idle enqueued pooled keeps atRoot
      refine ⟨_, ?_, shared.schedule_idle current kept inOrder⟩
      simp only [Sharing.answer, scheduled, bind, Except.bind, pure, Except.pure]
  | some next =>
      obtain ⟨kernel, scheduled, advanced, inOrder⟩ :=
        shared.inOrder.schedule_next enqueued pooled keeps atRoot
      obtain ⟨nextReady, least⟩ := pooled.root_le atRoot
      refine ⟨_, ?_, shared.schedule_next nextReady least advanced inOrder⟩
      simp only [Sharing.answer, scheduled, bind, Except.bind, pure, Except.pure]

theorem procTick (shared : Shared start stride sharing) :
    ∃ after, sharing.answer .procTick = .ok after ∧ Shared start stride after := by
  refine ⟨_, rfl, ?_⟩
  have touched : ∀ change : Proc → Proc, KeepsProcs sharing.kernel.procs
      (sharing.kernel.updateProc sharing.kernel.current change).procs →
      Shared start stride ⟨sharing.kernel.updateProc sharing.kernel.current change,
        sharing.dispatched⟩ := by
    intro change keeps
    exact ⟨fun proc => (keeps.ready_iff proc).trans (shared.ready proc),
      fun proc => (keeps.priority proc).trans (shared.priority proc),
      shared.inOrder.touchCurrent keeps, shared.spread⟩
  unfold schedClassProcTick
  split_ifs
  · apply touched
    apply KeepsProcs.update <;> rfl
  · apply touched
    apply KeepsProcs.update <;> rfl

theorem answers (shared : Shared start stride sharing) (event : SharingEvent) :
    ∃ after, sharing.answer event = .ok after ∧ Shared start stride after := by
  cases event with
  | schedule => exact shared.schedule
  | procTick => exact shared.procTick

theorem run {events : List SharingEvent} (shared : Shared start stride sharing)
    (run : Run sharingMachine.Step sharing events after) : Shared start stride after := by
  apply run.invariant (Shared start stride) _ shared
  intro before event last holds move
  obtain ⟨last', answered, holds'⟩ := holds.answers event
  rw [Except.ok.inj (answered.symm.trans move.2)] at holds'
  exact holds'

theorem runs (shared : Shared start stride sharing) (events : List SharingEvent) :
    ∃ after, Run sharingMachine.Step sharing events after := by
  induction events generalizing sharing with
  | nil => exact ⟨sharing, .nil sharing⟩
  | cons event events inductionHypothesis =>
      obtain ⟨second, answered, holds⟩ := shared.answers event
      obtain ⟨after, rest⟩ := inductionHypothesis holds
      exact ⟨after, .cons ⟨trivial, answered⟩ rest⟩

end Shared

/-- However long the processes are scheduled, the strides that two of them have advanced by differ
by at most `BIG_STRIDE`. -/
theorem stride_fairness (equal : StartsEqual start stride) (events : List SharingEvent) :
    (∃ last, Run sharingMachine.Step ⟨start, fun _ => 0⟩ events last) ∧
      ∀ last, Run sharingMachine.Step ⟨start, fun _ => 0⟩ events last →
        ∀ left right, Ready start.procs left → Ready start.procs right →
          |(last.dispatched left : Int) * (bigStride / (start.procs left).lab6Priority : Nat) -
            last.dispatched right * (bigStride / (start.procs right).lab6Priority : Nat)| ≤
              bigStride := by
  refine ⟨equal.shared.runs events, ?_⟩
  intro last run left right leftReady rightReady
  have shared := equal.shared.run run
  have ahead := shared.spread left right leftReady rightReady
  have behind := shared.spread right left rightReady leftReady
  unfold strideStep at ahead behind
  rw [abs_le]
  omega

/-- Three processes with strides about to wrap around, of which the first is running. -/
def wrappingKernel : Kernel where
  procs := fun proc =>
    { allocatedProc with
      state := if proc ≤ 3 then .runnable else .uninit
      onRq := decide (proc = 2 ∨ proc = 3)
      lab6Stride := 2 ^ 32 - 1
      lab6Priority := proc }
  current := 1
  rq := ⟨[], 2, maxTimeSlice, .node 2 (.node 3 .null .null) .null⟩

theorem wrappingKernel_equal : StartsEqual wrappingKernel (2 ^ 32 - 1) := by
  have ready : ∀ proc, Ready wrappingKernel.procs proc ↔ 1 ≤ proc ∧ proc ≤ 3 := by
    intro proc
    unfold Ready wrappingKernel idleproc
    by_cases small : proc ≤ 3
    · simp [small]
      omega
    · simp [small]
  refine ⟨fun _ _ => rfl, by decide, ?_, by decide, ?_, ?_, rfl⟩
  · intro proc isReady
    rw [ready] at isReady
    show 1 ≤ proc ∧ proc ≤ bigStride
    unfold bigStride
    omega
  · intro proc
    rw [ready]
    simp [wrappingKernel, SkewHeap.entries]
    omega
  · intro proc inside
    rw [ready] at inside
    have notFirst : proc ≠ 1 := inside.2
    simp [wrappingKernel]
    omega

theorem stride_fairness_wrapping :
    (∃ last, Run sharingMachine.Step ⟨wrappingKernel, fun _ => 0⟩
        [.schedule, .procTick, .schedule, .schedule] last) ∧
      ∀ last, Run sharingMachine.Step ⟨wrappingKernel, fun _ => 0⟩
          [.schedule, .procTick, .schedule, .schedule] last →
        ∀ left right, Ready wrappingKernel.procs left → Ready wrappingKernel.procs right →
          |(last.dispatched left : Int) *
              (bigStride / (wrappingKernel.procs left).lab6Priority : Nat) -
            last.dispatched right *
              (bigStride / (wrappingKernel.procs right).lab6Priority : Nat)| ≤ bigStride :=
  stride_fairness wrappingKernel_equal _

end UCore.Schedule
