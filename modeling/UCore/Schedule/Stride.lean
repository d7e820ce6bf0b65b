import Mathlib.Data.Int.Order.Basic
import Mathlib.Data.Int.Order.Lemmas
import UCore.Schedule.Sched

/-!
Contract: the stride scheduling class, `kern/schedule/default_sched_stride.c`.

Owns:
- the comparison of two 32-bit strides and the operations of the class;
- `lab6_set_priority`;
- when the comparison of 32-bit strides decides the order of the strides they are reduced
  from, and what each operation does to a run pool in order.
-/

set_option autoImplicit false

namespace UCore.Schedule

open UCore.Libs

def bigStride : Nat := 2 ^ 30

def procStrideCompF (procs : Nat → Proc) (left right : Nat) : Int :=
  let c := int32 (sub32 (procs left).lab6Stride (procs right).lab6Stride)
  if c > 0 then 1 else if c = 0 then 0 else -1

def strideEnqueue (kernel : Kernel) (proc : Nat) : Except Stop Kernel :=
  let pool := skewHeapInsert (procStrideCompF kernel.procs) kernel.rq.lab6RunPool proc
  let queued := kernel.updateProc proc (refillTimeSlice kernel.rq.maxTimeSlice)
  .ok { queued with
    rq := { queued.rq with lab6RunPool := pool, procNum := queued.rq.procNum + 1 } }

def strideDequeue (kernel : Kernel) (proc : Nat) : Except Stop Kernel :=
  if (kernel.procs proc).onRq = true ∧ kernel.rq.procNum > 0 then
    .ok { kernel with
      rq := { kernel.rq with
        lab6RunPool :=
          skewHeapRemove (procStrideCompF kernel.procs) kernel.rq.lab6RunPool proc
        procNum := kernel.rq.procNum - 1 } }
  else .error .assertFailed

/-- A picked process takes one step. -/
def strideAdvance (self : Proc) : Proc :=
  { self with lab6Stride := u32 (self.lab6Stride + bigStride / self.lab6Priority) }

def stridePickNext (kernel : Kernel) : Option Nat × Kernel :=
  match kernel.rq.lab6RunPool.root with
  | none => (none, kernel)
  | some proc => (some proc, kernel.updateProc proc strideAdvance)

def strideProcTick (kernel : Kernel) (proc : Nat) : Kernel :=
  kernel.updateProc proc consumeTimeSlice

def strideSchedClass : SchedClass where
  enqueue := strideEnqueue
  dequeue := strideDequeue
  pickNext := stridePickNext
  procTick := strideProcTick

theorem stridePickNext_some {kernel : Kernel} {next : Nat}
    (atRoot : kernel.rq.lab6RunPool.root = some next) :
    stridePickNext kernel = (some next, kernel.updateProc next strideAdvance) := by
  simp only [stridePickNext, atRoot]

theorem stridePickNext_none {kernel : Kernel} (noRoot : kernel.rq.lab6RunPool.root = none) :
    stridePickNext kernel = (none, kernel) := by
  simp only [stridePickNext, noRoot]

/-- `lab6_set_priority`, called with any `uint32_t`. -/
def lab6SetPriority (kernel : Kernel) (priority : Nat) : Kernel :=
  kernel.updateProc kernel.current fun self =>
    { self with lab6Priority := if u32 priority = 0 then 1 else u32 priority }

/-! ## Comparing 32-bit strides -/

/-- The 32-bit difference of two strides that are less than half the range apart. -/
theorem int32_sub32_near {left right : Nat} (leftNear : left < right + 2 ^ 31)
    (rightNear : right < left + 2 ^ 31) :
    int32 (sub32 (u32 left) (u32 right)) = (left : Int) - right := by
  unfold int32 sub32 u32
  split_ifs <;> omega

variable {procs : Nat → Proc} {pass : Nat → Nat} {left right : Nat}

/-- Less than half the range of a stride apart. -/
def Near (left right : Nat) : Prop := left < right + 2 ^ 31 ∧ right < left + 2 ^ 31

instance (left right : Nat) : Decidable (Near left right) := inferInstanceAs (Decidable (_ ∧ _))

theorem Near.symm (near : Near left right) : Near right left := And.symm near

/-- The stride of a process is its `pass`, reduced to 32 bits. -/
def Tracks (procs : Nat → Proc) (pass : Nat → Nat) (proc : Nat) : Prop :=
  (procs proc).lab6Stride = u32 (pass proc)

theorem procStrideCompF_near (tracksLeft : Tracks procs pass left)
    (tracksRight : Tracks procs pass right) (near : Near (pass left) (pass right)) :
    procStrideCompF procs left right = Int.sign ((pass left : Int) - pass right) := by
  unfold procStrideCompF
  rw [tracksLeft, tracksRight, int32_sub32_near near.1 near.2]
  generalize (pass left : Int) - pass right = difference
  rcases lt_trichotomy difference 0 with negative | zero | positive
  · rw [Int.sign_eq_neg_one_of_neg negative, if_neg (by omega), if_neg (by omega)]
  · simp [zero]
  · rw [Int.sign_eq_one_of_pos positive, if_pos positive]

/-- From half the range on, the larger stride does not compare as the larger one. -/
theorem procStrideCompF_far (tracksLeft : Tracks procs pass left)
    (tracksRight : Tracks procs pass right) (far : pass right + 2 ^ 31 ≤ pass left)
    (bounded : pass left ≤ pass right + 2 ^ 32) :
    procStrideCompF procs left right ≠ Int.sign ((pass left : Int) - pass right) := by
  have wrapped : int32 (sub32 (u32 (pass left)) (u32 (pass right))) ≤ 0 := by
    unfold int32 sub32 u32
    split_ifs <;> omega
  rw [Int.sign_eq_one_of_pos (by omega)]
  unfold procStrideCompF
  rw [tracksLeft, tracksRight]
  dsimp only
  split_ifs <;> omega

/-- The comparison orders near entries by `pass`. -/
theorem agrees_of_near {a b : List Nat} {among : Nat → Prop} (inA : ∀ entry ∈ a, among entry)
    (inB : ∀ entry ∈ b, among entry) (tracks : ∀ entry, among entry → Tracks procs pass entry)
    (near : ∀ entry entry', among entry → among entry' → Near (pass entry) (pass entry')) :
    Agrees (procStrideCompF procs) pass a b := by
  intro entry member entry' member'
  have among := inA entry member
  have among' := inB entry' member'
  rw [procStrideCompF_near (tracks entry among) (tracks entry' among') (near _ _ among among')]
  split_ifs with smaller
  · have negative := Int.sign_eq_neg_one_iff_neg.mp smaller
    omega
  · have notNegative : ¬ (pass entry : Int) - pass entry' < 0 :=
      fun negative => smaller (Int.sign_eq_neg_one_of_neg negative)
    omega

/-! ## The run pool -/

/-- The run pool holds exactly `members`, ordered by `pass`. -/
structure Pooled (procs : Nat → Proc) (rq : RunQueue) (pass : Nat → Nat) (members : Nat → Prop) :
    Prop where
  nodup : rq.lab6RunPool.entries.Nodup
  mem_iff : ∀ proc, proc ∈ rq.lab6RunPool.entries ↔ members proc
  onRq : ∀ proc, members proc → (procs proc).onRq = true
  counted : rq.procNum = rq.lab6RunPool.entries.length
  ordered : rq.lab6RunPool.Ordered pass

/-- What the scheduler keeps of every process. -/
structure KeepsProcs (before after : Nat → Proc) : Prop where
  state : ∀ proc, (after proc).state = (before proc).state
  stride : ∀ proc, (after proc).lab6Stride = (before proc).lab6Stride
  priority : ∀ proc, (after proc).lab6Priority = (before proc).lab6Priority

namespace KeepsProcs

variable {before middle after : Nat → Proc}

theorem trans (first : KeepsProcs before middle) (second : KeepsProcs middle after) :
    KeepsProcs before after :=
  ⟨fun proc => (second.state proc).trans (first.state proc),
    fun proc => (second.stride proc).trans (first.stride proc),
    fun proc => (second.priority proc).trans (first.priority proc)⟩

theorem tracks (keeps : KeepsProcs before after) {proc : Nat} (tracked : Tracks before pass proc) :
    Tracks after pass proc :=
  (keeps.stride proc).trans tracked

theorem ready_iff (keeps : KeepsProcs before after) (proc : Nat) :
    Ready after proc ↔ Ready before proc := by
  unfold Ready
  rw [keeps.state proc]

theorem update {procs : Nat → Proc} {proc : Nat} {changed : Proc}
    (state : changed.state = (procs proc).state)
    (stride : changed.lab6Stride = (procs proc).lab6Stride)
    (priority : changed.lab6Priority = (procs proc).lab6Priority) :
    KeepsProcs procs (Function.update procs proc changed) := by
  refine ⟨fun other => ?_, fun other => ?_, fun other => ?_⟩ <;>
    by_cases same : other = proc <;>
    simp [same, state, stride, priority]

end KeepsProcs

namespace Pooled

variable {rq : RunQueue} {members : Nat → Prop}

theorem frame {procs' : Nat → Proc} {pass' : Nat → Nat} (pooled : Pooled procs rq pass members)
    (onRq : ∀ proc, members proc → (procs' proc).onRq = (procs proc).onRq)
    (samePass : ∀ proc, members proc → pass' proc = pass proc) : Pooled procs' rq pass' members where
  nodup := pooled.nodup
  mem_iff := pooled.mem_iff
  onRq proc member := (onRq proc member).trans (pooled.onRq proc member)
  counted := pooled.counted
  ordered := pooled.ordered.congr fun proc member => samePass proc ((pooled.mem_iff proc).mp member)

theorem congr {members' : Nat → Prop} (pooled : Pooled procs rq pass members)
    (same : ∀ proc, members proc ↔ members' proc) : Pooled procs rq pass members' where
  nodup := pooled.nodup
  mem_iff proc := (pooled.mem_iff proc).trans (same proc)
  onRq proc member := pooled.onRq proc ((same proc).mpr member)
  counted := pooled.counted
  ordered := pooled.ordered

end Pooled

variable {kernel : Kernel} {members : Nat → Prop}

theorem strideEnqueue_pooled {proc : Nat} (pooled : Pooled kernel.procs kernel.rq pass members)
    (absent : ¬ members proc)
    (tracks : ∀ other, members other ∨ other = proc → Tracks kernel.procs pass other)
    (near : ∀ left right, members left ∨ left = proc → members right ∨ right = proc →
      Near (pass left) (pass right)) :
    ∃ queued, strideEnqueue kernel proc = .ok queued ∧
      Pooled queued.procs queued.rq pass (fun other => members other ∨ other = proc) ∧
      KeepsProcs kernel.procs queued.procs ∧ queued.current = kernel.current := by
  have inserted := @entries_insert _ (procStrideCompF kernel.procs) kernel.rq.lab6RunPool proc
  refine ⟨_, rfl, ⟨?nodup, ?mem_iff, ?onRq, ?counted, ?ordered⟩, ?keeps, rfl⟩
  case nodup =>
    rw [inserted.nodup_iff, List.nodup_cons, pooled.mem_iff]
    exact ⟨absent, pooled.nodup⟩
  case mem_iff =>
    intro other
    rw [inserted.mem_iff, List.mem_cons, pooled.mem_iff]
    exact Or.comm
  case onRq =>
    intro other member
    by_cases same : other = proc
    · simp [Kernel.updateProc, refillTimeSlice, same]
    · have listed := pooled.onRq other (member.resolve_right same)
      simpa [Kernel.updateProc, same] using listed
  case counted =>
    rw [inserted.length_eq, List.length_cons, ← pooled.counted]
    rfl
  case ordered =>
    apply ordered_insert pooled.ordered
    apply agrees_of_near _ _ tracks near
    · exact fun other member => Or.inl ((pooled.mem_iff other).mp member)
    · exact fun other member => Or.inr (List.mem_singleton.mp member)
  case keeps =>
    apply KeepsProcs.update <;> rfl

/-- The root of the pool is a member with a smallest `pass`. -/
theorem Pooled.root_le {rq : RunQueue} {next : Nat} (pooled : Pooled procs rq pass members)
    (atRoot : rq.lab6RunPool.root = some next) :
    members next ∧ ∀ other, members other → pass next ≤ pass other := by
  obtain ⟨member, least⟩ := pooled.ordered.root_le atRoot
  exact ⟨(pooled.mem_iff next).mp member,
    fun other among => least other ((pooled.mem_iff other).mpr among)⟩

theorem Pooled.root_none {rq : RunQueue} (pooled : Pooled procs rq pass members)
    (noRoot : rq.lab6RunPool.root = none) (proc : Nat) : ¬ members proc := by
  intro member
  have listed := (pooled.mem_iff proc).mpr member
  cases shape : rq.lab6RunPool with
  | null =>
      rw [shape] at listed
      cases listed
  | node entry below below' =>
      rw [shape] at noRoot
      cases noRoot

theorem strideDequeue_pooled {next : Nat} (pooled : Pooled kernel.procs kernel.rq pass members)
    (atRoot : kernel.rq.lab6RunPool.root = some next)
    (tracks : ∀ other, members other ∧ other ≠ next → Tracks kernel.procs pass other)
    (near : ∀ left right, members left ∧ left ≠ next → members right ∧ right ≠ next →
      Near (pass left) (pass right)) :
    ∃ dequeued, strideDequeue kernel next = .ok dequeued ∧
      Pooled dequeued.procs dequeued.rq pass (fun other => members other ∧ other ≠ next) ∧
      dequeued.procs = kernel.procs ∧ dequeued.current = kernel.current := by
  obtain ⟨below, below', shape, removed⟩ :=
    @skewHeapRemove_root _ (procStrideCompF kernel.procs) _ _ _ atRoot
  have merged := @entries_merge _ (procStrideCompF kernel.procs) below below'
  have nodup := pooled.nodup
  have ordered := pooled.ordered
  have counted := pooled.counted
  have listed := pooled.mem_iff
  rw [shape] at nodup ordered counted listed
  simp only [SkewHeap.entries, List.nodup_cons, List.length_cons, List.mem_cons] at nodup counted listed
  have present : members next := (listed next).mp (Or.inl rfl)
  have under : ∀ other, other ∈ below.entries ++ below'.entries ↔ members other ∧ other ≠ next := by
    intro other
    constructor
    · intro member
      exact ⟨(listed other).mp (Or.inr member), fun same => nodup.1 (same ▸ member)⟩
    · rintro ⟨member, apart⟩
      exact ((listed other).mpr member).resolve_left apart
  have answered : (kernel.procs next).onRq = true ∧ kernel.rq.procNum > 0 :=
    ⟨pooled.onRq next present, by omega⟩
  rw [strideDequeue, if_pos answered]
  refine ⟨_, rfl, ?_, rfl, rfl⟩
  refine ⟨?nodup, ?mem_iff, ?onRq, ?counted, ?ordered⟩
  case nodup =>
    rw [removed, merged.nodup_iff]
    exact nodup.2
  case mem_iff =>
    intro other
    rw [removed, merged.mem_iff]
    exact under other
  case onRq =>
    intro other member
    exact pooled.onRq other member.1
  case counted =>
    simp only [removed, merged.length_eq, counted, Nat.add_sub_cancel]
  case ordered =>
    rw [removed]
    apply ordered_merge below below' ordered.2.1 ordered.2.2
    apply agrees_of_near _ _ tracks near
    · exact fun other member => (under other).mp (List.mem_append_left _ member)
    · exact fun other member => (under other).mp (List.mem_append_right _ member)

end UCore.Schedule
