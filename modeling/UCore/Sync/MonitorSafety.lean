import UCore.Lib.Tally
import UCore.Sync.Monitor

/-!
Contract: what a monitor guarantees in every interleaving.

Owns:
- the place of the monitor: with the thread that is active, or handed to one semaphore;
- how each kind of statement moves it;
- the invariant of a run, and what it means for mutual exclusion, signals and the counters.
-/

set_option autoImplicit false

namespace UCore.Sync

open UCore.Lib

namespace MonitorPc

/-- The thread has the monitor: it runs monitor code, or `cond_signal` and `cond_wait` before they
give it up and after they have it back. -/
def active : MonitorPc → Bool
  | outside | inDown _ | signalUpped | waitUpped _ => false
  | inside | signalFound _ | signalCounted _ | signalBack | waitCounted _ | waitTested _ _
  | waitBack _ | leaveTested _ => true

/-- The thread is in `cond_signal` and counted there. -/
def signalling : MonitorPc → Bool
  | signalCounted _ | signalUpped | inDown .next | signalBack => true
  | _ => false

/-- The thread is in `cond_wait` on `cv` and counted there. -/
def waiting (cv : Nat) : MonitorPc → Bool
  | waitCounted other | waitTested other _ | waitUpped other | inDown (.cond other)
  | waitBack other => decide (other = cv)
  | _ => false

/-- A signaller that gave up the monitor and does not have it back. -/
def suspended : MonitorPc → Bool
  | signalUpped | inDown .next => true
  | _ => false

/-- A waiter that gave up the monitor and does not have it back. -/
def asleep (cv : Nat) : MonitorPc → Bool
  | waitUpped other | inDown (.cond other) => decide (other = cv)
  | _ => false

end MonitorPc

/-- The semaphore that the thread is to up next. -/
def MonitorPc.ups : MonitorPc → Option MonitorSem
  | signalCounted cv => some (.cond cv)
  | waitTested _ handBack | leaveTested handBack => some (MonitorState.handTo handBack)
  | _ => none

/-- Where a thread goes on after the `up` it was to do. -/
def MonitorPc.afterUp : MonitorPc → MonitorPc
  | signalCounted _ => signalUpped
  | waitTested cv _ => waitUpped cv
  | _ => outside

/-- The steps of monitor code in which a thread keeps the monitor. -/
inductive MonitorPc.Acts : MonitorPc → MonitorPc → Prop
  | signalsNobody : Acts inside inside
  | finds (cv : Nat) : Acts inside (signalFound cv)
  | counts (cv : Nat) : Acts (signalFound cv) (signalCounted cv)
  | returns : Acts signalBack inside
  | registers (cv : Nat) : Acts inside (waitCounted cv)
  | tests (cv : Nat) (handBack : Bool) : Acts (waitCounted cv) (waitTested cv handBack)
  | wakes (cv : Nat) : Acts (waitBack cv) inside
  | leaves (handBack : Bool) : Acts inside (leaveTested handBack)

/-- The semaphore that the thread is to down next, or is in the `down` of. -/
def MonitorPc.downs : MonitorPc → Option MonitorSem
  | outside => some .mutex
  | signalUpped => some .next
  | waitUpped cv => some (.cond cv)
  | inDown name => some name
  | _ => none

/-- Where the monitor is. -/
inductive Place
  | thread (thread : Nat)
  | sem (name : MonitorSem)

variable {threads : Finset Nat} {state : MonitorState} {place : Place} {thread : Nat}
  {name : MonitorSem} {pc : MonitorPc}

namespace MonitorState

/-- The threads on `sem` are on its queue. -/
def Blocked (state : MonitorState) (name : MonitorSem) : Prop :=
  ∀ thread, state.pc thread = .inDown name → thread ∈ (state.sem name).waitQueue

/-- A semaphore that holds the monitor, as its value or for a thread it released. -/
def Holds (state : MonitorState) (name : MonitorSem) : Prop :=
  ((state.sem name).value = 1 ∧ state.Blocked name) ∨
    ((state.sem name).value = 0 ∧ ∃ thread, state.pc thread = .inDown name ∧
      ∀ other, state.pc other = .inDown name →
        (other ∉ (state.sem name).waitQueue ↔ other = thread))

structure Located (state : MonitorState) (place : Place) : Prop where
  active : ∀ thread, (state.pc thread).active = true ↔ place = .thread thread
  drained : ∀ name, place ≠ .sem name → (state.sem name).value = 0 ∧ state.Blocked name
  holds : ∀ name, place = .sem name → state.Holds name

structure Queues (state : MonitorState) : Prop where
  queued : ∀ name thread, thread ∈ (state.sem name).waitQueue → state.pc thread = .inDown name
  distinct : ∀ name, (state.sem name).waitQueue.Nodup
  idle : ∀ name, 0 < (state.sem name).value → (state.sem name).waitQueue = []

theorem setPc_self : (state.setPc thread pc).pc thread = pc := Function.update_self _ _ _

theorem setPc_of_ne {other : Nat} (apart : other ≠ thread) :
    (state.setPc thread pc).pc other = state.pc other :=
  Function.update_of_ne apart _ _

/-! ## How statements move the monitor -/

section Local

variable (notWaiting : ∀ name, state.pc thread ≠ .inDown name)
include notWaiting

/-- A thread that is in no `down` is on no queue. -/
theorem Queues.setPc (queues : state.Queues) : (state.setPc thread pc).Queues where
  queued name other member := by
    have phase := queues.queued name other member
    have apart : other ≠ thread := fun same => notWaiting name (same ▸ phase)
    rw [setPc_of_ne apart]
    exact phase
  distinct := queues.distinct
  idle := queues.idle

variable (notBlocked : ∀ name, pc ≠ .inDown name)
include notBlocked

theorem inDown_setPc {other : Nat} :
    (state.setPc thread pc).pc other = .inDown name ↔ state.pc other = .inDown name := by
  by_cases same : other = thread
  · subst same
    rw [setPc_self]
    exact iff_of_false (notBlocked name) (notWaiting name)
  · rw [setPc_of_ne same]

theorem blocked_setPc : (state.setPc thread pc).Blocked name ↔ state.Blocked name := by
  unfold Blocked
  simp only [inDown_setPc notWaiting notBlocked]
  rfl

theorem holds_setPc : (state.setPc thread pc).Holds name ↔ state.Holds name := by
  unfold Holds
  simp only [blocked_setPc notWaiting notBlocked, inDown_setPc notWaiting notBlocked]
  rfl

end Local

theorem Located.notWaiting (located : state.Located (.thread thread)) :
    ∀ name, state.pc thread ≠ .inDown name := by
  intro name waits
  have active := (located.active thread).mpr rfl
  rw [waits] at active
  cases active

theorem notWaiting_of_active (active : pc.active = true) : ∀ name, pc ≠ .inDown name := by
  rintro name rfl
  cases active

/-- The active thread goes on with the monitor. -/
theorem Located.keep (located : state.Located (.thread thread)) (active : pc.active = true) :
    (state.setPc thread pc).Located (.thread thread) where
  active other := by
    by_cases same : other = thread
    · subst same
      rw [setPc_self]
      exact iff_of_true active rfl
    · rw [setPc_of_ne same]
      exact located.active other
  drained name elsewhere := by
    rw [blocked_setPc located.notWaiting (notWaiting_of_active active)]
    exact located.drained name elsewhere
  holds name here := nomatch here

theorem setSem_of_ne {sem : Semaphore} {other : MonitorSem} (apart : other ≠ name) :
    (state.setSem name sem).sem other = state.sem other :=
  Function.update_of_ne apart _ _

theorem setSem_self {sem : Semaphore} : (state.setSem name sem).sem name = sem :=
  Function.update_self _ _ _

theorem blocked_setSem_of_ne {sem : Semaphore} {other : MonitorSem} (apart : other ≠ name) :
    (state.setSem name sem).Blocked other ↔ state.Blocked other := by
  unfold Blocked
  rw [setSem_of_ne apart]
  exact Iff.rfl

/-- Without the monitor no thread is released. -/
theorem Queues.up (queues : state.Queues) :
    (state.setSem name (state.sem name).up).Queues := by
  cases waiters : (state.sem name).waitQueue with
  | nil =>
      have after : (state.sem name).up =
          ⟨wrap32 ((state.sem name).value + 1), []⟩ := by
        rw [Semaphore.up, waiters]
      rw [after]
      constructor
      · intro other thread member
        by_cases same : other = name
        · rw [same, setSem_self] at member
          cases member
        · rw [setSem_of_ne same] at member
          exact queues.queued other thread member
      · intro other
        by_cases same : other = name
        · rw [same, setSem_self]
          exact List.nodup_nil
        · rw [setSem_of_ne same]
          exact queues.distinct other
      · intro other
        by_cases same : other = name
        · rw [same, setSem_self]
          exact fun _ => rfl
        · rw [setSem_of_ne same]
          exact queues.idle other
  | cons first rest =>
      have after : (state.sem name).up = ⟨(state.sem name).value, rest⟩ := by
        rw [Semaphore.up, waiters]
      rw [after]
      constructor
      · intro other thread member
        by_cases same : other = name
        · rw [same, setSem_self] at member
          apply queues.queued other thread
          rw [same, waiters]
          exact List.mem_cons_of_mem _ member
        · rw [setSem_of_ne same] at member
          exact queues.queued other thread member
      · intro other
        by_cases same : other = name
        · have distinct := queues.distinct name
          rw [waiters] at distinct
          rw [same, setSem_self]
          exact (List.nodup_cons.mp distinct).2
        · rw [setSem_of_ne same]
          exact queues.distinct other
      · intro other
        by_cases same : other = name
        · intro positive
          rw [same, setSem_self] at positive
          have idle := queues.idle name positive
          rw [waiters] at idle
          cases idle
        · rw [setSem_of_ne same]
          exact queues.idle other

/-- `up` on a semaphore that does not hold the monitor makes it hold the monitor. -/
theorem holds_up (queues : state.Queues) (drained : (state.sem name).value = 0)
    (blocked : state.Blocked name) : (state.setSem name (state.sem name).up).Holds name := by
  unfold Holds Blocked
  rw [setSem_self, Semaphore.up]
  cases waiters : (state.sem name).waitQueue with
  | nil =>
      left
      rw [drained]
      refine ⟨rfl, ?_⟩
      intro thread inDown
      have member := blocked thread inDown
      rw [waiters] at member
      cases member
  | cons first rest =>
      right
      have distinct := queues.distinct name
      rw [waiters] at distinct
      have fresh := (List.nodup_cons.mp distinct).1
      refine ⟨drained, first, queues.queued name first (waiters ▸ List.mem_cons_self), ?_⟩
      intro other inDown
      have member := blocked other inDown
      rw [waiters] at member
      constructor
      · exact fun absent => (List.mem_cons.mp member).resolve_right absent
      · rintro rfl
        exact fresh

/-- The place of the monitor is read off the semaphores and the program counters. -/
theorem Located.congr {after : MonitorState} (located : state.Located place)
    (sems : after.sem = state.sem) (pcs : after.pc = state.pc) : after.Located place := by
  cases after
  cases state
  cases sems
  cases pcs
  exact ⟨located.active, located.drained, located.holds⟩

theorem Queues.congr {after : MonitorState} (queues : state.Queues)
    (sems : after.sem = state.sem) (pcs : after.pc = state.pc) : after.Queues := by
  cases after
  cases state
  cases sems
  cases pcs
  exact ⟨queues.queued, queues.distinct, queues.idle⟩

section Up

variable (queues : state.Queues) (located : state.Located (.thread thread))
  (inactive : pc.active = false) (notBlocked : ∀ other, pc ≠ .inDown other)
include located

theorem Queues.upThen (queues : state.Queues) : (state.upThen thread name pc).Queues :=
  Queues.setPc (fun other => located.notWaiting other) (Queues.up queues)

include queues inactive notBlocked

/-- The active thread hands the monitor to a semaphore. -/
theorem Located.handOver : (state.upThen thread name pc).Located (.sem name) where
  active other := by
    apply iff_of_false _ nofun
    by_cases same : other = thread
    · subst same
      rw [upThen, setPc_self, inactive]
      exact nofun
    · rw [upThen, setPc_of_ne same]
      intro active
      have here := (located.active other).mp active
      exact same (Place.thread.inj here).symm
  drained other elsewhere := by
    have apart : other ≠ name := fun same => elsewhere (by rw [same])
    have still : ∀ other, (state.setSem name (state.sem name).up).pc thread ≠ .inDown other :=
      located.notWaiting
    obtain ⟨value, blocked⟩ := located.drained other nofun
    rw [upThen, blocked_setPc still notBlocked, blocked_setSem_of_ne apart]
    refine ⟨?_, blocked⟩
    show ((state.setSem name _).sem other).value = 0
    rw [setSem_of_ne apart]
    exact value
  holds other here := by
    obtain rfl := Place.sem.inj here
    have still : ∀ other, (state.setSem name (state.sem name).up).pc thread ≠ .inDown other :=
      located.notWaiting
    obtain ⟨value, blocked⟩ := located.drained name nofun
    rw [upThen, holds_setPc still notBlocked]
    exact holds_up queues value blocked

end Up

theorem active_returnPoint : (returnPoint name).active = true := by
  cases name <;> rfl

/-- `thread` is put at the end of the queue. -/
def enqueue (state : MonitorState) (thread : Nat) (name : MonitorSem) : MonitorState :=
  (state.setSem name { state.sem name with
    waitQueue := (state.sem name).waitQueue ++ [thread] }).setPc thread (.inDown name)

/-- A thread takes the monitor from the semaphore that holds it, as its value. -/
theorem Located.take (queues : state.Queues) (located : state.Located place)
    (notWaiting : ∀ other, state.pc thread ≠ .inDown other) (token : (state.sem name).value > 0) :
    place = .sem name ∧
      state.enterDown thread name =
        (state.setSem name ⟨0, []⟩).setPc thread (returnPoint name) ∧
      (state.enterDown thread name).Located (.thread thread) ∧
      (state.enterDown thread name).Queues := by
  have here : place = .sem name := by
    by_contra elsewhere
    have drained := (located.drained name elsewhere).1
    omega
  have idle := queues.idle name token
  rcases located.holds name here with ⟨value, blocked⟩ | ⟨value, _⟩
  · have after : state.enterDown thread name =
        (state.setSem name ⟨0, []⟩).setPc thread (returnPoint name) := by
      unfold enterDown Semaphore.down
      rw [if_pos token]
      simp only [value, idle]
      rfl
    have noWaiter : ∀ other, state.pc other ≠ .inDown name := by
      intro other inDown
      have member := blocked other inDown
      rw [idle] at member
      cases member
    have notBlocked : ∀ other, returnPoint name ≠ .inDown other :=
      notWaiting_of_active active_returnPoint
    have still : ∀ other, (state.setSem name ⟨0, []⟩).pc thread ≠ .inDown other := notWaiting
    refine ⟨here, after, ?_, ?_⟩
    · rw [after]
      constructor
      · intro other
        by_cases same : other = thread
        · subst same
          rw [setPc_self]
          exact iff_of_true active_returnPoint rfl
        · rw [setPc_of_ne same]
          have before := located.active other
          rw [here] at before
          show (state.pc other).active = true ↔ _
          rw [before]
          exact iff_of_false nofun fun equal => same (Place.thread.inj equal).symm
      · intro other _
        rw [blocked_setPc still notBlocked]
        by_cases same : other = name
        · subst same
          refine ⟨congrArg Semaphore.value setSem_self, ?_⟩
          exact fun waiter inDown => absurd inDown (noWaiter waiter)
        · rw [blocked_setSem_of_ne same]
          have elsewhere : place ≠ .sem other := by
            rw [here]
            exact fun equal => same (Place.sem.inj equal).symm
          obtain ⟨value, blocked⟩ := located.drained other elsewhere
          exact ⟨(congrArg Semaphore.value (setSem_of_ne same)).trans value, blocked⟩
      · intro other impossible
        cases impossible
    · rw [after]
      apply Queues.setPc still
      constructor
      · intro other waiter member
        by_cases same : other = name
        · rw [same, setSem_self] at member
          cases member
        · rw [setSem_of_ne same] at member
          exact queues.queued other waiter member
      · intro other
        by_cases same : other = name
        · rw [same, setSem_self]
          exact List.nodup_nil
        · rw [setSem_of_ne same]
          exact queues.distinct other
      · intro other
        by_cases same : other = name
        · rw [same, setSem_self]
          exact fun _ => rfl
        · rw [setSem_of_ne same]
          exact queues.idle other
  · omega

/-- A thread queues itself on a semaphore that has no value. -/
theorem enterDown_wait (noToken : ¬ (state.sem name).value > 0) :
    state.enterDown thread name = state.enqueue thread name := by
  unfold enterDown enqueue Semaphore.down
  rw [if_neg noToken]

section Wait

variable (notWaiting : ∀ other, state.pc thread ≠ .inDown other)

theorem enqueue_pc {other : Nat} {sem : MonitorSem} :
    (state.enqueue thread name).pc other = .inDown sem ↔
      (other = thread ∧ sem = name) ∨ (other ≠ thread ∧ state.pc other = .inDown sem) := by
  by_cases same : other = thread
  · subst same
    simp only [enqueue, setPc_self, MonitorPc.inDown.injEq, true_and, ne_eq, not_true_eq_false,
      false_and, or_false]
    exact eq_comm
  · simp only [enqueue, setPc_of_ne same, same, false_and, ne_eq, not_false_eq_true, true_and,
      false_or]
    exact Iff.rfl

theorem enqueue_sem_self : (state.enqueue thread name).sem name =
    { state.sem name with waitQueue := (state.sem name).waitQueue ++ [thread] } :=
  setSem_self

theorem enqueue_sem_of_ne {other : MonitorSem} (apart : other ≠ name) :
    (state.enqueue thread name).sem other = state.sem other :=
  setSem_of_ne apart

/-- Who is on the queue of `name` afterwards. -/
theorem mem_enqueue {other : Nat} :
    other ∈ ((state.enqueue thread name).sem name).waitQueue ↔
      other ∈ (state.sem name).waitQueue ∨ other = thread := by
  rw [enqueue_sem_self]
  simp

theorem Blocked.enqueue {other : MonitorSem} (blocked : state.Blocked other) :
    (state.enqueue thread name).Blocked other := by
  intro waiter inDown
  by_cases same : other = name
  · subst same
    apply mem_enqueue.mpr
    rcases enqueue_pc.mp inDown with new | old
    · exact Or.inr new.1
    · exact Or.inl (blocked waiter old.2)
  · rw [enqueue_sem_of_ne same]
    rcases enqueue_pc.mp inDown with new | old
    · exact absurd new.2 same
    · exact blocked waiter old.2

include notWaiting

theorem Queues.enqueue (queues : state.Queues) (noToken : ¬ (state.sem name).value > 0) :
    (state.enqueue thread name).Queues where
  queued other waiter member := by
    apply enqueue_pc.mpr
    by_cases same : other = name
    · rw [same, enqueue_sem_self] at member
      rcases List.mem_append.mp member with old | new
      · right
        have phase := queues.queued name waiter old
        refine ⟨?_, same ▸ phase⟩
        intro equal
        exact notWaiting name (equal ▸ phase)
      · exact Or.inl ⟨List.mem_singleton.mp new, same⟩
    · right
      rw [enqueue_sem_of_ne same] at member
      have phase := queues.queued other waiter member
      refine ⟨?_, phase⟩
      intro equal
      exact notWaiting other (equal ▸ phase)
  distinct other := by
    by_cases same : other = name
    · rw [same, enqueue_sem_self]
      apply List.nodup_append.mpr
      refine ⟨queues.distinct name, List.nodup_singleton thread, ?_⟩
      intro waiter old fresh new equal
      have phase := queues.queued name waiter old
      rw [equal, List.mem_singleton.mp new] at phase
      exact notWaiting name phase
    · rw [enqueue_sem_of_ne same]
      exact queues.distinct other
  idle other positive := by
    by_cases same : other = name
    · rw [same, enqueue_sem_self] at positive
      exact absurd positive noToken
    · rw [enqueue_sem_of_ne same] at positive ⊢
      exact queues.idle other positive

/-- A thread that queues itself leaves the monitor where it is. -/
theorem Located.enqueue (located : state.Located place)
    (inactive : (state.pc thread).active = false) (noToken : ¬ (state.sem name).value > 0) :
    (state.enqueue thread name).Located place where
  active other := by
    rw [← located.active other]
    by_cases same : other = thread
    · subst same
      rw [MonitorState.enqueue, setPc_self, inactive]
      exact Iff.rfl
    · rw [MonitorState.enqueue, setPc_of_ne same]
      exact Iff.rfl
  drained other elsewhere := by
    obtain ⟨value, blocked⟩ := located.drained other elsewhere
    refine ⟨?_, Blocked.enqueue blocked⟩
    by_cases same : other = name
    · subst same
      rw [enqueue_sem_self]
      exact value
    · rw [enqueue_sem_of_ne same]
      exact value
  holds other here := by
    rcases located.holds other here with ⟨value, blocked⟩ | ⟨value, released, phase, only⟩
    · left
      have apart : other ≠ name := by
        rintro rfl
        omega
      refine ⟨?_, Blocked.enqueue blocked⟩
      rw [enqueue_sem_of_ne apart]
      exact value
    · right
      have apart : released ≠ thread := by
        rintro rfl
        exact notWaiting other phase
      by_cases same : other = name
      · subst same
        refine ⟨?_, released, enqueue_pc.mpr (Or.inr ⟨apart, phase⟩), ?_⟩
        · rw [enqueue_sem_self]
          exact value
        · intro waiter inDown
          rw [mem_enqueue]
          rcases enqueue_pc.mp inDown with ⟨equal, _⟩ | ⟨differs, old⟩
          · subst equal
            exact iff_of_false (fun absent => absent (Or.inr rfl)) apart.symm
          · rw [← only waiter old]
            exact not_congr (or_iff_left differs)
      · refine ⟨?_, released, enqueue_pc.mpr (Or.inr ⟨apart, phase⟩), ?_⟩
        · rw [enqueue_sem_of_ne same]
          exact value
        · intro waiter inDown
          rw [enqueue_sem_of_ne same]
          rcases enqueue_pc.mp inDown with ⟨_, equal⟩ | ⟨_, old⟩
          · exact absurd equal same
          · exact only waiter old

end Wait

/-- The released thread goes on with the monitor. -/
theorem Located.release (queues : state.Queues) (located : state.Located place)
    (inDown : state.pc thread = .inDown name) (released : thread ∉ (state.sem name).waitQueue) :
    place = .sem name ∧
      (state.setPc thread (returnPoint name)).Located (.thread thread) ∧
      (state.setPc thread (returnPoint name)).Queues := by
  have here : place = .sem name := by
    by_contra elsewhere
    exact released ((located.drained name elsewhere).2 thread inDown)
  have notBlocked : ∀ other, returnPoint name ≠ .inDown other :=
    notWaiting_of_active active_returnPoint
  have shrinks : ∀ other waiter,
      (state.setPc thread (returnPoint name)).pc waiter = .inDown other →
        waiter ≠ thread ∧ state.pc waiter = .inDown other := by
    intro other waiter phase
    by_cases same : waiter = thread
    · subst same
      rw [setPc_self] at phase
      exact absurd phase (notBlocked other)
    · rw [setPc_of_ne same] at phase
      exact ⟨same, phase⟩
  refine ⟨here, ?_, ?_⟩
  · constructor
    · intro other
      by_cases same : other = thread
      · subst same
        rw [setPc_self]
        exact iff_of_true active_returnPoint rfl
      · rw [setPc_of_ne same, located.active other, here]
        exact iff_of_false nofun fun equal => same (Place.thread.inj equal).symm
    · intro other _
      by_cases same : other = name
      · subst same
        rcases located.holds other here with ⟨_, blocked⟩ | ⟨value, only, _, unique⟩
        · exact absurd (blocked thread inDown) released
        · refine ⟨value, ?_⟩
          intro waiter phase
          obtain ⟨apart, old⟩ := shrinks other waiter phase
          by_contra absent
          have first := (unique waiter old).mp absent
          have second := (unique thread inDown).mp released
          exact apart (first.trans second.symm)
      · have elsewhere : place ≠ .sem other := by
          rw [here]
          exact fun equal => same (Place.sem.inj equal).symm
        obtain ⟨value, blocked⟩ := located.drained other elsewhere
        refine ⟨value, ?_⟩
        intro waiter phase
        exact blocked waiter (shrinks other waiter phase).2
    · intro other impossible
      cases impossible
  · constructor
    · intro other waiter member
      have phase := queues.queued other waiter member
      have apart : waiter ≠ thread := by
        rintro rfl
        rw [inDown] at phase
        cases phase
        exact released member
      rw [setPc_of_ne apart]
      exact phase
    · exact queues.distinct
    · exact queues.idle

end MonitorState

/-! ## The counters -/

/-- What a thread has read of the counters and not yet acted on. -/
def Remembers (state : MonitorState) : MonitorPc → Prop
  | .signalFound cv | .signalCounted cv => 0 < state.count cv
  | .waitTested _ handBack | .leaveTested handBack => handBack = decide (state.nextCount > 0)
  | _ => True

theorem remembers_of_inactive (inactive : pc.active = false) : Remembers state pc := by
  cases pc <;> trivial

/-- What a semaphore that holds the monitor says about the counters. -/
def Backed (state : MonitorState) : MonitorSem → Prop
  | .mutex => state.nextCount = 0
  | .next => 0 < state.nextCount
  | .cond cv => 0 < state.count cv

/-- The invariant of the monitor. -/
structure MonitorInvariant (threads : Finset Nat) (state : MonitorState) (place : Place) :
    Prop where
  located : state.Located place
  queues : state.Queues
  outside : ∀ thread, thread ∉ threads → state.pc thread = .outside
  nextCount : state.nextCount = tally threads state.pc MonitorPc.signalling
  count : ∀ cv, state.count cv = tally threads state.pc (MonitorPc.waiting cv)
  remembers : ∀ thread, Remembers state (state.pc thread)
  backed : ∀ name, place = .sem name → Backed state name

namespace MonitorInvariant

open MonitorState

variable {after : MonitorState}

/-- The threads that are not in the monitor stay outside when one of `threads` moves. -/
theorem outside_update (invariant : MonitorInvariant threads state place)
    (member : thread ∈ threads) (moved : after.pc = Function.update state.pc thread pc) :
    ∀ other, other ∉ threads → after.pc other = .outside := by
  intro other absent
  have apart : other ≠ thread := fun same => absent (same ▸ member)
  rw [moved, Function.update_of_ne apart]
  exact invariant.outside other absent

/-- The counters after one thread moves. -/
theorem counted (invariant : MonitorInvariant threads state place) (member : thread ∈ threads)
    (moved : after.pc = Function.update state.pc thread pc)
    (nextCount : after.nextCount = state.nextCount -
      share MonitorPc.signalling (state.pc thread) + share MonitorPc.signalling pc)
    (count : ∀ cv, after.count cv = state.count cv -
      share (MonitorPc.waiting cv) (state.pc thread) + share (MonitorPc.waiting cv) pc) :
    after.nextCount = tally threads after.pc MonitorPc.signalling ∧
      ∀ cv, after.count cv = tally threads after.pc (MonitorPc.waiting cv) := by
  constructor
  · rw [moved, tally_update member, ← invariant.nextCount]
    exact nextCount
  · intro cv
    rw [moved, tally_update member, ← invariant.count cv]
    exact count cv

/-- After a step in which `thread` has the monitor. -/
theorem has (invariant : MonitorInvariant threads state place) (member : thread ∈ threads)
    (located : after.Located (.thread thread)) (queues : after.Queues)
    (moved : after.pc = Function.update state.pc thread pc)
    (nextCount : after.nextCount = state.nextCount -
      share MonitorPc.signalling (state.pc thread) + share MonitorPc.signalling pc)
    (count : ∀ cv, after.count cv = state.count cv -
      share (MonitorPc.waiting cv) (state.pc thread) + share (MonitorPc.waiting cv) pc)
    (remembers : Remembers after pc) : MonitorInvariant threads after (.thread thread) where
  located := located
  queues := queues
  outside := outside_update invariant member moved
  nextCount := (counted invariant member moved nextCount count).1
  count := (counted invariant member moved nextCount count).2
  remembers other := by
    by_cases same : other = thread
    · rw [same, moved, Function.update_self]
      exact remembers
    · apply remembers_of_inactive
      apply Bool.eq_false_iff.mpr
      intro active
      exact same (Place.thread.inj ((located.active other).mp active)).symm
  backed name here := nomatch here

/-- After a step with which a semaphore holds the monitor. -/
theorem hands (invariant : MonitorInvariant threads state place) (member : thread ∈ threads)
    (located : after.Located (.sem name)) (queues : after.Queues)
    (moved : after.pc = Function.update state.pc thread pc)
    (nextCount : after.nextCount = state.nextCount -
      share MonitorPc.signalling (state.pc thread) + share MonitorPc.signalling pc)
    (count : ∀ cv, after.count cv = state.count cv -
      share (MonitorPc.waiting cv) (state.pc thread) + share (MonitorPc.waiting cv) pc)
    (backed : Backed after name) : MonitorInvariant threads after (.sem name) where
  located := located
  queues := queues
  outside := outside_update invariant member moved
  nextCount := (counted invariant member moved nextCount count).1
  count := (counted invariant member moved nextCount count).2
  remembers other := by
    apply remembers_of_inactive
    apply Bool.eq_false_iff.mpr
    intro active
    cases (located.active other).mp active
  backed other here := by
    obtain rfl := Place.sem.inj here
    exact backed

/-- After a step in which `thread` queues itself. -/
theorem waits (invariant : MonitorInvariant threads state place) (member : thread ∈ threads)
    (inactive : (state.pc thread).active = false)
    (notWaiting : ∀ other, state.pc thread ≠ .inDown other)
    (noToken : ¬ (state.sem name).value > 0)
    (signalling : MonitorPc.signalling (.inDown name) = (state.pc thread).signalling)
    (waiting : ∀ cv, MonitorPc.waiting cv (.inDown name) = (state.pc thread).waiting cv) :
    MonitorInvariant threads (state.enqueue thread name) place := by
  have counters : (state.enqueue thread name).nextCount =
      tally threads (state.enqueue thread name).pc MonitorPc.signalling ∧
        ∀ cv, (state.enqueue thread name).count cv =
          tally threads (state.enqueue thread name).pc (MonitorPc.waiting cv) := by
    apply counted invariant member rfl
    · show state.nextCount = _
      unfold share
      rw [signalling]
      omega
    · intro cv
      show state.count cv = _
      unfold share
      rw [waiting cv]
      omega
  constructor
  · exact Located.enqueue notWaiting invariant.located inactive noToken
  · exact Queues.enqueue notWaiting invariant.queues noToken
  · exact outside_update invariant member rfl
  · exact counters.1
  · exact counters.2
  · intro other
    by_cases same : other = thread
    · subst same
      rw [MonitorState.enqueue, setPc_self]
      trivial
    · rw [MonitorState.enqueue, setPc_of_ne same]
      exact invariant.remembers other
  · exact invariant.backed

/-- After a step of monitor code. -/
theorem acts (invariant : MonitorInvariant threads state (.thread thread))
    (member : thread ∈ threads) (active : pc.active = true) (sems : after.sem = state.sem)
    (moved : after.pc = Function.update state.pc thread pc)
    (nextCount : after.nextCount = state.nextCount -
      share MonitorPc.signalling (state.pc thread) + share MonitorPc.signalling pc)
    (count : ∀ cv, after.count cv = state.count cv -
      share (MonitorPc.waiting cv) (state.pc thread) + share (MonitorPc.waiting cv) pc)
    (remembers : Remembers after pc) : MonitorInvariant threads after (.thread thread) := by
  apply has invariant member _ _ moved nextCount count remembers
  · exact Located.congr (invariant.located.keep active) sems moved
  · exact Queues.congr (invariant.queues.setPc invariant.located.notWaiting) sems moved

end MonitorInvariant

/-- What a step of `thread` does with the monitor. -/
inductive MonitorStep (state : MonitorState) (thread : Nat) (after : MonitorState) :
    Place → Place → Prop
  | acts (pc : MonitorPc) (acts : (state.pc thread).Acts pc)
      (moved : after.pc = Function.update state.pc thread pc) :
      MonitorStep state thread after (.thread thread) (.thread thread)
  | gives (name : MonitorSem) (ups : (state.pc thread).ups = some name)
      (moved : after.pc = Function.update state.pc thread (state.pc thread).afterUp) :
      MonitorStep state thread after (.thread thread) (.sem name)
  | takes (name : MonitorSem) (downs : (state.pc thread).downs = some name)
      (moved : after.pc = Function.update state.pc thread (MonitorState.returnPoint name)) :
      MonitorStep state thread after (.sem name) (.thread thread)
  | waits (name : MonitorSem) (place : Place) (downs : (state.pc thread).downs = some name)
      (moved : after.pc = Function.update state.pc thread (.inDown name)) :
      MonitorStep state thread after place place

namespace MonitorInvariant

open MonitorState

variable {after : MonitorState}

/-- The thread that is to up `name`. -/
theorem gives (name : MonitorSem) (invariant : MonitorInvariant threads state (.thread thread))
    (member : thread ∈ threads) (ups : (state.pc thread).ups = some name)
    (backed : Backed state name) :
    ∃ place', MonitorInvariant threads
        (state.upThen thread name (state.pc thread).afterUp) place' ∧
      MonitorStep state thread (state.upThen thread name (state.pc thread).afterUp)
        (.thread thread) place' := by
  have inactive : (state.pc thread).afterUp.active = false := by
    cases state.pc thread <;> rfl
  have notBlocked : ∀ other, (state.pc thread).afterUp ≠ .inDown other := by
    intro other
    cases state.pc thread <;> exact nofun
  have signalling : (state.pc thread).afterUp.signalling = (state.pc thread).signalling := by
    cases phase : state.pc thread <;> rw [phase] at ups <;> first | rfl | cases ups
  have waiting : ∀ cv, (state.pc thread).afterUp.waiting cv = (state.pc thread).waiting cv := by
    intro cv
    cases phase : state.pc thread <;> rw [phase] at ups <;> first | rfl | cases ups
  refine ⟨.sem name, ?_, .gives name ups rfl⟩
  apply hands invariant member _ _ rfl
  · show state.nextCount = _
    unfold share
    rw [signalling]
    omega
  · intro cv
    show state.count cv = _
    unfold share
    rw [waiting cv]
    omega
  · exact backed
  · exact Located.handOver invariant.queues invariant.located inactive notBlocked
  · exact Queues.upThen invariant.located invariant.queues

/-- After a step of monitor code that changes no counter. -/
theorem goesOn (pc : MonitorPc) (invariant : MonitorInvariant threads state (.thread thread))
    (member : thread ∈ threads) (acts : (state.pc thread).Acts pc) (active : pc.active = true)
    (signalling : pc.signalling = (state.pc thread).signalling)
    (waiting : ∀ cv, pc.waiting cv = (state.pc thread).waiting cv)
    (remembers : Remembers state pc) :
    ∃ place', MonitorInvariant threads (state.setPc thread pc) place' ∧
      MonitorStep state thread (state.setPc thread pc) (.thread thread) place' := by
  refine ⟨.thread thread, ?_, .acts pc acts rfl⟩
  apply @MonitorInvariant.acts _ _ _ _ (state.setPc thread pc) invariant member active rfl rfl
  · show state.nextCount = _
    unfold share
    rw [signalling]
    omega
  · intro cv
    show state.count cv = _
    unfold share
    rw [waiting cv]
    omega
  · cases pc <;> exact remembers

theorem returnPoint_signalling : (returnPoint name).signalling =
    MonitorPc.signalling (.inDown name) := by
  cases name <;> rfl

theorem returnPoint_waiting {cv : Nat} : (returnPoint name).waiting cv =
    MonitorPc.waiting cv (.inDown name) := by
  cases name <;> rfl

theorem remembers_returnPoint : Remembers after (returnPoint name) := by
  cases name <;> trivial

/-- The thread that calls `down` on `name`. -/
theorem downs (invariant : MonitorInvariant threads state place) (member : thread ∈ threads)
    (downs : (state.pc thread).downs = some name)
    (notWaiting : ∀ other, state.pc thread ≠ .inDown other) :
    ∃ place', MonitorInvariant threads (state.enterDown thread name) place' ∧
      MonitorStep state thread (state.enterDown thread name) place place' := by
  have inactive : (state.pc thread).active = false := by
    cases phase : state.pc thread <;> rw [phase] at downs <;> first | rfl | cases downs
  have signalling : MonitorPc.signalling (.inDown name) = (state.pc thread).signalling := by
    cases phase : state.pc thread <;> rw [phase] at downs <;> cases downs <;> rfl
  have waiting : ∀ cv, MonitorPc.waiting cv (.inDown name) = (state.pc thread).waiting cv := by
    intro cv
    cases phase : state.pc thread <;> rw [phase] at downs <;> cases downs <;> rfl
  by_cases token : (state.sem name).value > 0
  · obtain ⟨here, entered, located, queues⟩ :=
      Located.take invariant.queues invariant.located notWaiting token
    subst here
    refine ⟨.thread thread, ?_, .takes name downs (congrArg MonitorState.pc entered)⟩
    apply has invariant member located queues (congrArg MonitorState.pc entered)
    · rw [entered]
      show state.nextCount = _
      unfold share
      rw [returnPoint_signalling, signalling]
      omega
    · intro cv
      rw [entered]
      show state.count cv = _
      unfold share
      rw [returnPoint_waiting, waiting]
      omega
    · exact remembers_returnPoint
  · rw [enterDown_wait token]
    exact ⟨place, waits invariant member inactive notWaiting token signalling waiting,
      .waits name place downs rfl⟩

/-- The thread that `up` released goes on. -/
theorem released (invariant : MonitorInvariant threads state place) (member : thread ∈ threads)
    (inDown : state.pc thread = .inDown name)
    (free : thread ∉ (state.sem name).waitQueue) :
    ∃ place', MonitorInvariant threads (state.setPc thread (returnPoint name)) place' ∧
      MonitorStep state thread (state.setPc thread (returnPoint name)) place place' := by
  obtain ⟨here, located, queues⟩ :=
    Located.release invariant.queues invariant.located inDown free
  subst here
  refine ⟨.thread thread, ?_, .takes name (by rw [inDown]; rfl) rfl⟩
  apply has invariant member located queues rfl
  · show state.nextCount = _
    unfold share
    rw [returnPoint_signalling, inDown]
    omega
  · intro cv
    show state.count cv = _
    unfold share
    rw [returnPoint_waiting, inDown]
    omega
  · exact remembers_returnPoint

/-- The place of the monitor when the thread `thread` is active. -/
theorem place_of_active (invariant : MonitorInvariant threads state place)
    (active : (state.pc thread).active = true) : place = .thread thread :=
  (invariant.located.active thread).mp active

/-- The semaphore that an active thread is to up answers to the counters. -/
theorem backed_of_ups (invariant : MonitorInvariant threads state place)
    (ups : (state.pc thread).ups = some name) : Backed state name := by
  have remembered := invariant.remembers thread
  have nonneg : 0 ≤ state.nextCount := by
    rw [invariant.nextCount]
    exact Int.natCast_nonneg _
  cases phase : state.pc thread <;> rw [phase] at ups remembered <;> cases ups
  case signalCounted cv => exact remembered
  case waitTested cv handBack =>
      subst remembered
      by_cases suspended : state.nextCount > 0
      · rw [decide_eq_true suspended]
        exact suspended
      · rw [decide_eq_false suspended]
        exact le_antisymm (not_lt.mp suspended) nonneg
  case leaveTested handBack =>
      subst remembered
      by_cases suspended : state.nextCount > 0
      · rw [decide_eq_true suspended]
        exact suspended
      · rw [decide_eq_false suspended]
        exact le_antisymm (not_lt.mp suspended) nonneg

/-- The next statement of a thread that is neither outside nor idle inside. -/
theorem resume (invariant : MonitorInvariant threads state place) (member : thread ∈ threads)
    (elsewhere : state.pc thread ≠ .outside) (busy : state.pc thread ≠ .inside)
    (free : ∀ name, state.pc thread = .inDown name → thread ∉ (state.sem name).waitQueue) :
    ∃ place', MonitorInvariant threads (state.resume thread) place' ∧
      MonitorStep state thread (state.resume thread) place place' := by
  have here : (state.pc thread).active = true → place = .thread thread :=
    fun active => place_of_active invariant active
  have backed : ∀ name, (state.pc thread).ups = some name → Backed state name :=
    fun name ups => backed_of_ups invariant ups
  have waits : ∀ name, (state.pc thread).downs = some name →
      (∀ other, state.pc thread ≠ .inDown other) →
      ∃ place', MonitorInvariant threads (state.enterDown thread name) place' ∧
        MonitorStep state thread (state.enterDown thread name) place place' :=
    fun name => downs invariant member
  have remembered := invariant.remembers thread
  unfold MonitorState.resume
  cases phase : state.pc thread with
  | outside => exact absurd phase elsewhere
  | inside => exact absurd phase busy
  | inDown name => exact released invariant member phase (free name phase)
  | signalFound cv =>
      rw [phase] at here remembered
      obtain rfl := here rfl
      refine ⟨_, acts invariant member rfl rfl rfl ?_ ?_ remembered, .acts _ (by rw [phase]; exact .counts cv) rfl⟩
      · rw [phase]
        show state.nextCount + 1 = state.nextCount - share _ _ + share _ _
        simp [share, MonitorPc.signalling]
      · intro other
        rw [phase]
        show state.count other = state.count other - share _ _ + share _ _
        simp [share, MonitorPc.waiting]
  | signalCounted cv =>
      rw [phase] at here
      obtain rfl := here rfl
      have ups : (state.pc thread).ups = some (.cond cv) := by rw [phase]; rfl
      have moved := gives (.cond cv) invariant member ups (backed _ ups)
      rwa [phase] at moved
  | signalUpped => exact waits .next (by rw [phase]; rfl) (by rw [phase]; rintro _ ⟨⟩)
  | signalBack =>
      rw [phase] at here
      obtain rfl := here rfl
      refine ⟨_, acts invariant member rfl rfl rfl ?_ ?_ trivial, .acts _ (by rw [phase]; exact .returns) rfl⟩
      · rw [phase]
        show state.nextCount - 1 = state.nextCount - share _ _ + share _ _
        simp [share, MonitorPc.signalling]
      · intro other
        rw [phase]
        show state.count other = state.count other - share _ _ + share _ _
        simp [share, MonitorPc.waiting]
  | waitCounted cv =>
      rw [phase] at here
      obtain rfl := here rfl
      apply goesOn (.waitTested cv (decide (state.nextCount > 0))) invariant member (by rw [phase]; exact (.tests cv _)) rfl (by rw [phase]; rfl) _ rfl
      intro other
      rw [phase]
      rfl
  | waitTested cv handBack =>
      rw [phase] at here
      obtain rfl := here rfl
      have ups : (state.pc thread).ups = some (handTo handBack) := by rw [phase]; rfl
      have moved := gives (handTo handBack) invariant member ups (backed _ ups)
      rwa [phase] at moved
  | waitUpped cv =>
      exact waits (.cond cv) (by rw [phase]; rfl) (by rw [phase]; rintro _ ⟨⟩)
  | waitBack cv =>
      rw [phase] at here
      obtain rfl := here rfl
      refine ⟨_, acts invariant member rfl rfl rfl ?_ ?_ trivial, .acts _ (by rw [phase]; exact .wakes cv) rfl⟩
      · rw [phase]
        show state.nextCount = state.nextCount - share _ _ + share _ _
        simp [share, MonitorPc.signalling]
      · intro other
        rw [phase]
        show Function.update state.count cv (state.count cv - 1) other =
          state.count other - share _ _ + share _ _
        unfold share MonitorPc.waiting
        by_cases same : other = cv
        · subst same
          simp
        · rw [Function.update_of_ne same]
          simp [Ne.symm same]
  | leaveTested handBack =>
      rw [phase] at here
      obtain rfl := here rfl
      have ups : (state.pc thread).ups = some (handTo handBack) := by rw [phase]; rfl
      have moved := gives (handTo handBack) invariant member ups (backed _ ups)
      rwa [phase] at moved

/-- Every step keeps the invariant. -/
theorem step {event : Nat × MonitorAction} (invariant : MonitorInvariant threads state place)
    (step : (monitorMachine threads).Step state event after) :
    ∃ place', MonitorInvariant threads after place' ∧
      MonitorStep state event.1 after place place' := by
  obtain ⟨⟨member, admitted⟩, answered⟩ := step
  obtain rfl := Except.ok.inj answered
  obtain ⟨thread, action⟩ := event
  have here : (state.pc thread).active = true → place = .thread thread :=
    fun active => place_of_active invariant active
  cases action with
  | enter =>
      have phase : state.pc thread = .outside := admitted
      exact downs invariant member (by rw [phase]; rfl) (by rw [phase]; rintro _ ⟨⟩)
  | condSignal cv =>
      have phase : state.pc thread = .inside := admitted
      rw [phase] at here
      obtain rfl := here rfl
      by_cases found : state.count cv > 0
      · rw [show state.answer (thread, .condSignal cv) = state.setPc thread (.signalFound cv) from
          if_pos found]
        exact goesOn (.signalFound cv) invariant member (by rw [phase]; exact .finds cv) rfl
          (by rw [phase]; rfl) (fun other => by rw [phase]; rfl) found
      · rw [show state.answer (thread, .condSignal cv) = state from if_neg found]
        refine ⟨_, invariant, .acts .inside (by rw [phase]; exact .signalsNobody) ?_⟩
        rw [← phase, Function.update_eq_self]
  | condWait cv =>
      have phase : state.pc thread = .inside := admitted
      rw [phase] at here
      obtain rfl := here rfl
      refine ⟨_, acts invariant member rfl rfl rfl ?_ ?_ trivial, .acts _ (by rw [phase]; exact .registers cv) rfl⟩
      · rw [phase]
        show state.nextCount = state.nextCount - share _ _ + share _ _
        simp [share, MonitorPc.signalling]
      · intro other
        rw [phase]
        show Function.update state.count cv (state.count cv + 1) other =
          state.count other - share _ _ + share _ _
        unfold share MonitorPc.waiting
        by_cases same : other = cv
        · subst same
          simp
        · rw [Function.update_of_ne same]
          simp [Ne.symm same]
  | leave =>
      have phase : state.pc thread = .inside := admitted
      rw [phase] at here
      obtain rfl := here rfl
      apply goesOn (.leaveTested (decide (state.nextCount > 0))) invariant member (by rw [phase]; exact (.leaves _)) rfl (by rw [phase]; rfl) _ rfl
      intro other
      rw [phase]
      rfl
  | resume => exact resume invariant member admitted.1 admitted.2.1 admitted.2.2

end MonitorInvariant

end UCore.Sync
