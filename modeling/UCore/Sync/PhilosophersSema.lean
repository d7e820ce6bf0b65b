import UCore.Sync.Mutex
import UCore.Sync.Philosophers

/-!
Contract: the dining philosophers with semaphores, `philosopher_using_semaphore` of
`kern/sync/check_sync.c`.

Owns:
- the code of the philosophers, with every access to `state_sema` and every call of `up` or `down`
  a step of its own;
- the invariant that every step keeps, in any order of the threads and for any number of rounds.

A philosopher that `down` has put on a queue goes on once it is off that queue. `do_sleep` is that a
philosopher takes its next step later. The record of transitions and wakeups is not in the source,
and nothing reads it.
-/

set_option autoImplicit false

namespace UCore.Sync.Philosophers

open UCore.Lib

/-! ## The code -/

/-- Where a philosopher is. -/
inductive SemaPc
  | thinking
  /-- `down(&mutex)` of `phi_take_forks_sema` has put the thread on the queue -/
  | takeQueued
  | takeEntered
  | test (stage : TestStage) (caller : Caller)
  | takeUp
  | takeDown
  /-- `down(&s[i])` has put the thread on the queue -/
  | takeWaits
  /-- `phi_take_forks_sema` has returned -/
  | eating
  /-- `down(&mutex)` of `phi_put_forks_sema` has put the thread on the queue -/
  | putQueued
  | putEntered
  | putUp
deriving DecidableEq, Repr

/-- `state_sema`, `mutex` and `s`, with the philosophers and the record of what happens to each. -/
structure SemaTable where
  state : Nat → PhiState
  mutex : Semaphore
  s : Nat → Semaphore
  pc : Nat → SemaPc
  marks : Nat → List Mark

/-- What `check_sync` sets up. -/
def semaInit : SemaTable where
  state := fun _ => .thinking
  mutex := semInit 1
  s := fun _ => semInit 0
  pc := fun _ => .thinking
  marks := fun _ => []

namespace SemaTable

def setPc (table : SemaTable) (i : Nat) (pc : SemaPc) : SemaTable :=
  { table with pc := Function.update table.pc i pc }

/-- `state_sema[who] = value` by the philosopher `i`. -/
def setState (table : SemaTable) (i who : Nat) (value : PhiState) : SemaTable :=
  { table with
    state := Function.update table.state who value
    marks := Function.update table.marks who
      (noted i (table.state who) value (table.marks who)) }

/-- `up(&s[who])` -/
def post (table : SemaTable) (who : Nat) : SemaTable :=
  { table with
    s := Function.update table.s who (table.s who).up
    marks := Function.update table.marks who (.post :: table.marks who) }

/-- `down(&mutex)` up to its call of `schedule`. -/
def enter (table : SemaTable) (i : Nat) (entered queued : SemaPc) : SemaTable :=
  { table with
    mutex := (table.mutex.down i).2 }.setPc i
      (if (table.mutex.down i).1 = true then entered else queued)

/-- `up(&mutex)` -/
def leave (table : SemaTable) (i : Nat) (pc : SemaPc) : SemaTable :=
  { table with mutex := table.mutex.up }.setPc i pc

/-- `down(&s[i])` up to its call of `schedule`. -/
def await (table : SemaTable) (i : Nat) : SemaTable :=
  { table with
    s := Function.update table.s i ((table.s i).down i).2 }.setPc i
      (if ((table.s i).down i).1 = true then .eating else .takeWaits)

/-- Where a call of `phi_test_sema` returns to. -/
def returnPoint : Caller → SemaPc
  | .take => .takeUp
  | .putLeft => .test .self .putRight
  | .putRight => .putUp

/-- The next step of `phi_test_sema`. -/
def test (table : SemaTable) (i : Nat) (stage : TestStage) (caller : Caller) : SemaTable :=
  match stage with
  | .set => (table.setState i (caller.who i) .eating).setPc i (.test .wake caller)
  | .wake => (table.post (caller.who i)).setPc i (returnPoint caller)
  | stage =>
      if stage.passes table.state (caller.who i) = true then
        table.setPc i (.test stage.next caller)
      else table.setPc i (returnPoint caller)

/-- The next step of the philosopher `i`. -/
def step (table : SemaTable) (i : Nat) : SemaTable :=
  match table.pc i with
  -- `phi_take_forks_sema`
  | .thinking => table.enter i .takeEntered .takeQueued
  | .takeQueued => table.setPc i .takeEntered
  | .takeEntered => (table.setState i i .hungry).setPc i (.test .self .take)
  | .test stage caller => table.test i stage caller
  | .takeUp => table.leave i .takeDown
  | .takeDown => table.await i
  | .takeWaits => table.setPc i .eating
  -- `phi_put_forks_sema`
  | .eating => table.enter i .putEntered .putQueued
  | .putQueued => table.setPc i .putEntered
  | .putEntered => (table.setState i i .thinking).setPc i (.test .self .putLeft)
  | .putUp => table.leave i .thinking

/-- A philosopher in `down` goes on once it is off the queue. -/
def Admits (table : SemaTable) (i : Nat) : Prop :=
  i < N ∧
    match table.pc i with
    | .takeQueued | .putQueued => i ∉ table.mutex.waitQueue
    | .takeWaits => i ∉ (table.s i).waitQueue
    | _ => True

instance {table : SemaTable} {i : Nat} : Decidable (table.Admits i) := by
  unfold Admits
  cases table.pc i <;> infer_instance

end SemaTable

/-- Any philosopher may take the next step. -/
def semaMachine : Machine SemaTable Nat Stop where
  Admits := SemaTable.Admits
  answer table i := .ok (table.step i)

instance : DecidableRel semaMachine.Admits :=
  fun table i => inferInstanceAs (Decidable (table.Admits i))

/-! ## The invariant -/

namespace SemaPc

/-- Where a philosopher is with respect to `mutex`. -/
def lockPhase : SemaPc → LockPhase
  | thinking | takeDown | takeWaits | eating => .out
  | takeQueued | putQueued => .queued
  | takeEntered | test _ _ | takeUp | putEntered | putUp => .held

/-- The philosopher has not said yet that it is hungry, or has said that it is done. -/
def idle : SemaPc → Bool
  | thinking | takeQueued | takeEntered | test _ .putLeft | test _ .putRight | putUp => true
  | _ => false

/-- The philosopher is about to wait at its own semaphore. -/
def asked : SemaPc → Bool
  | takeUp | takeDown => true
  | _ => false

/-- The philosopher has its forks. -/
def fed : SemaPc → Bool
  | eating | putQueued | putEntered => true
  | _ => false

end SemaPc

/-- The state of the philosopher `i` and its semaphore, by where it is and by whether a wakeup for
it is about to be posted. -/
inductive Stands (i : Nat) : SemaPc → PhiState → Semaphore → Bool → Prop
  | idle {pc : SemaPc} (idle : pc.idle = true) : Stands i pc .thinking ⟨0, []⟩ false
  | tests {stage : TestStage} (early : stage ≠ .wake) :
      Stands i (.test stage .take) .hungry ⟨0, []⟩ false
  | granted : Stands i (.test .wake .take) .eating ⟨0, []⟩ true
  | hungry {pc : SemaPc} (asked : pc.asked = true) : Stands i pc .hungry ⟨0, []⟩ false
  | owed {pc : SemaPc} (asked : pc.asked = true) : Stands i pc .eating ⟨0, []⟩ true
  | posted {pc : SemaPc} (asked : pc.asked = true) : Stands i pc .eating ⟨1, []⟩ false
  | blocked : Stands i .takeWaits .hungry ⟨0, [i]⟩ false
  | blockedOwed : Stands i .takeWaits .eating ⟨0, [i]⟩ true
  | woken : Stands i .takeWaits .eating ⟨0, []⟩ false
  | fed {pc : SemaPc} (fed : pc.fed = true) : Stands i pc .eating ⟨0, []⟩ false

/-- With semaphores every transition is followed by a wakeup. -/
def always : Nat → Bool := fun _ => true

structure SemaInvariant (table : SemaTable) : Prop where
  mutex : MutexInvariant table.mutex (fun i => (table.pc i).lockPhase)
  seated : ∀ i, table.pc i ≠ .thinking → i < N
  apart : Apart table.state
  knows : ∀ i stage caller, table.pc i = .test stage caller →
    Knows table.state (caller.who i) stage
  stands : ∀ i, Stands i (table.pc i) (table.state i) (table.s i) (owes always (table.marks i))
  answered : ∀ who, Answered always (table.marks who)
  wakes : ∀ who, owes always (table.marks who) = true ↔
    ∃ i caller, table.pc i = .test .wake caller ∧ caller.who i = who

variable {table after : SemaTable} {i other who : Nat} {pc pc' : SemaPc} {stage : TestStage}
  {caller : Caller} {state : PhiState} {sem : Semaphore} {owed : Bool}

theorem Stands.sem_init (stands : Stands i pc state sem owed) (outside : pc.idle = true) :
    state = .thinking ∧ sem = ⟨0, []⟩ ∧ owed = false := by
  cases stands with
  | idle _ => exact ⟨rfl, rfl, rfl⟩
  | tests _ => cases outside
  | granted => cases outside
  | hungry asked => cases pc <;> cases asked <;> cases outside
  | owed asked => cases pc <;> cases asked <;> cases outside
  | posted asked => cases pc <;> cases asked <;> cases outside
  | blocked => cases outside
  | blockedOwed => cases outside
  | woken => cases outside
  | fed fed => cases pc <;> cases fed <;> cases outside

/-- A philosopher with its forks. -/
theorem Stands.of_fed (stands : Stands i pc state sem owed) (fed : pc.fed = true) :
    state = .eating ∧ sem = ⟨0, []⟩ ∧ owed = false := by
  cases stands with
  | idle idle =>
      cases pc with
      | eating | putQueued | putEntered => cases idle
      | _ => cases fed
  | tests _ => cases fed
  | granted => cases fed
  | hungry asked => cases pc <;> cases asked <;> cases fed
  | owed asked => cases pc <;> cases asked <;> cases fed
  | posted asked => cases pc <;> cases asked <;> cases fed
  | blocked => cases fed
  | blockedOwed => cases fed
  | woken => cases fed
  | fed _ => exact ⟨rfl, rfl, rfl⟩

/-- A philosopher lets itself eat. -/
theorem Stands.takes (stands : Stands i (.test .set .take) .hungry sem owed) :
    Stands i (.test .wake .take) .eating sem true := by
  cases stands with
  | tests _ => exact .granted
  | hungry asked => cases asked

/-- The wakeup that goes with it. -/
theorem Stands.takesPosted (stands : Stands i (.test .wake .take) state sem true) :
    Stands i .takeUp state sem.up false := by
  cases stands with
  | granted => exact .posted rfl
  | owed asked => cases asked

/-- A neighbour lets a hungry philosopher eat. -/
theorem Stands.grant (stands : Stands i pc .hungry sem owed) (outside : pc.lockPhase ≠ .held) :
    Stands i pc .eating sem true := by
  cases stands with
  | tests _ => exact absurd rfl outside
  | hungry asked => exact .owed asked
  | blocked => exact .blockedOwed

/-- The wakeup that goes with it. -/
theorem Stands.post (stands : Stands i pc state sem true) (outside : pc.lockPhase ≠ .held) :
    Stands i pc state sem.up false := by
  cases stands with
  | granted => exact absurd rfl outside
  | owed asked => exact .posted asked
  | blockedOwed => exact .woken

namespace SemaInvariant

theorem phases (moved : after.pc = Function.update table.pc i pc') :
    (fun j => (after.pc j).lockPhase) =
      Function.update (fun j => (table.pc j).lockPhase) i pc'.lockPhase := by
  rw [moved]
  exact Function.comp_update SemaPc.lockPhase table.pc i pc'

theorem seated_update (invariant : SemaInvariant table) (seat : i < N)
    (moved : after.pc = Function.update table.pc i pc') :
    ∀ j, after.pc j ≠ .thinking → j < N := by
  intro j busy
  by_cases same : j = i
  · rw [same]
    exact seat
  · rw [moved, Function.update_of_ne same] at busy
    exact invariant.seated j busy

/-- After a step of `i` that changes no state, no record and no semaphore but its own. -/
theorem moves (after : SemaTable) (invariant : SemaInvariant table) (seat : i < N)
    (moved : after.pc = Function.update table.pc i pc')
    (mutex : MutexInvariant after.mutex
      (Function.update (fun j => (table.pc j).lockPhase) i pc'.lockPhase))
    (states : after.state = table.state) (marks : after.marks = table.marks)
    (sems : ∀ j, j ≠ i → after.s j = table.s j)
    (awake : ∀ caller, table.pc i ≠ .test .wake caller)
    (quiet : ∀ caller, pc' ≠ .test .wake caller)
    (knows : ∀ stage caller, pc' = .test stage caller →
      Knows table.state (caller.who i) stage)
    (stands : Stands i pc' (table.state i) (after.s i) (owes always (table.marks i))) :
    SemaInvariant after where
  mutex := by
    rw [phases moved]
    exact mutex
  seated := seated_update invariant seat moved
  apart := by
    rw [states]
    exact invariant.apart
  knows := by
    intro j stage caller tests
    rw [states]
    by_cases same : j = i
    · subst same
      rw [moved, Function.update_self] at tests
      exact knows stage caller tests
    · rw [moved, Function.update_of_ne same] at tests
      exact invariant.knows j stage caller tests
  stands := by
    intro j
    rw [states, marks, moved]
    by_cases same : j = i
    · subst same
      rw [Function.update_self]
      exact stands
    · rw [Function.update_of_ne same, sems j same]
      exact invariant.stands j
  answered := by
    rw [marks]
    exact invariant.answered
  wakes := by
    intro who
    rw [marks, invariant.wakes who, moved]
    constructor
    · rintro ⟨j, caller, tests, target⟩
      have apart : j ≠ i := by
        rintro rfl
        exact awake caller tests
      exact ⟨j, caller, by rw [Function.update_of_ne apart]; exact tests, target⟩
    · rintro ⟨j, caller, tests, target⟩
      by_cases same : j = i
      · subst same
        rw [Function.update_self] at tests
        exact absurd tests (quiet caller)
      · rw [Function.update_of_ne same] at tests
        exact ⟨j, caller, tests, target⟩

/-- Nobody tests but the philosopher that has `mutex`. -/
theorem alone (invariant : SemaInvariant table) (held : (table.pc i).lockPhase = .held)
    (apart : other ≠ i) : (table.pc other).lockPhase ≠ .held := by
  intro second
  exact apart (invariant.mutex.held_unique second held)

/-- After a step of the philosopher that has `mutex` and keeps it. -/
theorem keeps (invariant : SemaInvariant table) (seat : i < N)
    (held : (table.pc i).lockPhase = .held)
    (moved : after.pc = Function.update table.pc i pc') (still : pc'.lockPhase = .held)
    (mutex : after.mutex = table.mutex)
    (apart : Apart after.state)
    (knows : ∀ stage caller, pc' = .test stage caller →
      Knows after.state (caller.who i) stage)
    (others : ∀ j, j ≠ i → Stands j (table.pc j) (after.state j) (after.s j)
      (owes always (after.marks j)))
    (stands : Stands i pc' (after.state i) (after.s i) (owes always (after.marks i)))
    (answered : ∀ who, Answered always (after.marks who))
    (wakes : ∀ who, owes always (after.marks who) = true ↔
      ∃ caller, pc' = .test .wake caller ∧ caller.who i = who) :
    SemaInvariant after where
  mutex := by
    rw [phases moved, still, ← held, mutex, Function.update_eq_self]
    exact invariant.mutex
  seated := seated_update invariant seat moved
  apart := apart
  knows := by
    intro j stage caller tests
    by_cases same : j = i
    · subst same
      rw [moved, Function.update_self] at tests
      exact knows stage caller tests
    · rw [moved, Function.update_of_ne same] at tests
      exact absurd (by rw [tests]; rfl) (invariant.alone held same)
  stands := by
    intro j
    rw [moved]
    by_cases same : j = i
    · subst same
      rw [Function.update_self]
      exact stands
    · rw [Function.update_of_ne same]
      exact others j same
  answered := answered
  wakes := by
    intro who
    rw [wakes who, moved]
    constructor
    · rintro ⟨caller, tests, target⟩
      exact ⟨i, caller, by rw [Function.update_self]; exact tests, target⟩
    · rintro ⟨j, caller, tests, target⟩
      by_cases same : j = i
      · subst same
        rw [Function.update_self] at tests
        exact ⟨caller, tests, target⟩
      · rw [Function.update_of_ne same] at tests
        exact absurd (by rw [tests]; rfl) (invariant.alone held same)

/-- While the philosopher that has `mutex` is not about to post, no wakeup is outstanding. -/
theorem settled (invariant : SemaInvariant table) (held : (table.pc i).lockPhase = .held)
    (awake : ∀ caller, table.pc i ≠ .test .wake caller) (who : Nat) :
    owes always (table.marks who) = false := by
  apply Bool.eq_false_iff.mpr
  intro owed
  obtain ⟨j, caller, tests, _⟩ := (invariant.wakes who).mp owed
  by_cases same : j = i
  · exact awake caller (same ▸ tests)
  · exact invariant.alone held same (by rw [tests]; rfl)

end SemaInvariant

/-- A philosopher that is not at its own test for `phi_take_forks_sema` tests a neighbour. -/
theorem idle_test (puts : caller ≠ .take) : (SemaPc.test stage caller).idle = true := by
  cases caller with
  | take => exact absurd rfl puts
  | putLeft => rfl
  | putRight => rfl

theorem idle_returnPoint (puts : caller ≠ .take) :
    (SemaTable.returnPoint caller).idle = true := by
  cases caller with
  | take => exact absurd rfl puts
  | putLeft => rfl
  | putRight => rfl

theorem held_returnPoint : (SemaTable.returnPoint caller).lockPhase = .held := by
  cases caller <;> rfl

theorem returnPoint_quiet {after : Caller} :
    SemaTable.returnPoint caller ≠ .test .wake after := by
  cases caller <;> exact nofun

/-- `phi_test_sema` begins a test, or is over. -/
theorem knows_returnPoint {states : Nat → PhiState} {after : Caller}
    (begins : SemaTable.returnPoint caller = .test stage after) :
    Knows states (after.who i) stage := by
  cases caller with
  | take => cases begins
  | putLeft =>
      cases begins
      trivial
  | putRight => cases begins

namespace SemaInvariant

/-- The assignments of `HUNGRY` and `THINKING`, each before a test. -/
theorem tells (state : PhiState) (caller : Caller) (invariant : SemaInvariant table) (seat : i < N)
    (held : (table.pc i).lockPhase = .held)
    (awake : ∀ caller, table.pc i ≠ .test .wake caller) (quiet : state ≠ .eating)
    (stands : Stands i (.test .self caller) state (table.s i) false) :
    SemaInvariant ((table.setState i i state).setPc i (.test .self caller)) := by
  have marks : ((table.setState i i state).setPc i (.test .self caller)).marks = table.marks := by
    show Function.update table.marks i (noted i (table.state i) state (table.marks i)) = _
    rw [noted_quiet quiet, Function.update_eq_self]
  have settled := invariant.settled held awake
  apply invariant.keeps seat held
  · rfl
  · rfl
  · rfl
  · exact invariant.apart.lays quiet
  · intro stage caller' begins
    cases begins
    trivial
  · intro j apart
    rw [marks]
    show Stands j (table.pc j) (Function.update table.state i state j) (table.s j) _
    rw [Function.update_of_ne apart]
    exact invariant.stands j
  · rw [marks, settled i]
    show Stands i _ (Function.update table.state i state i) (table.s i) false
    rw [Function.update_self]
    exact stands
  · rw [marks]
    exact invariant.answered
  · intro who
    rw [marks, settled who]
    constructor
    · exact nofun
    · rintro ⟨_, begins, _⟩
      cases begins

/-- The assignment of `EATING`. -/
theorem grants (invariant : SemaInvariant table) (seat : i < N)
    (tests : table.pc i = .test .set caller) :
    SemaInvariant ((table.setState i (caller.who i) .eating).setPc i (.test .wake caller)) := by
  obtain ⟨hungry, leftQuiet, rightQuiet⟩ := invariant.knows i .set caller tests
  have held : (table.pc i).lockPhase = .held := by
    rw [tests]
    rfl
  have awake : ∀ caller, table.pc i ≠ .test .wake caller := by
    rw [tests]
    exact nofun
  have settled := invariant.settled held awake
  have marks : ((table.setState i (caller.who i) .eating).setPc i (.test .wake caller)).marks =
      Function.update table.marks (caller.who i) (.grant i :: table.marks (caller.who i)) := by
    show Function.update table.marks (caller.who i) (noted i (table.state (caller.who i)) .eating
      (table.marks (caller.who i))) = _
    rw [hungry, noted_grant]
  apply invariant.keeps seat held
  · rfl
  · rfl
  · rfl
  · exact invariant.apart.eats leftQuiet rightQuiet
  · intro stage caller' begins
    cases begins
    exact Function.update_self _ _ _
  · intro j apart
    rw [marks]
    show Stands j (table.pc j) (Function.update table.state (caller.who i) .eating j) (table.s j) _
    have stands := invariant.stands j
    by_cases target : j = caller.who i
    · subst target
      rw [Function.update_self, Function.update_self]
      rw [hungry] at stands
      exact stands.grant (invariant.alone held apart)
    · rw [Function.update_of_ne target, Function.update_of_ne target]
      exact stands
  · rw [marks]
    show Stands i _ (Function.update table.state (caller.who i) .eating i) (table.s i) _
    have stands := invariant.stands i
    rw [tests] at stands
    by_cases take : caller = .take
    · subst take
      rw [show Caller.take.who i = i from rfl] at hungry ⊢
      rw [Function.update_self, Function.update_self]
      rw [hungry] at stands
      exact stands.takes
    · have target : caller.who i ≠ i := Caller.who_ne take
      rw [Function.update_of_ne target.symm, Function.update_of_ne target.symm]
      obtain ⟨thinks, idle, owed⟩ := stands.sem_init (idle_test take)
      rw [thinks, idle, owed]
      exact .idle (idle_test take)
  · intro who
    rw [marks]
    by_cases target : who = caller.who i
    · subst target
      rw [Function.update_self]
      exact ⟨settled _, invariant.answered _⟩
    · rw [Function.update_of_ne target]
      exact invariant.answered who
  · intro who
    rw [marks]
    by_cases target : who = caller.who i
    · subst target
      rw [Function.update_self]
      exact iff_of_true rfl ⟨caller, rfl, rfl⟩
    · rw [Function.update_of_ne target, settled who]
      constructor
      · exact nofun
      · rintro ⟨caller', begins, same⟩
        cases begins
        exact absurd same.symm target

/-- The wakeup. -/
theorem posts (invariant : SemaInvariant table) (seat : i < N)
    (tests : table.pc i = .test .wake caller) :
    SemaInvariant ((table.post (caller.who i)).setPc i (SemaTable.returnPoint caller)) := by
  have held : (table.pc i).lockPhase = .held := by
    rw [tests]
    rfl
  have owed : owes always (table.marks (caller.who i)) = true :=
    (invariant.wakes _).mpr ⟨i, caller, tests, rfl⟩
  -- nobody else is owed a wakeup
  have settled : ∀ who, who ≠ caller.who i → owes always (table.marks who) = false := by
    intro who other
    apply Bool.eq_false_iff.mpr
    intro owed
    obtain ⟨j, caller', second, target⟩ := (invariant.wakes who).mp owed
    by_cases same : j = i
    · subst same
      rw [tests] at second
      cases second
      exact other target.symm
    · exact invariant.alone held same (by rw [second]; rfl)
  have sems : ∀ j, ((table.post (caller.who i)).setPc i (SemaTable.returnPoint caller)).s j =
      if j = caller.who i then (table.s j).up else table.s j := by
    intro j
    show Function.update table.s _ _ j = _
    by_cases target : j = caller.who i
    · rw [if_pos target, target, Function.update_self]
    · rw [if_neg target, Function.update_of_ne target]
  have marks : ∀ j,
      ((table.post (caller.who i)).setPc i (SemaTable.returnPoint caller)).marks j =
        if j = caller.who i then .post :: table.marks j else table.marks j := by
    intro j
    show Function.update table.marks _ _ j = _
    by_cases target : j = caller.who i
    · rw [if_pos target, target, Function.update_self]
    · rw [if_neg target, Function.update_of_ne target]
  apply invariant.keeps seat held
  · rfl
  · exact held_returnPoint
  · rfl
  · exact invariant.apart
  · intro stage caller' begins
    exact knows_returnPoint begins
  · intro j apart
    rw [marks, sems]
    have stands := invariant.stands j
    by_cases target : j = caller.who i
    · rw [if_pos target, if_pos target]
      rw [target, owed, ← target] at stands
      exact stands.post (invariant.alone held apart)
    · rw [if_neg target, if_neg target]
      exact stands
  · rw [marks, sems]
    have stands := invariant.stands i
    rw [tests] at stands
    by_cases take : caller = .take
    · subst take
      have mine : i = Caller.take.who i := rfl
      rw [if_pos mine, if_pos mine]
      rw [← mine] at owed
      rw [owed] at stands
      exact stands.takesPosted
    · have target : caller.who i ≠ i := Caller.who_ne take
      rw [if_neg target.symm, if_neg target.symm]
      obtain ⟨thinks, idle, owed⟩ := stands.sem_init (idle_test take)
      show Stands i _ (table.state i) _ _
      rw [thinks, idle, owed]
      exact .idle (idle_returnPoint take)
  · intro who
    rw [marks]
    by_cases target : who = caller.who i
    · rw [if_pos target, target]
      exact ⟨owed, invariant.answered _⟩
    · rw [if_neg target]
      exact invariant.answered who
  · intro who
    rw [marks]
    constructor
    · intro owed
      by_cases target : who = caller.who i
      · rw [if_pos target] at owed
        cases owed
      · rw [if_neg target, settled who target] at owed
        cases owed
    · rintro ⟨caller', begins, _⟩
      exact absurd begins returnPoint_quiet

end SemaInvariant

/-! ## Every step -/

/-- A part of the condition is read. -/
theorem Stands.reads (stands : Stands i (.test stage .take) state sem owed)
    (reads : stage ≠ .set) (early : stage ≠ .wake) :
    Stands i (.test stage.next .take) state sem owed ∧ Stands i .takeUp state sem owed := by
  cases stands with
  | tests _ =>
      have next : stage.next ≠ .wake := by
        cases stage with
        | self => exact nofun
        | left => exact nofun
        | right => exact nofun
        | set => exact absurd rfl reads
        | wake => exact absurd rfl early
      exact ⟨.tests next, .hungry rfl⟩
  | granted => exact absurd rfl early
  | hungry asked => cases asked
  | owed asked => cases asked
  | posted asked => cases asked
  | idle idle => cases idle
  | fed fed => cases fed

/-- `up(&mutex)` at the end of `phi_take_forks_sema`. -/
theorem Stands.leaves (stands : Stands i .takeUp state sem owed) :
    Stands i .takeDown state sem owed := by
  cases stands with
  | hungry _ => exact .hungry rfl
  | owed _ => exact .owed rfl
  | posted _ => exact .posted rfl
  | idle idle => cases idle
  | fed fed => cases fed

/-- `down(&s[i])` -/
theorem Stands.awaits (stands : Stands i .takeDown state sem owed) :
    Stands i (if (sem.down i).1 = true then .eating else .takeWaits) state (sem.down i).2
      owed := by
  cases stands with
  | hungry _ => exact .blocked
  | owed _ => exact .blockedOwed
  | posted _ => exact .fed rfl
  | idle idle => cases idle
  | fed fed => cases fed

/-- The return from `down(&s[i])`. -/
theorem Stands.returns (stands : Stands i .takeWaits state sem owed)
    (released : i ∉ sem.waitQueue) : Stands i .eating state sem owed := by
  cases stands with
  | blocked => exact absurd (List.mem_singleton_self i) released
  | blockedOwed => exact absurd (List.mem_singleton_self i) released
  | woken => exact .fed rfl
  | hungry asked => cases asked
  | owed asked => cases asked
  | posted asked => cases asked
  | idle idle => cases idle
  | fed fed => cases fed

namespace SemaInvariant

/-- `down(&mutex)` -/
theorem enters (entered queued : SemaPc) (invariant : SemaInvariant table) (seat : i < N)
    (out : (table.pc i).lockPhase = .out) (held : entered.lockPhase = .held)
    (waits : queued.lockPhase = .queued) (begins : ∀ stage caller, entered ≠ .test stage caller)
    (standsEntered : Stands i entered (table.state i) (table.s i) (owes always (table.marks i)))
    (standsQueued : Stands i queued (table.state i) (table.s i) (owes always (table.marks i))) :
    SemaInvariant (table.enter i entered queued) := by
  have awake : ∀ caller, table.pc i ≠ .test .wake caller := by
    intro caller tests
    rw [tests] at out
    cases out
  have noTest : ∀ stage caller, queued ≠ .test stage caller := by
    rintro stage caller rfl
    cases waits
  have locked := invariant.mutex.down out
  by_cases token : (table.mutex.down i).1 = true
  · rw [if_pos token, ← held] at locked
    apply invariant.moves (table.enter i entered queued) seat (by unfold SemaTable.enter; rw [if_pos token]; rfl) locked rfl rfl
      (fun _ _ => rfl) awake (begins _)
    · intro stage caller tests
      exact absurd tests (begins stage caller)
    · exact standsEntered
  · rw [if_neg token, ← waits] at locked
    apply invariant.moves (table.enter i entered queued) seat (by unfold SemaTable.enter; rw [if_neg token]; rfl) locked rfl rfl
      (fun _ _ => rfl) awake (noTest _)
    · intro stage caller tests
      exact absurd tests (noTest stage caller)
    · exact standsQueued

/-- A step of `i` that leaves everything but its place, and keeps or leaves `mutex` alone. -/
theorem goes (invariant : SemaInvariant table) (seat : i < N)
    (same : pc'.lockPhase = (table.pc i).lockPhase)
    (awake : ∀ caller, table.pc i ≠ .test .wake caller)
    (quiet : ∀ caller, pc' ≠ .test .wake caller)
    (knows : ∀ stage caller, pc' = .test stage caller → Knows table.state (caller.who i) stage)
    (stands : Stands i pc' (table.state i) (table.s i) (owes always (table.marks i))) :
    SemaInvariant (table.setPc i pc') := by
  apply invariant.moves (table.setPc i pc') seat rfl _ rfl rfl (fun _ _ => rfl) awake quiet knows
    stands
  rw [same, Function.update_eq_self]
  exact invariant.mutex

/-- The return from `down(&mutex)`. -/
theorem entersLate (entered : SemaPc) (invariant : SemaInvariant table) (seat : i < N)
    (queued : (table.pc i).lockPhase = .queued) (released : i ∉ table.mutex.waitQueue)
    (held : entered.lockPhase = .held) (begins : ∀ stage caller, entered ≠ .test stage caller)
    (stands : Stands i entered (table.state i) (table.s i) (owes always (table.marks i))) :
    SemaInvariant (table.setPc i entered) := by
  have awake : ∀ caller, table.pc i ≠ .test .wake caller := by
    intro caller tests
    rw [tests] at queued
    cases queued
  apply invariant.moves (table.setPc i entered) seat rfl _ rfl rfl (fun _ _ => rfl) awake
    (begins _)
  · intro stage caller tests
    exact absurd tests (begins stage caller)
  · exact stands
  · rw [held]
    exact invariant.mutex.resume queued released

/-- `up(&mutex)` -/
theorem leaves (left : SemaPc) (invariant : SemaInvariant table) (seat : i < N)
    (held : (table.pc i).lockPhase = .held) (awake : ∀ caller, table.pc i ≠ .test .wake caller)
    (out : left.lockPhase = .out)
    (stands : Stands i left (table.state i) (table.s i) (owes always (table.marks i))) :
    SemaInvariant (table.leave i left) := by
  have noTest : ∀ stage caller, left ≠ .test stage caller := by
    rintro stage caller rfl
    cases out
  apply invariant.moves (table.leave i left) seat rfl _ rfl rfl (fun _ _ => rfl) awake (noTest _)
  · intro stage caller tests
    exact absurd tests (noTest stage caller)
  · exact stands
  · rw [out]
    exact invariant.mutex.up held

/-- A part of the condition of `phi_test_sema`. -/
theorem reads (invariant : SemaInvariant table) (seat : i < N)
    (tests : table.pc i = .test stage caller) (reads : stage ≠ .set) (early : stage ≠ .wake) :
    SemaInvariant (if stage.passes table.state (caller.who i) = true then
      table.setPc i (.test stage.next caller) else table.setPc i (SemaTable.returnPoint caller)) := by
  have awake : ∀ other, table.pc i ≠ .test .wake other := by
    intro other wakes
    rw [tests] at wakes
    cases wakes
    exact early rfl
  have next : stage.next ≠ .wake := by
    cases stage with
    | self => exact nofun
    | left => exact nofun
    | right => exact nofun
    | set => exact absurd rfl reads
    | wake => exact absurd rfl early
  have stands := invariant.stands i
  rw [tests] at stands
  have both : Stands i (.test stage.next caller) (table.state i) (table.s i)
      (owes always (table.marks i)) ∧ Stands i (SemaTable.returnPoint caller) (table.state i)
      (table.s i) (owes always (table.marks i)) := by
    by_cases take : caller = .take
    · subst take
      exact stands.reads reads early
    · obtain ⟨thinks, idle, owed⟩ := stands.sem_init (idle_test take)
      rw [thinks, idle, owed]
      exact ⟨.idle (idle_test take), .idle (idle_returnPoint take)⟩
  by_cases passes : stage.passes table.state (caller.who i) = true
  · rw [if_pos passes]
    apply invariant.goes seat (by rw [tests]; rfl) awake
    · intro other begins
      exact next (SemaPc.test.inj begins).1
    · intro stage' other begins
      obtain ⟨rfl, rfl⟩ := SemaPc.test.inj begins
      exact (invariant.knows i stage caller tests).passes passes reads
    · exact both.1
  · rw [if_neg passes]
    apply invariant.goes seat (by rw [tests, held_returnPoint]; rfl) awake
      (fun _ => returnPoint_quiet) (fun _ _ => knows_returnPoint) both.2

/-- Every step keeps the invariant. -/
theorem step (invariant : SemaInvariant table) (step : semaMachine.Step table i after) :
    SemaInvariant after := by
  obtain ⟨⟨seat, admitted⟩, answered⟩ := step
  obtain rfl := Except.ok.inj answered
  have stands := invariant.stands i
  unfold SemaTable.step
  cases here : table.pc i with
  | thinking =>
      rw [here] at stands
      obtain ⟨thinks, idle, owed⟩ := stands.sem_init rfl
      apply invariant.enters .takeEntered .takeQueued seat (by rw [here]; rfl) rfl rfl nofun
      · rw [thinks, idle, owed]
        exact .idle rfl
      · rw [thinks, idle, owed]
        exact .idle rfl
  | takeQueued =>
      rw [here] at stands admitted
      obtain ⟨thinks, idle, owed⟩ := stands.sem_init rfl
      apply invariant.entersLate .takeEntered seat (by rw [here]; rfl) admitted rfl nofun
      rw [thinks, idle, owed]
      exact .idle rfl
  | takeEntered =>
      rw [here] at stands
      obtain ⟨_, idle, _⟩ := stands.sem_init rfl
      apply invariant.tells .hungry .take seat (by rw [here]; rfl) (by rw [here]; exact nofun) nofun
      rw [idle]
      exact .tests nofun
  | test stage caller =>
      cases stage with
      | set => exact invariant.grants seat here
      | wake => exact invariant.posts seat here
      | self => exact invariant.reads seat here nofun nofun
      | left => exact invariant.reads seat here nofun nofun
      | right => exact invariant.reads seat here nofun nofun
  | takeUp =>
      rw [here] at stands
      exact invariant.leaves .takeDown seat (by rw [here]; rfl) (by rw [here]; exact nofun) rfl stands.leaves
  | takeDown =>
      rw [here] at stands
      have awaits := stands.awaits
      have quiet : ∀ stage caller,
          (if ((table.s i).down i).1 = true then SemaPc.eating else .takeWaits) ≠
            .test stage caller := by
        intro stage caller
        split_ifs <;> exact nofun
      apply invariant.moves (table.await i) seat rfl _ rfl rfl _
        (by rw [here]; exact nofun) (quiet _) (fun stage caller tests => absurd tests (quiet stage caller))
      · show Stands i _ (table.state i) (Function.update table.s i _ i) _
        rw [Function.update_self]
        exact awaits
      · have out : SemaPc.lockPhase (if ((table.s i).down i).1 = true then .eating else .takeWaits) =
            (table.pc i).lockPhase := by
          rw [here]
          split_ifs <;> rfl
        rw [out, Function.update_eq_self]
        exact invariant.mutex
      · intro j apart
        exact Function.update_of_ne apart _ _
  | takeWaits =>
      rw [here] at stands admitted
      exact invariant.goes seat (by rw [here]; rfl) (by rw [here]; exact nofun) nofun nofun
        (stands.returns admitted)
  | eating =>
      rw [here] at stands
      obtain ⟨eats, idle, owed⟩ := stands.of_fed rfl
      apply invariant.enters .putEntered .putQueued seat (by rw [here]; rfl) rfl rfl nofun
      · rw [eats, idle, owed]
        exact .fed rfl
      · rw [eats, idle, owed]
        exact .fed rfl
  | putQueued =>
      rw [here] at stands admitted
      obtain ⟨eats, idle, owed⟩ := stands.of_fed rfl
      apply invariant.entersLate .putEntered seat (by rw [here]; rfl) admitted rfl nofun
      rw [eats, idle, owed]
      exact .fed rfl
  | putEntered =>
      rw [here] at stands
      obtain ⟨_, idle, _⟩ := stands.of_fed rfl
      apply invariant.tells .thinking .putLeft seat (by rw [here]; rfl) (by rw [here]; exact nofun) nofun
      rw [idle]
      exact .idle rfl
  | putUp =>
      rw [here] at stands
      obtain ⟨thinks, idle, owed⟩ := stands.sem_init rfl
      apply invariant.leaves .thinking seat (by rw [here]; rfl) (by rw [here]; exact nofun) rfl
      rw [thinks, idle, owed]
      exact .idle rfl

theorem init : SemaInvariant semaInit where
  mutex := MutexInvariant.init
  seated := fun _ busy => absurd rfl busy
  apart := by
    intro i _ both
    cases both.1
  knows := nofun
  stands := fun _ => .idle rfl
  answered := fun _ => trivial
  wakes := fun _ => iff_of_false nofun nofun

/-- The invariant holds in every state that is reached. -/
theorem run {events : List Nat} (run : Run semaMachine.Step semaInit events table) :
    SemaInvariant table :=
  Run.invariant SemaInvariant (fun _ _ _ kept move => kept.step move) run init

end SemaInvariant

end UCore.Sync.Philosophers
