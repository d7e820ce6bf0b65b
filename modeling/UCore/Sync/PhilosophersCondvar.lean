import UCore.Sync.HoareMonitor
import UCore.Sync.Philosophers

/-!
Contract: the dining philosophers with condition variables, `philosopher_using_condvar` of
`kern/sync/check_sync.c`.

Owns:
- the code of the philosophers over the monitor of `kern/sync/monitor.c`, with every access to
  `state_condvar` a step of its own;
- the invariant that every step keeps, in any order of the threads and for any number of rounds.

The condition variable `cv[i]` is the philosopher `i`'s. The record of transitions and wakeups is
not in the source, and nothing reads it.
-/

set_option autoImplicit false

namespace UCore.Sync.Philosophers

open UCore.Lib

/-! ## The code -/

/-- What a philosopher does next when it is not in a statement of the monitor. -/
inductive CondvarPc
  | thinking
  | takeEntered
  | test (stage : TestStage) (caller : Caller)
  | takeCheck
  | takeWait
  | takeLeave
  /-- `phi_take_forks_condvar` has returned, or is at its last `up` -/
  | eating
  | putEntered
  | putLeave
deriving DecidableEq, Repr

/-- `state_condvar` and `mt`, with the philosophers and the record of what happens to each. -/
structure CondvarTable where
  state : Nat → PhiState
  monitor : MonitorState
  pc : Nat → CondvarPc
  marks : Nat → List Mark

/-- What `check_sync` sets up. -/
def condvarInit : CondvarTable where
  state := fun _ => .thinking
  monitor := monitorInit
  pc := fun _ => .thinking
  marks := fun _ => []

namespace CondvarTable

def setPc (table : CondvarTable) (i : Nat) (pc : CondvarPc) : CondvarTable :=
  { table with pc := Function.update table.pc i pc }

/-- `state_condvar[who] = value` by the philosopher `i`. -/
def setState (table : CondvarTable) (i who : Nat) (value : PhiState) : CondvarTable :=
  { table with
    state := Function.update table.state who value
    marks := Function.update table.marks who
      (noted i (table.state who) value (table.marks who)) }

/-- A statement of the monitor. -/
def act (table : CondvarTable) (i : Nat) (action : MonitorAction) : CondvarTable :=
  { table with monitor := table.monitor.answer (i, action) }

/-- Where a call of `phi_test_condvar` returns to. -/
def returnPoint : Caller → CondvarPc
  | .take => .takeCheck
  | .putLeft => .test .self .putRight
  | .putRight => .putLeave

/-- The next step of `phi_test_condvar`. -/
def test (table : CondvarTable) (i : Nat) (stage : TestStage) (caller : Caller) : CondvarTable :=
  match stage with
  | .set => (table.setState i (caller.who i) .eating).setPc i (.test .wake caller)
  | .wake => (table.act i (.condSignal (caller.who i))).setPc i (returnPoint caller)
  | stage =>
      if stage.passes table.state (caller.who i) = true then
        table.setPc i (.test stage.next caller)
      else table.setPc i (returnPoint caller)

/-- The next step of the philosopher `i` outside the statements of the monitor. -/
def stepProgram (table : CondvarTable) (i : Nat) : CondvarTable :=
  match table.pc i with
  -- `phi_take_forks_condvar`
  | .thinking => (table.act i .enter).setPc i .takeEntered
  | .takeEntered => (table.setState i i .hungry).setPc i (.test .self .take)
  | .test stage caller => table.test i stage caller
  | .takeCheck =>
      if table.state i = .hungry then table.setPc i .takeWait else table.setPc i .takeLeave
  | .takeWait => (table.act i (.condWait i)).setPc i .takeLeave
  | .takeLeave => (table.act i .leave).setPc i .eating
  -- `phi_put_forks_condvar`
  | .eating => (table.act i .enter).setPc i .putEntered
  | .putEntered => (table.setState i i .thinking).setPc i (.test .self .putLeft)
  | .putLeave => (table.act i .leave).setPc i .thinking

/-- The record after a statement of the monitor: `up(&(cvp->sem))` of `cond_signal` is the wakeup of
the philosopher that waits on `cvp`. -/
def posted (pc : MonitorPc) (marks : Nat → List Mark) : Nat → List Mark :=
  match pc with
  | .signalCounted cv => Function.update marks cv (.post :: marks cv)
  | _ => marks

/-- The next step of the philosopher `i`. -/
def step (table : CondvarTable) (i : Nat) : CondvarTable :=
  if table.monitor.pc i = .outside ∨ table.monitor.pc i = .inside then table.stepProgram i
  else { table.act i .resume with marks := posted (table.monitor.pc i) table.marks }

/-- A philosopher in `down` goes on once it is off the queue. -/
def Admits (table : CondvarTable) (i : Nat) : Prop :=
  i < N ∧ ∀ name, table.monitor.pc i = .inDown name → i ∉ (table.monitor.sem name).waitQueue

instance {table : CondvarTable} {i : Nat} : Decidable (table.Admits i) :=
  inferInstanceAs (Decidable (_ ∧ ∀ _, _ → _))

end CondvarTable

/-- Any philosopher may take the next step. -/
def condvarMachine : Machine CondvarTable Nat Stop where
  Admits := CondvarTable.Admits
  answer table i := .ok (table.step i)

instance : DecidableRel condvarMachine.Admits :=
  fun table i => inferInstanceAs (Decidable (table.Admits i))

/-! ## The invariant -/

/-- The state of a philosopher that tests itself. -/
def tested : TestStage → PhiState
  | .wake => .eating
  | _ => .hungry

/-- The state of a philosopher that runs monitor code of its own. -/
def Inside (state : PhiState) : CondvarPc → Prop
  | .thinking | .eating => False
  | .takeEntered => state = .thinking
  | .test stage .take => state = tested stage
  | .test _ .putLeft | .test _ .putRight | .putLeave => state = .thinking
  | .takeCheck => state ≠ .thinking
  | .takeWait => state = .hungry
  | .takeLeave => state = .eating
  | .putEntered => state = .eating

/-- The philosopher `i` is in the statement `at'` of the monitor, between two of its program. -/
def Sits (i : Nat) (pc : CondvarPc) (state : PhiState) : MonitorPc → Prop
  | .outside | .leaveTested _ =>
      (pc = .thinking ∧ state = .thinking) ∨ (pc = .eating ∧ state = .eating)
  | .inDown .mutex =>
      (pc = .takeEntered ∧ state = .thinking) ∨ (pc = .putEntered ∧ state = .eating)
  | .inside => Inside state pc
  | .signalFound _ | .signalCounted _ | .signalUpped | .inDown .next | .signalBack =>
      (pc = .test .self .putRight ∨ pc = .putLeave) ∧ state = .thinking
  | .waitCounted cv | .waitTested cv _ => cv = i ∧ pc = .takeLeave ∧ state = .hungry
  | .waitUpped cv | .inDown (.cond cv) => cv = i ∧ pc = .takeLeave ∧ state ≠ .thinking
  | .waitBack cv => cv = i ∧ pc = .takeLeave ∧ state = .eating

/-- The philosopher `i` is to post a wakeup to `who`. -/
def Wakes (table : CondvarTable) (i who : Nat) : Prop :=
  (∃ caller, table.pc i = .test .wake caller ∧ caller.who i = who ∧ i ≠ who) ∨
    Signals table.monitor i who

/-- With condition variables a transition is followed by a wakeup when another philosopher made
it: a philosopher that lets itself eat does not wait. -/
def byOthers (who giver : Nat) : Bool := decide (giver ≠ who)

structure CondvarInvariant (table : CondvarTable) (place : Place) : Prop where
  monitor : MonitorInvariant (Finset.range N) table.monitor place
  sits : ∀ i, Sits i (table.pc i) (table.state i) (table.monitor.pc i)
  apart : Apart table.state
  knows : ∀ i stage caller, table.pc i = .test stage caller →
    Knows table.state (caller.who i) stage
  handed : ∀ cv, place = .sem (.cond cv) → table.state cv = .eating
  answered : ∀ who, Answered (byOthers who) (table.marks who)
  wakes : ∀ who, owes (byOthers who) (table.marks who) = true ↔ ∃ i, Wakes table i who
  owed : ∀ who, owes (byOthers who) (table.marks who) = true →
    (table.monitor.pc who).asleep who = true ∧ table.state who = .eating

variable {table after : CondvarTable} {place place' : Place} {i other who : Nat}
  {pc pc' : CondvarPc} {stage : TestStage} {caller : Caller} {state : PhiState} {at' : MonitorPc}
  {before next : MonitorState} {action : MonitorAction}

/-! ## Single philosophers -/

/-- A neighbour lets a hungry philosopher eat: it is asleep. -/
theorem Sits.grant (sits : Sits i pc .hungry at') (inactive : at'.active = false) :
    Sits i pc .eating at' ∧ at'.asleep i = true := by
  cases at' with
  | outside =>
      rcases sits with ⟨_, impossible⟩ | ⟨_, impossible⟩
      · cases impossible
      · cases impossible
  | inDown name =>
      cases name with
      | mutex =>
          rcases sits with ⟨_, impossible⟩ | ⟨_, impossible⟩
          · cases impossible
          · cases impossible
      | next => cases sits.2
      | cond cv => exact ⟨⟨sits.1, sits.2.1, nofun⟩, decide_eq_true sits.1⟩
  | signalUpped => cases sits.2
  | waitUpped cv => exact ⟨⟨sits.1, sits.2.1, nofun⟩, decide_eq_true sits.1⟩
  | _ => cases inactive

/-- A philosopher that is woken by its condition variable eats. -/
theorem Sits.woken (sits : Sits i pc state (.inDown (.cond other))) (eats : state = .eating) :
    Sits i pc state (.waitBack other) :=
  ⟨sits.1, sits.2.1, eats⟩

theorem Sits.taken {name : MonitorSem} (sits : Sits i pc state (.inDown name))
    (eats : ∀ cv, name = .cond cv → cv = i → state = .eating) :
    Sits i pc state (MonitorState.returnPoint name) := by
  cases name with
  | mutex =>
      rcases sits with ⟨rfl, thinks⟩ | ⟨rfl, feeds⟩
      · exact thinks
      · exact feeds
  | next => exact sits
  | cond cv => exact sits.woken (eats cv rfl sits.1)

/-- What a statement of the monitor does to a philosopher that is in one. -/
theorem Sits.resume (sits : Sits i pc state (before.pc i)) (away : before.pc i ≠ .outside)
    (busy : before.pc i ≠ .inside)
    (handed : ∀ cv, place = .sem (.cond cv) → cv = i → state = .eating)
    (step : MonitorStep before i next place place') : Sits i pc state (next.pc i) := by
  cases step with
  | acts at' acts moved =>
      rw [moved, Function.update_self]
      generalize before.pc i = from' at sits away busy acts
      cases acts with
      | counts cv => exact sits
      | returns =>
          obtain ⟨rfl | rfl, thinks⟩ := sits
          · exact thinks
          · exact thinks
      | tests cv handBack => exact sits
      | wakes cv =>
          obtain ⟨_, rfl, eats⟩ := sits
          exact eats
      | signalsNobody => exact absurd rfl busy
      | finds cv => exact absurd rfl busy
      | registers cv => exact absurd rfl busy
      | leaves handBack => exact absurd rfl busy
  | gives name ups moved =>
      rw [moved, Function.update_self]
      cases here : before.pc i with
      | signalCounted cv =>
          rw [here] at sits
          exact sits
      | waitTested cv handBack =>
          rw [here] at sits
          obtain ⟨own, leaving, hungry⟩ := sits
          refine ⟨own, leaving, ?_⟩
          rw [hungry]
          exact nofun
      | leaveTested handBack =>
          rw [here] at sits
          exact sits
      | _ => rw [here] at ups; cases ups
  | takes name downs moved =>
      rw [moved, Function.update_self]
      have queued : Sits i pc state (.inDown name) := by
        cases here : before.pc i with
        | outside => exact absurd here away
        | inDown other =>
            rw [here] at sits downs
            cases downs
            exact sits
        | signalUpped =>
            rw [here] at sits downs
            cases downs
            exact sits
        | waitUpped cv =>
            rw [here] at sits downs
            cases downs
            exact sits
        | _ => rw [here] at downs; cases downs
      apply queued.taken
      rintro cv rfl
      exact handed cv rfl
  | waits name _ downs moved =>
      rw [moved, Function.update_self]
      cases here : before.pc i with
      | outside => exact absurd here away
      | inDown other =>
          rw [here] at sits downs
          cases downs
          exact sits
      | signalUpped =>
          rw [here] at sits downs
          cases downs
          exact sits
      | waitUpped cv =>
          rw [here] at sits downs
          cases downs
          exact sits
      | _ => rw [here] at downs; cases downs

/-- A philosopher that tests runs code of its own, but for the call of the second test of
`phi_put_forks_condvar`. -/
theorem Sits.of_test (sits : Sits i (.test stage caller) state at') :
    at' = .inside ∨ stage = .self := by
  cases at' with
  | inside => exact Or.inl rfl
  | outside =>
      rcases sits with ⟨impossible, _⟩ | ⟨impossible, _⟩
      · cases impossible
      · cases impossible
  | leaveTested handBack =>
      rcases sits with ⟨impossible, _⟩ | ⟨impossible, _⟩
      · cases impossible
      · cases impossible
  | inDown name =>
      cases name with
      | mutex =>
          rcases sits with ⟨impossible, _⟩ | ⟨impossible, _⟩
          · cases impossible
          · cases impossible
      | next =>
          obtain ⟨begins | impossible, _⟩ := sits
          · exact Or.inr (CondvarPc.test.inj begins).1
          · cases impossible
      | cond cv => cases sits.2.1
  | signalFound cv | signalCounted cv | signalUpped | signalBack =>
      obtain ⟨begins | impossible, _⟩ := sits
      · exact Or.inr (CondvarPc.test.inj begins).1
      · cases impossible
  | waitCounted cv | waitTested cv handBack | waitUpped cv | waitBack cv => cases sits.2.1

/-- A step of the monitor moves its own thread. -/
theorem stays (step : MonitorStep before i next place place') (apart : other ≠ i) :
    next.pc other = before.pc other := by
  cases step with
  | acts _ _ moved => rw [moved, Function.update_of_ne apart]
  | gives _ _ moved => rw [moved, Function.update_of_ne apart]
  | takes _ _ moved => rw [moved, Function.update_of_ne apart]
  | waits _ _ _ moved => rw [moved, Function.update_of_ne apart]

/-- A waiter stays asleep while a thread is active. -/
theorem sleepsOn {active : Nat} (step : MonitorStep before i next (.thread active) place')
    (asleep : (before.pc other).asleep other = true) : (next.pc other).asleep other = true := by
  by_cases same : other = i
  · subst same
    cases step with
    | acts at' acts _ =>
        generalize before.pc other = from' at asleep acts
        cases acts <;> cases asleep
    | gives name ups _ =>
        cases here : before.pc other with
        | waitUpped cv => rw [here] at ups; cases ups
        | inDown name => rw [here] at ups; cases ups
        | _ => rw [here] at asleep; cases asleep
    | waits name _ downs moved =>
        rw [moved, Function.update_self, asleep_inDown downs]
        exact asleep
  · rw [stays step same]
    exact asleep

/-! ## Single steps -/

namespace CondvarInvariant

/-- Who is to post a wakeup has the monitor. -/
theorem active_of_wakes (invariant : CondvarInvariant table place) (wakes : Wakes table i who) :
    (table.monitor.pc i).active = true := by
  rcases wakes with ⟨caller, tests, _, _⟩ | signals
  · have sits := invariant.sits i
    rw [tests] at sits
    rcases sits.of_test with inside | begins
    · rw [inside]
      rfl
    · cases begins
  · exact signals.active

/-- While `i` has the monitor, nobody else is to post a wakeup. -/
theorem wakes_iff (invariant : CondvarInvariant table place)
    (active : (table.monitor.pc i).active = true) :
    owes (byOthers who) (table.marks who) = true ↔ Wakes table i who := by
  rw [invariant.wakes who]
  constructor
  · rintro ⟨j, wakes⟩
    rw [invariant.monitor.exclusive active (invariant.active_of_wakes wakes)]
    exact wakes
  · intro wakes
    exact ⟨i, wakes⟩

/-- A philosopher that runs code of its own and is not about to post: no wakeup is outstanding. -/
theorem settled (invariant : CondvarInvariant table place)
    (inside : table.monitor.pc i = .inside) (awake : ∀ caller, table.pc i ≠ .test .wake caller)
    (who : Nat) : owes (byOthers who) (table.marks who) = false := by
  apply Bool.eq_false_iff.mpr
  intro owed
  have active : (table.monitor.pc i).active = true := by
    rw [inside]
    rfl
  rcases (invariant.wakes_iff active).mp owed with ⟨caller, tests, _, _⟩ | found | counted
  · exact awake caller tests
  · rw [inside] at found
    cases found
  · rw [inside] at counted
    cases counted

/-- After a step of `i`, with what the others have kept. -/
theorem moves (after : CondvarTable)
    (monitor : MonitorInvariant (Finset.range N) after.monitor place')
    (others : ∀ j, j ≠ i → after.monitor.pc j = table.monitor.pc j)
    (moved : after.pc = Function.update table.pc i pc') (apart : Apart after.state)
    (sitsOthers : ∀ j, j ≠ i → Sits j (table.pc j) (after.state j) (table.monitor.pc j))
    (sits : Sits i pc' (after.state i) (after.monitor.pc i))
    (knowsOthers : ∀ j, j ≠ i → ∀ stage caller, table.pc j = .test stage caller →
      Knows after.state (caller.who j) stage)
    (knows : ∀ stage caller, pc' = .test stage caller → Knows after.state (caller.who i) stage)
    (handed : ∀ cv, place' = .sem (.cond cv) → after.state cv = .eating)
    (answered : ∀ who, Answered (byOthers who) (after.marks who))
    (wakes : ∀ who, owes (byOthers who) (after.marks who) = true ↔
      Wakes after i who ∨ ∃ j, j ≠ i ∧ Wakes table j who)
    (owed : ∀ who, owes (byOthers who) (after.marks who) = true →
      (after.monitor.pc who).asleep who = true ∧ after.state who = .eating) :
    CondvarInvariant after place' where
  monitor := monitor
  sits := by
    intro j
    rw [moved]
    by_cases same : j = i
    · subst same
      rw [Function.update_self]
      exact sits
    · rw [Function.update_of_ne same, others j same]
      exact sitsOthers j same
  apart := apart
  knows := by
    intro j stage caller tests
    rw [moved] at tests
    by_cases same : j = i
    · subst same
      rw [Function.update_self] at tests
      exact knows stage caller tests
    · rw [Function.update_of_ne same] at tests
      exact knowsOthers j same stage caller tests
  handed := handed
  answered := answered
  wakes := by
    intro who
    rw [wakes who]
    have kept : ∀ j, j ≠ i → (Wakes after j who ↔ Wakes table j who) := by
      intro j apart
      unfold Wakes Signals
      rw [moved, Function.update_of_ne apart, others j apart]
    constructor
    · rintro (own | ⟨j, apart, second⟩)
      · exact ⟨i, own⟩
      · exact ⟨j, (kept j apart).mpr second⟩
    · rintro ⟨j, wakes⟩
      by_cases same : j = i
      · exact Or.inl (same ▸ wakes)
      · exact Or.inr ⟨j, same, (kept j same).mp wakes⟩
  owed := owed

/-- A semaphore of a condition variable gets the monitor when its philosopher eats. -/
theorem handed_step (invariant : CondvarInvariant table place)
    (step : MonitorStep table.monitor i next place place') :
    ∀ cv, place' = .sem (.cond cv) → table.state cv = .eating := by
  intro cv here
  cases step with
  | acts _ _ _ => cases here
  | gives name ups _ =>
      obtain rfl := Place.sem.inj here
      cases phase : table.monitor.pc i with
      | signalCounted other =>
          rw [phase] at ups
          cases ups
          have owed := (invariant.wakes cv).mpr ⟨i, Or.inr (Or.inr phase)⟩
          exact (invariant.owed cv owed).2
      | waitTested other handBack => rw [phase] at ups; cases handBack <;> cases ups
      | leaveTested handBack => rw [phase] at ups; cases handBack <;> cases ups
      | _ => rw [phase] at ups; cases ups
  | takes _ _ _ => cases here
  | waits _ _ _ _ => exact invariant.handed cv here

/-- Who is owed a wakeup sleeps on. -/
theorem owed_step (invariant : CondvarInvariant table place)
    (step : MonitorStep table.monitor i next place place')
    (owed : owes (byOthers who) (table.marks who) = true) :
    (next.pc who).asleep who = true := by
  obtain ⟨j, wakes⟩ := (invariant.wakes who).mp owed
  obtain rfl := invariant.monitor.place_of_active (invariant.active_of_wakes wakes)
  exact sleepsOn step (invariant.owed who owed).1

/-- After a statement of the monitor that posts no wakeup. -/
theorem acts (after : CondvarTable) (invariant : CondvarInvariant table place)
    (step : (monitorMachine (Finset.range N)).Step table.monitor (i, action) after.monitor)
    (moved : after.pc = Function.update table.pc i pc') (states : after.state = table.state)
    (marks : after.marks = table.marks)
    (sits : ∀ place', MonitorStep table.monitor i after.monitor place place' →
      Sits i pc' (table.state i) (after.monitor.pc i))
    (knows : ∀ stage caller, pc' = .test stage caller → Knows table.state (caller.who i) stage)
    (wakes : ∀ who, Wakes after i who ↔ Wakes table i who) :
    ∃ place', CondvarInvariant after place' := by
  obtain ⟨place', monitor, moved'⟩ := invariant.monitor.step step
  refine ⟨place', ?_⟩
  apply moves after monitor (fun j apart => stays moved' apart) moved
  · rw [states]
    exact invariant.apart
  · intro j _
    rw [states]
    exact invariant.sits j
  · rw [states]
    exact sits place' moved'
  · intro j _
    rw [states]
    exact invariant.knows j
  · rw [states]
    exact knows
  · rw [states]
    exact invariant.handed_step moved'
  · rw [marks]
    exact invariant.answered
  · intro who
    rw [marks, invariant.wakes who, wakes who]
    constructor
    · rintro ⟨j, second⟩
      by_cases same : j = i
      · exact Or.inl (same ▸ second)
      · exact Or.inr ⟨j, same, second⟩
    · rintro (own | ⟨j, _, second⟩)
      · exact ⟨i, own⟩
      · exact ⟨j, second⟩
  · intro who owed
    rw [marks] at owed
    rw [states]
    exact ⟨invariant.owed_step moved' owed, (invariant.owed who owed).2⟩

/-- After a step of a philosopher between the statements of the monitor. -/
theorem keeps (after : CondvarTable) (invariant : CondvarInvariant table place)
    (inside : table.monitor.pc i = .inside) (monitor : after.monitor = table.monitor)
    (moved : after.pc = Function.update table.pc i pc') (apart : Apart after.state)
    (sitsOthers : ∀ j, j ≠ i → Sits j (table.pc j) (after.state j) (table.monitor.pc j))
    (sits : Inside (after.state i) pc')
    (knows : ∀ stage caller, pc' = .test stage caller → Knows after.state (caller.who i) stage)
    (answered : ∀ who, Answered (byOthers who) (after.marks who))
    (wakes : ∀ who, owes (byOthers who) (after.marks who) = true ↔
      ∃ caller, pc' = .test .wake caller ∧ caller.who i = who ∧ i ≠ who)
    (owed : ∀ who, owes (byOthers who) (after.marks who) = true →
      (table.monitor.pc who).asleep who = true ∧ after.state who = .eating) :
    CondvarInvariant after place := by
  have active : (table.monitor.pc i).active = true := by
    rw [inside]
    rfl
  have here := invariant.monitor.place_of_active active
  apply moves after _ _ moved apart sitsOthers
  · rw [monitor, inside]
    exact sits
  · intro j apart stage caller tests
    have second := invariant.sits j
    rw [tests] at second
    rcases second.of_test with within | begins
    · have same := invariant.monitor.exclusive active (by rw [within]; rfl : (table.monitor.pc j).active = true)
      exact absurd same.symm apart
    · rw [begins]
      trivial
  · exact knows
  · intro cv elsewhere
    rw [here] at elsewhere
    cases elsewhere
  · exact answered
  · intro who
    rw [wakes who]
    unfold Wakes Signals
    rw [moved, Function.update_self, monitor, inside]
    constructor
    · intro tests
      exact Or.inl (Or.inl tests)
    · rintro ((tests | found | counted) | ⟨j, apart, second⟩)
      · exact tests
      · cases found
      · cases counted
      · have same := invariant.monitor.exclusive active (invariant.active_of_wakes second)
        exact absurd same.symm apart
  · rw [monitor]
    exact owed
  · rw [monitor]
    exact invariant.monitor
  · intro j _
    rw [monitor]

/-- The assignments of `HUNGRY` and `THINKING`, each before a test. -/
theorem tells (state : PhiState) (caller : Caller) (invariant : CondvarInvariant table place)
    (inside : table.monitor.pc i = .inside) (awake : ∀ caller, table.pc i ≠ .test .wake caller)
    (quiet : state ≠ .eating) (sits : Inside state (.test .self caller)) :
    CondvarInvariant ((table.setState i i state).setPc i (.test .self caller)) place := by
  have settled := invariant.settled inside awake
  have marks : ((table.setState i i state).setPc i (.test .self caller)).marks = table.marks := by
    show Function.update table.marks i (noted i (table.state i) state (table.marks i)) = _
    rw [noted_quiet quiet, Function.update_eq_self]
  apply invariant.keeps ((table.setState i i state).setPc i (.test .self caller)) inside rfl rfl
    (invariant.apart.lays quiet)
  · intro j apart
    show Sits j _ (Function.update table.state i state j) _
    rw [Function.update_of_ne apart]
    exact invariant.sits j
  · show Inside (Function.update table.state i state i) _
    rw [Function.update_self]
    exact sits
  · intro stage caller' begins
    obtain ⟨rfl, rfl⟩ := CondvarPc.test.inj begins
    trivial
  · rw [marks]
    exact invariant.answered
  · intro who
    rw [marks, settled who]
    apply iff_of_false nofun
    rintro ⟨_, begins, _⟩
    cases begins
  · intro who owed
    rw [marks, settled who] at owed
    cases owed

/-- A step between the statements of the monitor that assigns nothing. -/
theorem goes (pc' : CondvarPc) (invariant : CondvarInvariant table place)
    (inside : table.monitor.pc i = .inside) (awake : ∀ caller, table.pc i ≠ .test .wake caller)
    (quiet : ∀ caller, pc' ≠ .test .wake caller) (sits : Inside (table.state i) pc')
    (knows : ∀ stage caller, pc' = .test stage caller → Knows table.state (caller.who i) stage) :
    CondvarInvariant (table.setPc i pc') place := by
  have settled := invariant.settled inside awake
  apply invariant.keeps (table.setPc i pc') inside rfl rfl invariant.apart
    (fun j _ => invariant.sits j) sits knows invariant.answered
  · intro who
    show owes (byOthers who) (table.marks who) = true ↔ _
    rw [settled who]
    apply iff_of_false nofun
    rintro ⟨caller, begins, _⟩
    exact quiet caller begins
  · exact invariant.owed

theorem inside_returnPoint (sits : Inside state (.test stage caller)) (early : stage ≠ .wake) :
    Inside state (CondvarTable.returnPoint caller) := by
  cases caller with
  | take =>
      have hungry : state = .hungry := by
        cases stage with
        | wake => exact absurd rfl early
        | _ => exact sits
      rw [hungry]
      exact nofun
  | putLeft => exact sits
  | putRight => exact sits

theorem inside_next (sits : Inside state (.test stage caller)) (reads : stage ≠ .set)
    (early : stage ≠ .wake) : Inside state (.test stage.next caller) := by
  cases caller with
  | take =>
      cases stage with
      | set => exact absurd rfl reads
      | wake => exact absurd rfl early
      | _ => exact sits
  | putLeft => exact sits
  | putRight => exact sits

theorem returnPoint_quiet' {after : Caller} :
    CondvarTable.returnPoint caller ≠ .test .wake after := by
  cases caller <;> exact nofun

theorem knows_returnPoint' {states : Nat → PhiState} {after : Caller}
    (begins : CondvarTable.returnPoint caller = .test stage after) :
    Knows states (after.who i) stage := by
  cases caller with
  | take => cases begins
  | putLeft =>
      cases begins
      trivial
  | putRight => cases begins

/-- A part of the condition of `phi_test_condvar`. -/
theorem reads (invariant : CondvarInvariant table place)
    (inside : table.monitor.pc i = .inside) (tests : table.pc i = .test stage caller)
    (reads : stage ≠ .set) (early : stage ≠ .wake) :
    CondvarInvariant (if stage.passes table.state (caller.who i) = true then
      table.setPc i (.test stage.next caller)
      else table.setPc i (CondvarTable.returnPoint caller)) place := by
  have awake : ∀ other, table.pc i ≠ .test .wake other := by
    intro other wakes
    rw [tests] at wakes
    exact early (CondvarPc.test.inj wakes).1
  have next : stage.next ≠ .wake := by
    cases stage with
    | set => exact absurd rfl reads
    | wake => exact absurd rfl early
    | _ => exact nofun
  have sits := invariant.sits i
  rw [inside, tests] at sits
  by_cases passes : stage.passes table.state (caller.who i) = true
  · rw [if_pos passes]
    apply invariant.goes _ inside awake
    · intro other begins
      exact next (CondvarPc.test.inj begins).1
    · exact inside_next sits reads early
    · intro stage' other begins
      obtain ⟨rfl, rfl⟩ := CondvarPc.test.inj begins
      exact (invariant.knows i stage caller tests).passes passes reads
  · rw [if_neg passes]
    exact invariant.goes _ inside awake (fun _ => returnPoint_quiet')
      (inside_returnPoint sits early) (fun _ _ => knows_returnPoint')

/-- The assignment of `EATING`. -/
theorem grants (invariant : CondvarInvariant table place)
    (inside : table.monitor.pc i = .inside) (tests : table.pc i = .test .set caller) :
    CondvarInvariant ((table.setState i (caller.who i) .eating).setPc i (.test .wake caller))
      place := by
  obtain ⟨hungry, leftQuiet, rightQuiet⟩ := invariant.knows i .set caller tests
  have active : (table.monitor.pc i).active = true := by
    rw [inside]
    rfl
  have settled := invariant.settled inside (by rw [tests]; exact nofun)
  have marks : ((table.setState i (caller.who i) .eating).setPc i (.test .wake caller)).marks =
      Function.update table.marks (caller.who i) (.grant i :: table.marks (caller.who i)) := by
    show Function.update table.marks (caller.who i) (noted i (table.state (caller.who i)) .eating
      (table.marks (caller.who i))) = _
    rw [hungry, noted_grant]
  -- a philosopher other than `i` that is hungry is asleep
  have sleeps : caller.who i ≠ i →
      Sits (caller.who i) (table.pc (caller.who i)) .eating (table.monitor.pc (caller.who i)) ∧
        (table.monitor.pc (caller.who i)).asleep (caller.who i) = true := by
    intro apart
    have sits := invariant.sits (caller.who i)
    rw [hungry] at sits
    apply sits.grant
    apply Bool.eq_false_iff.mpr
    intro second
    exact apart (invariant.monitor.exclusive active second).symm
  apply invariant.keeps ((table.setState i (caller.who i) .eating).setPc i (.test .wake caller))
    inside rfl rfl (invariant.apart.eats leftQuiet rightQuiet)
  · intro j apart
    show Sits j _ (Function.update table.state (caller.who i) .eating j) _
    by_cases target : j = caller.who i
    · subst target
      rw [Function.update_self]
      exact (sleeps apart).1
    · rw [Function.update_of_ne target]
      exact invariant.sits j
  · show Inside (Function.update table.state (caller.who i) .eating i) _
    have sits := invariant.sits i
    rw [inside, tests] at sits
    cases caller with
    | take => exact Function.update_self _ _ _
    | putLeft =>
        have target : Caller.putLeft.who i ≠ i := Caller.who_ne nofun
        rw [Function.update_of_ne target.symm]
        exact sits
    | putRight =>
        have target : Caller.putRight.who i ≠ i := Caller.who_ne nofun
        rw [Function.update_of_ne target.symm]
        exact sits
  · intro stage caller' begins
    obtain ⟨rfl, rfl⟩ := CondvarPc.test.inj begins
    exact Function.update_self _ _ _
  · intro who
    rw [marks]
    by_cases target : who = caller.who i
    · subst target
      rw [Function.update_self]
      exact ⟨settled _, invariant.answered _⟩
    · rw [Function.update_of_ne target]
      exact invariant.answered who
  · intro who
    rw [marks]
    by_cases target : who = caller.who i
    · subst target
      rw [Function.update_self]
      constructor
      · intro owed
        exact ⟨caller, rfl, rfl, of_decide_eq_true owed⟩
      · rintro ⟨_, _, _, apart⟩
        exact decide_eq_true apart
    · rw [Function.update_of_ne target, settled who]
      apply iff_of_false nofun
      rintro ⟨caller', begins, same, _⟩
      obtain ⟨_, rfl⟩ := CondvarPc.test.inj begins
      exact target same.symm
  · intro who owed
    rw [marks] at owed
    by_cases target : who = caller.who i
    · subst target
      rw [Function.update_self] at owed
      have apart : i ≠ caller.who i := of_decide_eq_true owed
      exact ⟨(sleeps apart.symm).2, Function.update_self _ _ _⟩
    · rw [Function.update_of_ne target, settled who] at owed
      cases owed

/-- `cond_signal` of a philosopher that lets itself eat finds nobody. -/
theorem wakesSelf (invariant : CondvarInvariant table place)
    (inside : table.monitor.pc i = .inside) (tests : table.pc i = .test .wake .take) :
    CondvarInvariant ((table.act i (.condSignal i)).setPc i .takeCheck) place := by
  have none : table.monitor.count i = 0 := by
    rw [(invariant.monitor.counters (Or.inl inside)).2 i]
    apply tally_none
    intro j
    apply Bool.eq_false_iff.mpr
    intro asleep
    -- who sleeps on `cv[i]` is `i`
    have own : j = i := by
      have sits := invariant.sits j
      cases phase : table.monitor.pc j with
      | waitUpped cv =>
          rw [phase] at sits asleep
          exact sits.1.symm.trans (of_decide_eq_true asleep)
      | inDown name =>
          rw [phase] at sits asleep
          cases name with
          | cond cv => exact sits.1.symm.trans (of_decide_eq_true asleep)
          | mutex => cases asleep
          | next => cases asleep
      | _ => rw [phase] at asleep; cases asleep
    rw [own, inside] at asleep
    cases asleep
  have unheard : table.act i (.condSignal i) = table := by
    unfold CondvarTable.act
    rw [show table.monitor.answer (i, .condSignal i) = table.monitor from
      if_neg (by rw [none]; exact lt_irrefl _)]
  have active : (table.monitor.pc i).active = true := by
    rw [inside]
    rfl
  have settled : ∀ who, owes (byOthers who) (table.marks who) = false := by
    intro who
    apply Bool.eq_false_iff.mpr
    intro owed
    rcases (invariant.wakes_iff active).mp owed with ⟨caller, second, target, apart⟩ | found | counted
    · rw [tests] at second
      obtain ⟨_, rfl⟩ := CondvarPc.test.inj second
      exact apart target
    · rw [inside] at found
      cases found
    · rw [inside] at counted
      cases counted
  have sits := invariant.sits i
  rw [inside, tests] at sits
  rw [unheard]
  apply invariant.keeps (table.setPc i .takeCheck) inside rfl rfl invariant.apart
    (fun j _ => invariant.sits j) _ nofun invariant.answered
  · intro who
    show owes (byOthers who) (table.marks who) = true ↔ _
    rw [settled who]
    apply iff_of_false nofun
    rintro ⟨_, begins, _⟩
    cases begins
  · exact invariant.owed
  · have eats : table.state i = .eating := sits
    show table.state i ≠ .thinking
    rw [eats]
    exact nofun

/-- `cond_signal` of a philosopher that lets a neighbour eat finds it asleep. -/
theorem wakesOther (invariant : CondvarInvariant table place) (seat : i < N)
    (inside : table.monitor.pc i = .inside) (tests : table.pc i = .test .wake caller)
    (puts : caller ≠ .take) :
    ∃ place', CondvarInvariant ((table.act i (.condSignal (caller.who i))).setPc i
      (CondvarTable.returnPoint caller)) place' := by
  have target : caller.who i ≠ i := Caller.who_ne puts
  have owed := (invariant.wakes _).mpr ⟨i, Or.inl ⟨caller, tests, rfl, target.symm⟩⟩
  have asleep := (invariant.owed _ owed).1
  have counted : table.monitor.count (caller.who i) > 0 := by
    rw [(invariant.monitor.counters (Or.inl inside)).2]
    apply lt_of_le_of_ne tally_nonneg
    intro none
    have member : caller.who i ∈ Finset.range N := Finset.mem_range.mpr (Caller.who_lt seat)
    have awake := tally_eq_zero none.symm member
    rw [asleep] at awake
    cases awake
  have found : table.monitor.answer (i, .condSignal (caller.who i)) =
      table.monitor.setPc i (.signalFound (caller.who i)) := if_pos counted
  have phase : (table.monitor.answer (i, .condSignal (caller.who i))).pc i =
      .signalFound (caller.who i) := by
    rw [found]
    exact Function.update_self _ _ _
  have sits := invariant.sits i
  rw [inside, tests] at sits
  have step : (monitorMachine (Finset.range N)).Step table.monitor
      (i, .condSignal (caller.who i)) (table.monitor.answer (i, .condSignal (caller.who i))) :=
    ⟨⟨Finset.mem_range.mpr seat, inside⟩, rfl⟩
  apply invariant.acts ((table.act i (.condSignal (caller.who i))).setPc i
    (CondvarTable.returnPoint caller)) step rfl rfl rfl
  · intro place' _
    show Sits i _ _ ((table.monitor.answer (i, .condSignal (caller.who i))).pc i)
    rw [phase]
    cases caller with
    | take => exact absurd rfl puts
    | putLeft => exact ⟨Or.inl rfl, sits⟩
    | putRight => exact ⟨Or.inr rfl, sits⟩
  · intro stage other begins
    exact knows_returnPoint' begins
  · intro who
    have after : Wakes ((table.act i (.condSignal (caller.who i))).setPc i
        (CondvarTable.returnPoint caller)) i who ↔ caller.who i = who := by
      unfold Wakes Signals
      show (∃ other, Function.update table.pc i _ i = _ ∧ _) ∨
        ((table.monitor.answer _).pc i = _ ∨ (table.monitor.answer _).pc i = _) ↔ _
      rw [Function.update_self, phase]
      constructor
      · rintro (⟨_, begins, _⟩ | same | counted)
        · exact absurd begins returnPoint_quiet'
        · exact MonitorPc.signalFound.inj same
        · cases counted
      · rintro rfl
        exact Or.inr (Or.inl rfl)
    rw [after]
    constructor
    · rintro rfl
      exact Or.inl ⟨caller, tests, rfl, target.symm⟩
    · rintro (⟨other, second, same, _⟩ | found | counted)
      · rw [tests] at second
        obtain ⟨_, rfl⟩ := CondvarPc.test.inj second
        exact same
      · rw [inside] at found
        cases found
      · rw [inside] at counted
        cases counted

/-- Nobody outside the monitor, or at rest in it, posts a wakeup, unless it is at that stage. -/
theorem noWakes (awake : ∀ caller, table.pc i ≠ .test .wake caller)
    (quiet : ∀ cv, ¬ Signals table.monitor i cv) : ¬ Wakes table i who := by
  rintro (⟨caller, tests, _⟩ | signals)
  · exact awake caller tests
  · exact quiet who signals

/-- Entering the monitor, waiting in it and leaving it. -/
theorem calls (action : MonitorAction) (pc' : CondvarPc) (invariant : CondvarInvariant table place)
    (step : (monitorMachine (Finset.range N)).Step table.monitor (i, action)
      (table.monitor.answer (i, action)))
    (still : table.monitor.pc i = .outside ∨ table.monitor.pc i = .inside)
    (awake : ∀ caller, table.pc i ≠ .test .wake caller)
    (begins : ∀ stage caller, pc' ≠ .test stage caller)
    (sits : ∀ place', MonitorStep table.monitor i (table.monitor.answer (i, action)) place place' →
      Sits i pc' (table.state i) ((table.monitor.answer (i, action)).pc i))
    (quiet : ∀ cv, (table.monitor.answer (i, action)).pc i ≠ .signalFound cv ∧
      (table.monitor.answer (i, action)).pc i ≠ .signalCounted cv) :
    ∃ place', CondvarInvariant ((table.act i action).setPc i pc') place' := by
  apply invariant.acts ((table.act i action).setPc i pc') step rfl rfl rfl sits
  · intro stage caller tests
    exact absurd tests (begins stage caller)
  · intro who
    apply iff_of_false
    · apply noWakes
      · intro caller tests
        rw [show ((table.act i action).setPc i pc').pc i = pc' from Function.update_self _ _ _]
          at tests
        exact begins _ _ tests
      · rintro cv (found | counted)
        · exact (quiet cv).1 found
        · exact (quiet cv).2 counted
    · apply noWakes awake
      rintro cv (found | counted)
      · rcases still with outside | inside
        · rw [outside] at found
          cases found
        · rw [inside] at found
          cases found
      · rcases still with outside | inside
        · rw [outside] at counted
          cases counted
        · rw [inside] at counted
          cases counted

/-- A thread that enters the monitor gets it, or is on the queue of `mutex`. -/
theorem entered (step : MonitorStep before i next place place')
    (outside : before.pc i = .outside) : next.pc i = .inside ∨ next.pc i = .inDown .mutex := by
  cases step with
  | acts at' acts _ =>
      rw [outside] at acts
      cases acts
  | gives name ups _ =>
      rw [outside] at ups
      cases ups
  | takes name downs moved =>
      rw [outside] at downs
      cases downs
      left
      rw [moved, Function.update_self]
      rfl
  | waits name _ downs moved =>
      rw [outside] at downs
      cases downs
      right
      rw [moved, Function.update_self]

/-- A thread that is in a statement of the monitor and not at its `up` of a condition variable
signals afterwards when it did. -/
theorem signals_resume (step : MonitorStep before i next place place')
    (busy : before.pc i ≠ .inside) (notCounted : ∀ cv, before.pc i ≠ .signalCounted cv) :
    Signals next i who ↔ Signals before i who := by
  unfold Signals
  cases step with
  | acts at' acts moved =>
      rw [moved, Function.update_self]
      generalize before.pc i = from' at busy acts
      cases acts with
      | counts cv =>
          constructor
          · rintro (impossible | same)
            · cases impossible
            · exact Or.inl (congrArg MonitorPc.signalFound (MonitorPc.signalCounted.inj same))
          · rintro (same | impossible)
            · exact Or.inr (congrArg MonitorPc.signalCounted (MonitorPc.signalFound.inj same))
            · cases impossible
      | returns => simp
      | tests cv handBack => simp
      | wakes cv => simp
      | signalsNobody => exact absurd rfl busy
      | finds cv => exact absurd rfl busy
      | registers cv => exact absurd rfl busy
      | leaves handBack => exact absurd rfl busy
  | gives name ups moved =>
      rw [moved, Function.update_self]
      cases here : before.pc i with
      | signalCounted cv => exact absurd here (notCounted cv)
      | waitTested cv handBack => simp [MonitorPc.afterUp]
      | leaveTested handBack => simp [MonitorPc.afterUp]
      | _ => rw [here] at ups; cases ups
  | takes name downs moved =>
      rw [moved, Function.update_self]
      apply iff_of_false
      · cases name <;> simp [MonitorState.returnPoint]
      · rintro (found | counted)
        · rw [found] at downs
          cases downs
        · exact notCounted who counted
  | waits name _ downs moved =>
      rw [moved, Function.update_self]
      apply iff_of_false
      · simp
      · rintro (found | counted)
        · rw [found] at downs
          cases downs
        · exact notCounted who counted

/-- A statement of the monitor, other than the `up` of a condition variable. -/
theorem resumes (invariant : CondvarInvariant table place)
    (step : (monitorMachine (Finset.range N)).Step table.monitor (i, .resume)
      (table.monitor.answer (i, .resume)))
    (away : table.monitor.pc i ≠ .outside) (busy : table.monitor.pc i ≠ .inside)
    (notCounted : ∀ cv, table.monitor.pc i ≠ .signalCounted cv) :
    ∃ place', CondvarInvariant { table.act i .resume with
      marks := CondvarTable.posted (table.monitor.pc i) table.marks } place' := by
  have marks : CondvarTable.posted (table.monitor.pc i) table.marks = table.marks := by
    unfold CondvarTable.posted
    cases here : table.monitor.pc i with
    | signalCounted cv => exact absurd here (notCounted cv)
    | _ => rfl
  rw [marks]
  have sits := invariant.sits i
  apply invariant.acts (table.act i .resume) step (Function.update_eq_self _ _).symm rfl rfl
  · intro place' moved
    apply sits.resume away busy _ moved
    rintro cv here rfl
    exact invariant.handed cv here
  · intro stage caller tests
    exact invariant.knows i stage caller tests
  · intro who
    obtain ⟨_, _, moved⟩ := invariant.monitor.step step
    unfold Wakes
    exact or_congr Iff.rfl (signals_resume moved busy notCounted)

/-- The `up` of a condition variable. -/
theorem posts {cv : Nat} (invariant : CondvarInvariant table place)
    (step : (monitorMachine (Finset.range N)).Step table.monitor (i, .resume)
      (table.monitor.answer (i, .resume)))
    (counted : table.monitor.pc i = .signalCounted cv) :
    ∃ place', CondvarInvariant { table.act i .resume with
      marks := CondvarTable.posted (table.monitor.pc i) table.marks } place' := by
  have active : (table.monitor.pc i).active = true := by
    rw [counted]
    rfl
  have sits := invariant.sits i
  rw [counted] at sits
  have awake : ∀ caller, table.pc i ≠ .test .wake caller := by
    intro caller tests
    rw [tests] at sits
    rcases sits.1 with begins | begins <;> cases begins
  have upped : (table.monitor.answer (i, .resume)).pc i = .signalUpped := by
    show (table.monitor.resume i).pc i = _
    unfold MonitorState.resume
    rw [counted]
    exact Function.update_self _ _ _
  have wakes : ∀ who, Wakes table i who ↔ who = cv := by
    intro who
    constructor
    · rintro (⟨caller, tests, _⟩ | found | second)
      · exact absurd tests (awake caller)
      · rw [counted] at found
        cases found
      · rw [counted] at second
        exact (MonitorPc.signalCounted.inj second).symm
    · rintro rfl
      exact Or.inr (Or.inr counted)
  have silent : ∀ who, ¬ Wakes { table.act i .resume with
      marks := CondvarTable.posted (table.monitor.pc i) table.marks } i who := by
    rintro who (⟨caller, tests, _⟩ | found | second)
    · exact awake caller tests
    · have phase : (table.monitor.answer (i, .resume)).pc i = _ := found
      rw [upped] at phase
      cases phase
    · have phase : (table.monitor.answer (i, .resume)).pc i = _ := second
      rw [upped] at phase
      cases phase
  have owed : owes (byOthers cv) (table.marks cv) = true :=
    (invariant.wakes_iff active).mpr ((wakes cv).mpr rfl)
  have settled : ∀ who, owes (byOthers who)
      (CondvarTable.posted (table.monitor.pc i) table.marks who) = false := by
    intro who
    rw [counted]
    show owes _ (Function.update table.marks cv _ who) = false
    by_cases target : who = cv
    · subst target
      rw [Function.update_self]
      rfl
    · rw [Function.update_of_ne target]
      apply Bool.eq_false_iff.mpr
      intro second
      exact target ((wakes who).mp ((invariant.wakes_iff active).mp second))
  obtain ⟨place', monitor, moved⟩ := invariant.monitor.step step
  refine ⟨place', ?_⟩
  apply @moves table place' i (table.pc i) { table.act i .resume with
      marks := CondvarTable.posted (table.monitor.pc i) table.marks } monitor
    (fun j apart => stays moved apart) (Function.update_eq_self _ _).symm invariant.apart
    (fun j _ => invariant.sits j) _ (fun j _ => invariant.knows j) (invariant.knows i)
    (invariant.handed_step moved)
  · intro who
    show Answered _ (CondvarTable.posted (table.monitor.pc i) table.marks who)
    rw [counted]
    show Answered _ (Function.update table.marks cv _ who)
    by_cases target : who = cv
    · subst target
      rw [Function.update_self]
      exact ⟨owed, invariant.answered who⟩
    · rw [Function.update_of_ne target]
      exact invariant.answered who
  · intro who
    show owes _ (CondvarTable.posted (table.monitor.pc i) table.marks who) = true ↔ _
    rw [settled who]
    apply iff_of_false nofun
    rintro (own | ⟨j, apart, second⟩)
    · exact silent who own
    · exact apart (invariant.monitor.exclusive active (invariant.active_of_wakes second)).symm
  · intro who second
    have none := settled who
    rw [show owes _ (CondvarTable.posted (table.monitor.pc i) table.marks who) = true from second] at none
    cases none
  · show Sits i _ _ ((table.monitor.answer (i, .resume)).pc i)
    rw [upped]
    exact sits

/-- A philosopher between two statements of the monitor. -/
theorem stepProgram (invariant : CondvarInvariant table place) (seat : i < N)
    (still : table.monitor.pc i = .outside ∨ table.monitor.pc i = .inside) :
    ∃ place', CondvarInvariant (table.stepProgram i) place' := by
  have sits := invariant.sits i
  have member := Finset.mem_range.mpr seat
  unfold CondvarTable.stepProgram
  rcases still with outside | inside
  · rw [outside] at sits
    have quiet : ∀ cv, (table.monitor.answer (i, .enter)).pc i ≠ .signalFound cv ∧
        (table.monitor.answer (i, .enter)).pc i ≠ .signalCounted cv := by
      intro cv
      obtain ⟨_, _, moved⟩ := invariant.monitor.step
        (⟨⟨member, outside⟩, rfl⟩ : (monitorMachine (Finset.range N)).Step table.monitor
          (i, .enter) (table.monitor.answer (i, .enter)))
      rcases entered moved outside with phase | phase
      · rw [phase]
        exact ⟨nofun, nofun⟩
      · rw [phase]
        exact ⟨nofun, nofun⟩
    rcases sits with ⟨thinking, thinks⟩ | ⟨eating, eats⟩
    · rw [thinking]
      apply invariant.calls .enter .takeEntered ⟨⟨member, outside⟩, rfl⟩ (Or.inl outside)
        (by rw [thinking]; exact nofun) nofun _ quiet
      intro place' moved
      rcases entered moved outside with phase | phase
      · rw [phase]
        exact thinks
      · rw [phase]
        exact Or.inl ⟨rfl, thinks⟩
    · rw [eating]
      apply invariant.calls .enter .putEntered ⟨⟨member, outside⟩, rfl⟩ (Or.inl outside)
        (by rw [eating]; exact nofun) nofun _ quiet
      intro place' moved
      rcases entered moved outside with phase | phase
      · rw [phase]
        exact eats
      · rw [phase]
        exact Or.inr ⟨rfl, eats⟩
  · rw [inside] at sits
    have leaving : (table.monitor.answer (i, .leave)).pc i =
        .leaveTested (decide (table.monitor.nextCount > 0)) := Function.update_self _ _ _
    have waiting : (table.monitor.answer (i, .condWait i)).pc i = .waitCounted i :=
      Function.update_self _ _ _
    cases here : table.pc i with
    | thinking =>
        rw [here] at sits
        exact sits.elim
    | eating =>
        rw [here] at sits
        exact sits.elim
    | takeEntered =>
        exact ⟨place, invariant.tells .hungry .take inside (by rw [here]; exact nofun) nofun rfl⟩
    | putEntered =>
        exact ⟨place, invariant.tells .thinking .putLeft inside (by rw [here]; exact nofun) nofun rfl⟩
    | test stage caller =>
        cases stage with
        | set => exact ⟨place, invariant.grants inside here⟩
        | wake =>
            by_cases take : caller = .take
            · subst take
              exact ⟨place, invariant.wakesSelf inside here⟩
            · exact invariant.wakesOther seat inside here take
        | self => exact ⟨place, invariant.reads inside here nofun nofun⟩
        | left => exact ⟨place, invariant.reads inside here nofun nofun⟩
        | right => exact ⟨place, invariant.reads inside here nofun nofun⟩
    | takeCheck =>
        rw [here] at sits
        refine ⟨place, ?_⟩
        by_cases hungry : table.state i = .hungry
        · rw [if_pos hungry]
          exact invariant.goes .takeWait inside (by rw [here]; exact nofun) nofun hungry nofun
        · have eats : table.state i = .eating := by
            have asked : table.state i ≠ .thinking := sits
            cases value : table.state i with
            | thinking => exact absurd value asked
            | hungry => exact absurd value hungry
            | eating => rfl
          rw [if_neg hungry]
          exact invariant.goes .takeLeave inside (by rw [here]; exact nofun) nofun eats nofun
    | takeWait =>
        rw [here] at sits
        apply invariant.calls (.condWait i) .takeLeave ⟨⟨member, inside⟩, rfl⟩ (Or.inr inside)
          (by rw [here]; exact nofun) nofun
        · intro _ _
          rw [waiting]
          exact ⟨rfl, rfl, sits⟩
        · intro cv
          rw [waiting]
          exact ⟨nofun, nofun⟩
    | takeLeave =>
        rw [here] at sits
        apply invariant.calls .leave .eating ⟨⟨member, inside⟩, rfl⟩ (Or.inr inside)
          (by rw [here]; exact nofun) nofun
        · intro _ _
          rw [leaving]
          exact Or.inr ⟨rfl, sits⟩
        · intro cv
          rw [leaving]
          exact ⟨nofun, nofun⟩
    | putLeave =>
        rw [here] at sits
        apply invariant.calls .leave .thinking ⟨⟨member, inside⟩, rfl⟩ (Or.inr inside)
          (by rw [here]; exact nofun) nofun
        · intro _ _
          rw [leaving]
          exact Or.inl ⟨rfl, sits⟩
        · intro cv
          rw [leaving]
          exact ⟨nofun, nofun⟩

/-- Every step keeps the invariant. -/
theorem step (invariant : CondvarInvariant table place)
    (step : condvarMachine.Step table i after) : ∃ place', CondvarInvariant after place' := by
  obtain ⟨⟨seat, admitted⟩, answered⟩ := step
  obtain rfl := Except.ok.inj answered
  unfold CondvarTable.step
  by_cases still : table.monitor.pc i = .outside ∨ table.monitor.pc i = .inside
  · rw [if_pos still]
    exact invariant.stepProgram seat still
  · rw [if_neg still]
    have away : table.monitor.pc i ≠ .outside := fun outside => still (Or.inl outside)
    have busy : table.monitor.pc i ≠ .inside := fun inside => still (Or.inr inside)
    have resumed : (monitorMachine (Finset.range N)).Step table.monitor (i, .resume)
        (table.monitor.answer (i, .resume)) :=
      ⟨⟨Finset.mem_range.mpr seat, away, busy, admitted⟩, rfl⟩
    by_cases counted : ∃ cv, table.monitor.pc i = .signalCounted cv
    · obtain ⟨cv, counted⟩ := counted
      exact invariant.posts resumed counted
    · exact invariant.resumes resumed away busy fun cv here => counted ⟨cv, here⟩

theorem init : CondvarInvariant condvarInit (.sem .mutex) where
  monitor := monitorInvariant_init
  sits := fun _ => Or.inl ⟨rfl, rfl⟩
  apart := by
    intro i _ both
    cases both.1
  knows := nofun
  handed := nofun
  answered := fun _ => trivial
  wakes := by
    intro who
    apply iff_of_false nofun
    rintro ⟨i, ⟨_, tests, _⟩ | found | counted⟩
    · cases tests
    · cases found
    · cases counted
  owed := nofun

/-- The invariant holds in every state that is reached. -/
theorem run {events : List Nat} (run : Run condvarMachine.Step condvarInit events table) :
    ∃ place, CondvarInvariant table place := by
  apply Run.invariant (fun table => ∃ place, CondvarInvariant table place) _ run ⟨_, init⟩
  intro before i after invariant step
  obtain ⟨place, invariant⟩ := invariant
  exact invariant.step step

end CondvarInvariant

end UCore.Sync.Philosophers
