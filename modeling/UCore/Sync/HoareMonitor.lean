import UCore.Sync.MonitorSafety

/-!
Contract: what the runs of a monitor guarantee.

Owns:
- that the invariant of the monitor holds in every state reached from `monitorInit`;
- mutual exclusion, the hand-over of a signal, the way back to the signaller;
- what the counters are while monitor code runs.
-/

set_option autoImplicit false

namespace UCore.Sync

open UCore.Lib MonitorState

variable {threads : Finset Nat} {before state after : MonitorState} {place place' : Place}
  {thread : Nat} {name : MonitorSem} {pc : MonitorPc} {events : List (Nat × MonitorAction)}
  {event : Nat × MonitorAction} {cv : Nat}

/-- At first the value of `mutex` is the monitor. -/
theorem monitorInvariant_init : MonitorInvariant threads monitorInit (.sem .mutex) where
  located :=
    { active := fun thread => iff_of_false nofun nofun
      drained := by
        intro name elsewhere
        refine ⟨?_, nofun⟩
        cases name with
        | mutex => exact absurd rfl elsewhere
        | next => rfl
        | cond cv => rfl
      holds := by
        intro name here
        obtain rfl := Place.sem.inj here
        exact Or.inl ⟨rfl, nofun⟩ }
  queues :=
    { queued := by
        intro name thread member
        cases name <;> cases member
      distinct := by
        intro name
        cases name <;> exact List.nodup_nil
      idle := by
        intro name _
        cases name <;> rfl }
  outside := fun _ _ => rfl
  nextCount := (tally_none fun _ => rfl).symm
  count := fun _ => (tally_none fun _ => rfl).symm
  remembers := fun _ => trivial
  backed := by
    intro name here
    obtain rfl := Place.sem.inj here
    rfl

/-- The invariant holds in every state that is reached. -/
theorem monitorInvariant_run (run : Run (monitorMachine threads).Step monitorInit events state) :
    ∃ place, MonitorInvariant threads state place := by
  apply Run.invariant (fun state => ∃ place, MonitorInvariant threads state place) _ run
    ⟨_, monitorInvariant_init⟩
  intro before event after invariant step
  obtain ⟨place, invariant⟩ := invariant
  obtain ⟨place', kept, _⟩ := invariant.step step
  exact ⟨place', kept⟩

namespace MonitorInvariant

/-! ## Mutual exclusion and the counters -/

theorem exclusive (invariant : MonitorInvariant threads state place) {other : Nat}
    (first : (state.pc thread).active = true) (second : (state.pc other).active = true) :
    thread = other := by
  have here := invariant.place_of_active first
  rw [invariant.place_of_active second] at here
  exact (Place.thread.inj here).symm

/-- While a thread runs monitor code of its own, the counters count those that gave it up. -/
theorem counters (invariant : MonitorInvariant threads state place)
    (runs : state.pc thread = .inside ∨ ∃ handBack, state.pc thread = .leaveTested handBack) :
    state.nextCount = tally threads state.pc MonitorPc.suspended ∧
      ∀ cv, state.count cv = tally threads state.pc (MonitorPc.asleep cv) := by
  have active : (state.pc thread).active = true := by
    rcases runs with inside | ⟨handBack, leaving⟩
    · rw [inside]
      rfl
    · rw [leaving]
      rfl
  -- every other thread has given up the monitor
  have inactive : ∀ other, other ≠ thread → (state.pc other).active = false := by
    intro other apart
    apply Bool.eq_false_iff.mpr
    intro second
    exact apart (invariant.exclusive second active)
  constructor
  · rw [invariant.nextCount]
    apply tally_congr
    intro other
    by_cases same : other = thread
    · subst same
      rcases runs with inside | ⟨handBack, leaving⟩
      · rw [inside]
        rfl
      · rw [leaving]
        rfl
    · have given := inactive other same
      cases phase : state.pc other with
      | signalCounted cv => rw [phase] at given; cases given
      | signalBack => rw [phase] at given; cases given
      | inDown name => cases name <;> rfl
      | _ => rfl
  · intro cv
    rw [invariant.count cv]
    apply tally_congr
    intro other
    by_cases same : other = thread
    · subst same
      rcases runs with inside | ⟨handBack, leaving⟩
      · rw [inside]
        rfl
      · rw [leaving]
        rfl
    · have given := inactive other same
      cases phase : state.pc other with
      | waitCounted cv => rw [phase] at given; cases given
      | waitTested cv handBack => rw [phase] at given; cases given
      | waitBack cv => rw [phase] at given; cases given
      | inDown name => cases name <;> rfl
      | _ => rfl

/-- When the value of `mutex` is the monitor, nobody has it or waits to have it back. -/
theorem free (invariant : MonitorInvariant threads state place)
    (value : 0 < (state.sem .mutex).value) :
    ∀ other, (state.pc other).active = false ∧ (state.pc other).suspended = false := by
  have here : place = .sem .mutex := by
    by_contra elsewhere
    have drained := (invariant.located.drained .mutex elsewhere).1
    omega
  have none : tally threads state.pc MonitorPc.signalling = 0 := by
    rw [← invariant.nextCount]
    exact invariant.backed .mutex here
  intro other
  constructor
  · apply Bool.eq_false_iff.mpr
    intro active
    rw [invariant.place_of_active active] at here
    cases here
  apply Bool.eq_false_iff.mpr
  intro suspended
  have member : other ∈ threads := by
    by_contra absent
    rw [invariant.outside other absent] at suspended
    cases suspended
  have signalling : (state.pc other).signalling = true := by
    cases phase : state.pc other with
    | inDown name => rw [phase] at suspended; cases name <;> first | rfl | cases suspended
    | signalUpped => rfl
    | _ => rw [phase] at suspended; cases suspended
  rw [tally_eq_zero none member] at signalling
  cases signalling

end MonitorInvariant

/-! ## The hand-over of a signal -/

/-- The thread is in `cond_signal` on `cv`, has found a waiter and not yet called `up`. -/
def Signals (state : MonitorState) (thread cv : Nat) : Prop :=
  state.pc thread = .signalFound cv ∨ state.pc thread = .signalCounted cv

/-- Nobody else has the monitor than `thread` while it signals on `cv`. -/
def OnlySignaller (thread cv : Nat) (state : MonitorState) : Prop :=
  ∀ other, (state.pc other).active = true → other = thread ∧ Signals state thread cv

theorem Signals.active (signals : Signals state thread cv) : (state.pc thread).active = true := by
  rcases signals with found | counted
  · rw [found]
    rfl
  · rw [counted]
    rfl

/-- Who waits on `cv` since before. -/
def Asleep (before state : MonitorState) (cv : Nat) : Prop :=
  ∀ other, (state.pc other).asleep cv = true → (before.pc other).asleep cv = true

/-- How a signal goes on: the signaller has not upped yet, the semaphore of `cv` has the monitor,
or a thread has it that waited on `cv` before. -/
inductive Handing (before : MonitorState) (thread cv : Nat) (state : MonitorState) : Place → Prop
  | signals (signals : Signals state thread cv) (asleep : Asleep before state cv) :
      Handing before thread cv state (.thread thread)
  | upped (asleep : Asleep before state cv) : Handing before thread cv state (.sem (.cond cv))
  | woken (other : Nat) (waited : (before.pc other).asleep cv = true)
      (back : state.pc other = .waitBack cv) : Handing before thread cv state (.thread other)

/-- A thread that calls `down` waits on `cv` just when it did. -/
theorem asleep_inDown (downs : pc.downs = some name) :
    MonitorPc.asleep cv (.inDown name) = pc.asleep cv := by
  cases pc <;> cases downs <;> rfl

theorem Asleep.update (asleep : Asleep before state cv)
    (moved : after.pc = Function.update state.pc thread pc)
    (kept : pc.asleep cv = true → (state.pc thread).asleep cv = true) :
    Asleep before after cv := by
  intro other sleeps
  apply asleep
  rw [moved] at sleeps
  by_cases same : other = thread
  · subst same
    rw [Function.update_self] at sleeps
    exact kept sleeps
  · rw [Function.update_of_ne same] at sleeps
    exact sleeps

/-- What one step does to a signal, until a thread that waited is active. -/
theorem Handing.step {mover : Nat} (handing : Handing before thread cv state place)
    (quiet : OnlySignaller thread cv state)
    (step : MonitorStep state mover after place place') :
    Handing before thread cv after place' := by
  cases handing with
  | signals signals asleep =>
      cases step with
      | acts pc acts moved =>
          rcases signals with found | counted
          · rw [found] at acts
            cases acts
            refine .signals (Or.inr ?_) (asleep.update moved nofun)
            rw [moved, Function.update_self]
          · rw [counted] at acts
            cases acts
      | gives name ups moved =>
          rcases signals with found | counted
          · rw [found] at ups
            cases ups
          · rw [counted] at ups moved
            cases ups
            exact .upped (asleep.update moved nofun)
      | waits name _ downs moved =>
          have apart : thread ≠ mover := by
            rintro rfl
            rcases signals with found | counted
            · rw [found] at downs
              cases downs
            · rw [counted] at downs
              cases downs
          refine .signals ?_ (asleep.update moved ?_)
          · unfold Signals
            rw [moved, Function.update_of_ne apart]
            exact signals
          · rw [asleep_inDown downs]
            exact id
  | upped asleep =>
      cases step with
      | takes name downs moved =>
          refine .woken mover ?_ ?_
          · apply asleep
            rw [← asleep_inDown downs]
            exact decide_eq_true rfl
          · rw [moved, Function.update_self]
            rfl
      | waits name _ downs moved =>
          refine .upped (asleep.update moved ?_)
          rw [asleep_inDown downs]
          exact id
  | woken other waited back =>
      -- a thread that waited is active: the signal is over
      have active : (state.pc other).active = true := by
        rw [back]
        rfl
      obtain ⟨rfl, found | counted⟩ := quiet other active
      · rw [found] at back
        cases back
      · rw [counted] at back
        cases back

/-- A signal hands the monitor to a thread that waits on `cv`: of the threads that become active
after it one that waited when the signaller found a waiter is the first. -/
theorem MonitorInvariant.handing_run (invariant : MonitorInvariant threads before place)
    (found : before.pc thread = .signalFound cv)
    (run : Run ((monitorMachine threads).StepMeeting
      (fun state _ => OnlySignaller thread cv state)) before events after) :
    ∃ place, MonitorInvariant threads after place ∧ Handing before thread cv after place := by
  have signals : Signals before thread cv := Or.inl found
  obtain rfl := invariant.place_of_active signals.active
  apply Run.invariant (fun state => ∃ place, MonitorInvariant threads state place ∧
    Handing before thread cv state place) _ run ⟨_, invariant, .signals signals fun _ => id⟩
  intro state event next carried move
  obtain ⟨place, invariant, handing⟩ := carried
  obtain ⟨place', kept, moves⟩ := invariant.step move.1
  exact ⟨place', kept, handing.step move.2 moves⟩

/-- A signaller that found a waiter: somebody waits. -/
theorem MonitorInvariant.waiter (invariant : MonitorInvariant threads state place)
    (found : state.pc thread = .signalFound cv) :
    ∃ waiter, (state.pc waiter).asleep cv = true := by
  have positive : 0 < tally threads state.pc (MonitorPc.waiting cv) := by
    have remembered := invariant.remembers thread
    rw [found] at remembered
    rw [← invariant.count cv]
    exact remembered
  obtain ⟨waiter, _, waiting⟩ := tally_pos positive
  refine ⟨waiter, ?_⟩
  have inactive : (state.pc waiter).active = false := by
    apply Bool.eq_false_iff.mpr
    intro active
    obtain rfl := invariant.exclusive (Signals.active (Or.inl found)) active
    rw [found] at waiting
    cases waiting
  cases phase : state.pc waiter with
  | inDown name => rw [phase] at waiting; cases name <;> exact waiting
  | waitUpped other => rw [phase] at waiting; exact waiting
  | outside => rw [phase] at waiting; cases waiting
  | signalUpped => rw [phase] at waiting; cases waiting
  | _ => rw [phase] at inactive; cases inactive

/-! ## The way back to the signaller -/

/-- The signaller has not been given the monitor back. -/
def Suspending (state : MonitorState) (thread cv : Nat) : Prop :=
  Signals state thread cv ∨ state.pc thread = .signalUpped ∨ state.pc thread = .inDown .next

/-- Nobody is to `up` `next`: the step does not hand the monitor back. -/
def NotBack (state : MonitorState) (event : Nat × MonitorAction) : Prop :=
  (state.pc event.1).ups ≠ some .next

theorem Suspending.step (suspending : Suspending state thread cv)
    (elsewhere : place ≠ .sem .next) (notBack : NotBack state event)
    (step : MonitorStep state event.1 after place place') :
    Suspending after thread cv ∧ place' ≠ .sem .next := by
  -- what the other threads do leaves the signaller where it is
  have others : ∀ pc, after.pc = Function.update state.pc event.1 pc → thread ≠ event.1 →
      Suspending after thread cv := by
    intro pc moved apart
    unfold Suspending Signals
    rw [moved, Function.update_of_ne apart]
    exact suspending
  by_cases same : thread = event.1
  · subst same
    cases step with
    | acts pc acts moved =>
        refine ⟨Or.inl (Or.inr ?_), nofun⟩
        rcases suspending with (found | counted) | upped | inDown
        · rw [found] at acts
          cases acts
          rw [moved, Function.update_self]
        · rw [counted] at acts
          cases acts
        · rw [upped] at acts
          cases acts
        · rw [inDown] at acts
          cases acts
    | gives name ups moved =>
        refine ⟨Or.inr (Or.inl ?_), ?_⟩
        · rcases suspending with (found | counted) | upped | inDown
          · rw [found] at ups
            cases ups
          · rw [moved, Function.update_self, counted]
            rfl
          · rw [upped] at ups
            cases ups
          · rw [inDown] at ups
            cases ups
        · intro here
          rw [Place.sem.inj here] at ups
          exact notBack ups
    | takes name downs moved =>
        have here : name = .next := by
          rcases suspending with (found | counted) | upped | inDown
          · rw [found] at downs
            cases downs
          · rw [counted] at downs
            cases downs
          · rw [upped] at downs
            exact (Option.some.inj downs).symm
          · rw [inDown] at downs
            exact (Option.some.inj downs).symm
        exact absurd (congrArg Place.sem here) elsewhere
    | waits name _ downs moved =>
        refine ⟨Or.inr (Or.inr ?_), elsewhere⟩
        rw [moved, Function.update_self]
        rcases suspending with (found | counted) | upped | inDown
        · rw [found] at downs
          cases downs
        · rw [counted] at downs
          cases downs
        · rw [upped] at downs
          rw [Option.some.inj downs]
        · rw [inDown] at downs
          rw [Option.some.inj downs]
  · cases step with
    | acts pc _ moved => exact ⟨others _ moved same, elsewhere⟩
    | gives name ups moved =>
        refine ⟨others _ moved same, ?_⟩
        intro here
        rw [Place.sem.inj here] at ups
        exact notBack ups
    | takes name _ moved => exact ⟨others _ moved same, nofun⟩
    | waits name _ _ moved => exact ⟨others _ moved same, elsewhere⟩

/-- Until somebody ups `next`, a signaller does not go on. -/
theorem MonitorInvariant.suspending_run (invariant : MonitorInvariant threads before place)
    (found : before.pc thread = .signalFound cv)
    (run : Run ((monitorMachine threads).StepMeeting NotBack) before events after) :
    Suspending after thread cv := by
  have signals : Signals before thread cv := Or.inl found
  obtain rfl := invariant.place_of_active signals.active
  have carried : ∃ place, MonitorInvariant threads after place ∧
      Suspending after thread cv ∧ place ≠ .sem .next := by
    apply Run.invariant (fun state => ∃ place, MonitorInvariant threads state place ∧
      Suspending state thread cv ∧ place ≠ .sem .next) _ run
      ⟨_, invariant, Or.inl signals, nofun⟩
    intro state event next carried move
    obtain ⟨place, invariant, suspending, elsewhere⟩ := carried
    obtain ⟨place', kept, moves⟩ := invariant.step move.1
    exact ⟨place', kept, suspending.step elsewhere move.2 moves⟩
  obtain ⟨_, _, suspending, _⟩ := carried
  exact suspending

/-- A signaller that goes on is given the monitor by `next`, and nobody is active then. -/
theorem MonitorInvariant.goesBack (invariant : MonitorInvariant threads state place)
    (step : (monitorMachine threads).Step state event after)
    (away : state.pc thread ≠ .signalBack) (back : after.pc thread = .signalBack) :
    state.Holds .next ∧ ∀ other, (state.pc other).active = false := by
  obtain ⟨place', _, moves⟩ := invariant.step step
  have mover : thread = event.1 := by
    by_contra apart
    have same : after.pc thread = state.pc thread := by
      cases moves with
      | acts _ _ moved => rw [moved, Function.update_of_ne apart]
      | gives _ _ moved => rw [moved, Function.update_of_ne apart]
      | takes _ _ moved => rw [moved, Function.update_of_ne apart]
      | waits _ _ _ moved => rw [moved, Function.update_of_ne apart]
    exact away (same.symm.trans back)
  subst mover
  cases moves with
  | acts pc acts moved =>
      rw [moved, Function.update_self] at back
      subst back
      generalize state.pc event.1 = pc at acts
      cases acts
  | gives name ups moved =>
      rw [moved, Function.update_self] at back
      cases phase : state.pc event.1 <;> rw [phase] at back <;> cases back
  | takes name downs moved =>
      rw [moved, Function.update_self] at back
      have next : name = .next := by
        cases name with
        | next => rfl
        | mutex => cases back
        | cond cv => cases back
      subst next
      refine ⟨invariant.located.holds .next rfl, ?_⟩
      intro other
      apply Bool.eq_false_iff.mpr
      intro active
      cases invariant.place_of_active active
  | waits name _ _ moved =>
      rw [moved, Function.update_self] at back
      cases back

/-- Monitors are Hoare monitors. -/
theorem hoare_monitor (run : Run (monitorMachine threads).Step monitorInit events state) :
    -- one thread at most is active
    (∀ thread other, (state.pc thread).active = true → (state.pc other).active = true →
      thread = other) ∧
    -- a signal that finds a waiter hands the monitor to a thread that waits
    (∀ thread cv, state.pc thread = .signalFound cv →
      (∃ waiter, (state.pc waiter).asleep cv = true) ∧
      (∀ events after, Run ((monitorMachine threads).StepMeeting
          (fun state _ => OnlySignaller thread cv state)) state events after →
        ∀ other, (after.pc other).active = true →
          (other = thread ∧ Signals after thread cv) ∨
            ((state.pc other).asleep cv = true ∧ after.pc other = .waitBack cv)) ∧
      ∀ events after, Run ((monitorMachine threads).StepMeeting NotBack) state events after →
        Suspending after thread cv) ∧
    -- a signaller goes on when `next` has the monitor for it
    (∀ event after thread, (monitorMachine threads).Step state event after →
      state.pc thread ≠ .signalBack → after.pc thread = .signalBack →
        state.Holds .next ∧ ∀ other, (state.pc other).active = false) ∧
    -- the counters while monitor code runs
    (∀ thread, (state.pc thread = .inside ∨ ∃ handBack, state.pc thread = .leaveTested handBack) →
      state.nextCount = tally threads state.pc MonitorPc.suspended ∧
        ∀ cv, state.count cv = tally threads state.pc (MonitorPc.asleep cv)) ∧
    -- nobody waits for a monitor that is free
    (0 < (state.sem .mutex).value →
      ∀ thread, (state.pc thread).active = false ∧ (state.pc thread).suspended = false) := by
  obtain ⟨place, invariant⟩ := monitorInvariant_run run
  refine ⟨fun _ _ => invariant.exclusive, ?_, ?_, fun _ => invariant.counters, invariant.free⟩
  · intro thread cv found
    refine ⟨invariant.waiter found, ?_, fun _ _ => invariant.suspending_run found⟩
    intro events after run other active
    obtain ⟨place, kept, handing⟩ := invariant.handing_run found run
    obtain rfl := kept.place_of_active active
    cases handing with
    | signals signals _ => exact Or.inl ⟨rfl, signals⟩
    | woken _ waited back => exact Or.inr ⟨waited, back⟩
  · intro event after thread step
    exact invariant.goesBack step

/-- Thread 0 waits on condition 0; thread 1 enters, finds it there and signals. -/
def signalEvents : List (Nat × MonitorAction) :=
  [(0, .enter), (0, .condWait 0), (0, .resume), (0, .resume), (0, .resume), (1, .enter),
    (1, .condSignal 0)]

theorem hoare_monitor_signal :
    ∃ state, Run (monitorMachine {0, 1}).Step monitorInit signalEvents state ∧
      state.pc 1 = .signalFound 0 ∧ ∃ waiter, (state.pc waiter).asleep 0 = true := by
  have done : (follow ((monitorMachine {0, 1}).next fun _ _ => True) monitorInit
      signalEvents).any (fun state => state.pc 1 = .signalFound 0) = true := by decide
  obtain ⟨state, finished, found⟩ := (Option.any_eq_true _ _).mp done
  have run : Run (monitorMachine {0, 1}).Step monitorInit signalEvents state :=
    Run.mono (fun _ _ _ move => move.1) (Machine.follow_next_run finished)
  have phase : state.pc 1 = .signalFound 0 := of_decide_eq_true found
  exact ⟨state, run, phase, ((hoare_monitor run).2.1 1 0 phase).1⟩

end UCore.Sync
