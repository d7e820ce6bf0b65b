import UCore.Process.ProcRuns

/-!
Contract: `initproc` runs `init_main`, and all other processes do as they like.

Owns:
- `init_main` as the part of its own that `initproc` has in runs of the kernel;
- what an event does to the mark of killed processes and to the parents;
- when `do_exit` is entered, and that this is never by `initproc` as long as nobody kills it.

Does not own: the file systems that `init_main` sets up and cleans up.
-/

set_option autoImplicit false

namespace UCore.Process

open UCore.Lib UCore.Schedule

/-! ## The machine -/

/-- Where `initproc` is in `init_main`: it makes the first user process, waits for children in a
loop, with a call of `schedule` after each, and returns when there are none. -/
inductive InitMain
  | starts
  | waits
  | schedules
  | quits
deriving DecidableEq, Repr

structure UserSystem where
  system : ProcSystem
  initMain : InitMain

namespace UserSystem

variable (state : UserSystem)

/-- What `initproc` may do next, besides what interrupt handlers do. -/
def InitCalls : ProcEvent → Prop
  | .fork allocProc copies => state.initMain = .starts ∧ allocProc = true ∧ copies = true
  | .wait pid => state.initMain = .waits ∧ pid = 0
  | .waitAgain | .tick | .wakeupWait _ => True
  | .schedule => state.initMain = .schedules ∨
      (state.system.phase state.system.current).calling = true
  | .exit code => state.initMain = .quits ∧ code = 0
  | .kill _ | .sleep _ | .sleepReturns | .sleepQueue _ | .queueReturns | .yield => False

instance (event : ProcEvent) : Decidable (state.InitCalls event) :=
  match event with
  | .fork _ _ => inferInstanceAs (Decidable (_ ∧ _ ∧ _))
  | .wait _ | .exit _ => inferInstanceAs (Decidable (_ ∧ _))
  | .waitAgain | .tick | .wakeupWait _ => .isTrue trivial
  | .schedule => inferInstanceAs (Decidable (_ ∨ _))
  | .kill _ | .sleep _ | .sleepReturns | .sleepQueue _ | .queueReturns | .yield => .isFalse id

def Admits (event : ProcEvent) : Prop :=
  state.system.Admits event ∧ (state.system.current = initproc → state.InitCalls event)

instance (event : ProcEvent) : Decidable (state.Admits event) :=
  inferInstanceAs (Decidable (_ ∧ (_ → _)))

/-- `init_main` after `do_wait`, which answers 0 for a zombie and an error where there are no
children. -/
def afterWait : InitMain :=
  match state.system.scanWait 0 with
  | .ok (_, some _) => .schedules
  | .ok (true, none) => .waits
  | _ => .quits

def nextInitMain (event : ProcEvent) : InitMain :=
  if state.system.current = initproc then
    match event with
    | .fork _ _ => .waits
    | .wait _ | .waitAgain => state.afterWait
    | .schedule =>
        if (state.system.phase state.system.current).calling = true then state.initMain else .waits
    | _ => state.initMain
  else state.initMain

def answer (event : ProcEvent) : Except Stop UserSystem := do
  let after ← state.system.answer event
  pure ⟨after, state.nextInitMain event⟩

end UserSystem

def userMachine : Machine UserSystem ProcEvent Stop := ⟨UserSystem.Admits, UserSystem.answer⟩

instance : DecidableRel userMachine.Admits :=
  fun state event => inferInstanceAs (Decidable (state.Admits event))

/-- The event enters `do_exit`. -/
def EntersExit (system : ProcSystem) : ProcEvent → Prop
  | .exit _ => True
  | .waitAgain => system.exiting system.current = true
  | _ => False

instance (system : ProcSystem) (event : ProcEvent) : Decidable (EntersExit system event) :=
  match event with
  | .exit _ => .isTrue trivial
  | .waitAgain => inferInstanceAs (Decidable (_ = _))
  | .fork _ _ | .wait _ | .kill _ | .sleep _ | .sleepReturns | .sleepQueue _ | .queueReturns
  | .wakeupWait _ | .yield | .schedule | .tick => .isFalse id

/-- The event does not kill `initproc`. -/
def SparesInit (state : UserSystem) (event : ProcEvent) : Prop :=
  event ≠ .kill (state.system.pid initproc)

instance : DecidableRel SparesInit := fun _ _ => inferInstanceAs (Decidable (_ ≠ _))

/-! ## What an event changes -/

variable {system before middle after : ProcSystem} {children : Nat → List Nat}

/-- `initproc` is not killed, nobody is new, and parents only change to `initproc`. -/
structure Stays (before after : ProcSystem) : Prop where
  exiting : after.exiting initproc = before.exiting initproc
  listed : ∀ proc ∈ after.procList, proc ∈ before.procList
  parent : ∀ proc, after.family.parent proc = before.family.parent proc ∨
    after.family.parent proc = some initproc

namespace Stays

theorem refl (system : ProcSystem) : Stays system system :=
  ⟨rfl, fun _ => id, fun _ => Or.inl rfl⟩

theorem trans (first : Stays before middle) (second : Stays middle after) : Stays before after where
  exiting := second.exiting.trans first.exiting
  listed proc member := first.listed proc (second.listed proc member)
  parent proc := by
    rcases second.parent proc with same | isInit
    · rw [same]
      exact first.parent proc
    · exact Or.inr isInit

theorem wakeup {proc : Nat} (done : system.wakeup proc = .ok after) : Stays system after := by
  unfold ProcSystem.wakeup at done
  cases woken : wakeupProc defaultSchedClass system.kernel proc with
  | error stop =>
      rw [woken] at done
      cases done
  | ok kernel =>
      rw [woken] at done
      obtain rfl := Except.ok.inj done
      exact ⟨rfl, fun _ => id, fun _ => Or.inl rfl⟩

/-- One round of the loop of `do_exit`. -/
theorem adopt (gone proc : Nat) :
    Stays system { system with family := system.family.adopt gone proc } := by
  refine ⟨rfl, fun _ => id, fun other => ?_⟩
  change Function.update system.family.parent proc (some initproc) other = _ ∨
    Function.update system.family.parent proc (some initproc) other = _
  by_cases same : other = proc
  · right
    rw [same, Function.update_self]
  · left
    rw [Function.update_of_ne same]

theorem adoptChildren {fuel : Nat} (done : ProcSystem.adoptChildren fuel system = .ok after) :
    Stays system after := by
  induction fuel generalizing system with
  | zero => cases done
  | succ fuel inductionHypothesis =>
      unfold ProcSystem.adoptChildren at done
      cases youngest : system.family.cptr system.current with
      | none =>
          rw [youngest] at done
          obtain rfl := Except.ok.inj done
          exact refl _
      | some proc =>
          rw [youngest] at done
          dsimp only at done
          have adopted := @adopt system system.current proc
          by_cases wakes : system.state proc = .zombie ∧ system.waitState initproc = wtChild
          · rw [if_pos wakes] at done
            cases woken : { system with family := system.family.adopt system.current proc }.wakeup
                initproc with
            | error stop =>
                rw [woken] at done
                cases done
            | ok told =>
                rw [woken] at done
                exact (adopted.trans (wakeup woken)).trans (inductionHypothesis done)
          · rw [if_neg wakes] at done
            exact adopted.trans (inductionHypothesis done)

theorem doExit {code : Int} (done : system.doExit code = .ok after) : Stays system after := by
  unfold ProcSystem.doExit at done
  by_cases panics : system.current = idleproc ∨ system.current = initproc
  · rw [if_pos panics] at done
    cases done
  rw [if_neg panics] at done
  have marked : Stays system (system.markExited code) :=
    ⟨rfl, fun _ => id, fun _ => Or.inl rfl⟩
  cases isParent : system.family.parent system.current with
  | none =>
      rw [isParent] at done
      cases done
  | some parent =>
      rw [isParent] at done
      dsimp only at done
      by_cases waits : (system.markExited code).waitState parent = wtChild
      · rw [if_pos waits] at done
        cases woken : (system.markExited code).wakeup parent with
        | error stop =>
            rw [woken] at done
            cases done
        | ok told =>
            rw [woken] at done
            exact (marked.trans (wakeup woken)).trans (adoptChildren done)
      · rw [if_neg waits] at done
        exact marked.trans (adoptChildren done)

theorem doWait {pid : Int} (done : system.doWait pid = .ok after) : Stays system after := by
  unfold ProcSystem.doWait at done
  cases scanned : system.scanWait pid with
  | error stop =>
      rw [scanned] at done
      cases done
  | ok outcome =>
      rw [scanned] at done
      obtain ⟨haskid, found⟩ := outcome
      cases found with
      | some proc =>
          have done : system.reap proc = .ok after := by cases haskid <;> exact done
          unfold ProcSystem.reap at done
          by_cases panics : proc = idleproc ∨ proc = initproc
          · rw [if_pos panics] at done
            cases done
          · rw [if_neg panics] at done
            obtain rfl := Except.ok.inj done
            exact ⟨rfl, fun _ => List.mem_of_mem_erase, fun _ => Or.inl rfl⟩
      | none =>
          cases haskid <;>
          · obtain rfl := Except.ok.inj done
            exact ⟨rfl, fun _ => id, fun _ => Or.inl rfl⟩

/-- Another process than `initproc` is killed. -/
theorem doKill {pid : Int} (invariant : ProcInvariant system children)
    (other : pid ≠ system.pid initproc) (done : system.doKill pid = .ok after) :
    Stays system after := by
  unfold ProcSystem.doKill at done
  cases found : system.findProc pid with
  | none =>
      rw [found] at done
      obtain rfl := Except.ok.inj done
      exact refl _
  | some proc =>
      rw [found] at done
      dsimp only at done
      have notInit : initproc ≠ proc := by
        rintro rfl
        exact other (invariant.findProc_some found).2.symm
      have marked : Stays system
          { system with exiting := Function.update system.exiting proc true } :=
        ⟨Function.update_of_ne notInit _ _, fun _ => id, fun _ => Or.inl rfl⟩
      by_cases killed : system.exiting proc = true
      · rw [if_pos killed] at done
        obtain rfl := Except.ok.inj done
        exact refl _
      rw [if_neg killed] at done
      by_cases asleep : interruptible (system.waitState proc) = true
      · rw [if_pos asleep] at done
        exact marked.trans (wakeup done)
      · rw [if_neg asleep] at done
        obtain rfl := Except.ok.inj done
        exact marked

/-- Every event but `do_fork`. -/
theorem act {event : ProcEvent} (invariant : ProcInvariant system children)
    (notFork : ∀ allocProc copies, event ≠ .fork allocProc copies)
    (spares : event ≠ .kill (system.pid initproc)) (done : system.act event = .ok after) :
    Stays system after := by
  cases event with
  | fork allocProc copies => exact absurd rfl (notFork allocProc copies)
  | exit code => exact doExit done
  | wait pid => exact doWait done
  | waitAgain =>
      unfold ProcSystem.act at done
      cases at' : system.phase system.current with
      | waitBack pid =>
          rw [at'] at done
          dsimp only at done
          by_cases killed : system.exiting system.current = true
          · rw [if_pos killed] at done
            have left : Stays system (system.setPhase system.current .outside) :=
              ⟨rfl, fun _ => id, fun _ => Or.inl rfl⟩
            exact left.trans (doExit done)
          · rw [if_neg killed] at done
            exact doWait done
      | _ =>
          rw [at'] at done
          obtain rfl := Except.ok.inj done
          exact refl _
  | kill pid =>
      refine doKill invariant ?_ done
      rintro rfl
      exact spares rfl
  | sleep time =>
      change system.doSleep time = .ok after at done
      unfold ProcSystem.doSleep at done
      by_cases none : time = 0
      · rw [if_pos none] at done
        obtain rfl := Except.ok.inj done
        exact refl _
      · rw [if_neg none] at done
        cases added : addTimer system.timerList ⟨system.current, time, system.current⟩ with
        | error stop =>
            rw [added] at done
            cases done
        | ok timers =>
            rw [added] at done
            obtain rfl := Except.ok.inj done
            exact ⟨rfl, fun _ => id, fun _ => Or.inl rfl⟩
  | wakeupWait proc =>
      have erased : Stays system { system with waiting := system.waiting.erase proc } :=
        ⟨rfl, fun _ => id, fun _ => Or.inl rfl⟩
      exact erased.trans (wakeup done)
  | sleepReturns | sleepQueue _ | queueReturns | yield =>
      obtain rfl := Except.ok.inj done
      exact ⟨rfl, fun _ => id, fun _ => Or.inl rfl⟩
  | schedule =>
      unfold ProcSystem.act at done
      cases switched : schedule defaultSchedClass system.kernel with
      | error stop =>
          rw [switched] at done
          cases done
      | ok kernel =>
          rw [switched] at done
          obtain rfl := Except.ok.inj done
          exact ⟨rfl, fun _ => id, fun _ => Or.inl rfl⟩
  | tick =>
      unfold ProcSystem.act at done
      cases ticked : runTimerList defaultSchedClass system.kernel system.timerList with
      | error stop =>
          rw [ticked] at done
          cases done
      | ok outcome =>
          rw [ticked] at done
          obtain rfl := Except.ok.inj done
          exact ⟨rfl, fun _ => id, fun _ => Or.inl rfl⟩

end Stays

/-- What `do_fork` adds. -/
structure Adds (before after : ProcSystem) : Prop where
  exiting : after.exiting initproc = before.exiting initproc
  listed : ∀ proc ∈ after.procList, proc ∈ before.procList ∨ proc = before.nextProc
  parent : ∀ proc, proc ≠ before.nextProc →
    after.family.parent proc = before.family.parent proc ∨
      after.family.parent proc = some initproc
  child : before.nextProc ∈ after.procList →
    after.family.parent before.nextProc = some before.current ∨
      after.family.parent before.nextProc = some initproc

theorem adds_doFork {allocates copies : Bool} (invariant : ProcInvariant system children)
    (done : system.doFork allocates copies = .ok after) : Adds system after := by
  have fresh : system.nextProc ∉ system.procList := fun member =>
    absurd (invariant.lt_of_listed member) (lt_irrefl _)
  have same : Adds system system :=
    ⟨rfl, fun _ => Or.inl, fun _ _ => Or.inl rfl, fun member => absurd member fresh⟩
  have notInit : initproc ≠ system.nextProc :=
    Nat.ne_of_lt (invariant.lt_of_listed invariant.related.initListed)
  unfold ProcSystem.doFork at done
  split_ifs at done with full fails asserts
  · exact Except.ok.inj done ▸ same
  · exact Except.ok.inj done ▸ same
  · exact Except.ok.inj done ▸ same
  · unfold ProcSystem.forkChild at done
    cases got : getPid (system.allocProc.procList.map system.allocProc.pid) maxPid.toNat
        system.allocProc.lastPid system.allocProc.nextSafe with
    | error stop =>
        rw [got] at done
        cases done
    | ok found =>
        rw [got] at done
        have woken := Stays.wakeup done
        refine ⟨?_, ?_, ?_, ?_⟩
        · exact woken.exiting.trans (Function.update_of_ne notInit _ _)
        · intro proc member
          rcases List.mem_cons.mp (woken.listed proc member) with isNew | old
          · exact Or.inr isNew
          · exact Or.inl old
        · intro proc isOld
          rcases woken.parent proc with same | isInit
          · left
            rw [same]
            exact (Function.update_of_ne isOld _ _).trans (Function.update_of_ne isOld _ _)
          · exact Or.inr isInit
        · intro _
          rcases woken.parent system.nextProc with same | isInit
          · left
            rw [same]
            exact Function.update_self _ _ _
          · exact Or.inr isInit

/-! ## Runs -/

/-- `initproc` is not killed, all other processes descend from it, and it only returns from
`init_main` when it is alone. -/
structure InitLives (state : UserSystem) : Prop where
  exiting : state.system.exiting initproc = false
  descends : ∀ proc ∈ state.system.procList, proc ≠ initproc →
    ∃ parent, state.system.family.parent proc = some parent ∧ parent ≠ idleproc ∧ parent < proc
  alone : state.initMain = .quits → ∀ proc ∈ state.system.procList, proc = initproc

variable {state next start : UserSystem} {event : ProcEvent} {events : List ProcEvent}

/-- Where `initproc` has no children, it is alone. -/
theorem InitLives.only_init (lives : InitLives state)
    (invariant : ProcInvariant state.system children) (childless : children initproc = []) :
    ∀ proc ∈ state.system.procList, proc = initproc := by
  intro proc
  induction proc using Nat.strong_induction_on with
  | h proc inductionHypothesis =>
      intro listed
      by_contra notInit
      obtain ⟨parent, isParent, notIdle, below⟩ := lives.descends proc listed notInit
      obtain ⟨parent', isParent', known, _⟩ := invariant.related.guarded proc listed
      obtain rfl : parent = parent' := Option.some.inj (isParent.symm.trans isParent')
      obtain rfl := inductionHypothesis parent below (known.resolve_left notIdle)
      have member := (invariant.related.listed initproc proc).mpr ⟨listed, isParent⟩
      rw [childless] at member
      cases member

/-- `do_wait` of `init_main` fails only where `initproc` has no children. -/
theorem afterWait_quits (invariant : ProcInvariant state.system children)
    (isInit : state.system.current = initproc) (quits : state.afterWait = .quits) :
    children initproc = [] := by
  obtain ⟨haskid, found, scanned, _⟩ := invariant.scanWait_spec 0
  have youngest := invariant.related.tree.cptr initproc
  unfold UserSystem.afterWait at quits
  rw [scanned] at quits
  have isSome : haskid = (state.system.family.cptr initproc).isSome := by
    unfold ProcSystem.scanWait at scanned
    rw [if_neg (not_not.mpr rfl), isInit] at scanned
    cases scan : state.system.scanChildren state.system.procList.length
        (state.system.family.cptr initproc) with
    | error stop =>
        rw [scan] at scanned
        cases scanned
    | ok outcome =>
        rw [scan] at scanned
        exact (Prod.mk.inj (Except.ok.inj scanned)).1.symm
  cases list : children initproc with
  | nil => rfl
  | cons proc rest =>
      rw [list] at youngest
      rw [youngest] at isSome
      subst isSome
      cases found <;> cases quits

/-- An event other than `do_fork` -/
theorem InitLives.stays {acted : ProcSystem} {initMain : InitMain} (lives : InitLives state)
    (stays : Stays state.system acted)
    (alone : initMain = .quits → ∀ proc ∈ state.system.procList, proc = initproc) :
    InitLives ⟨acted, initMain⟩ where
  exiting := stays.exiting.trans lives.exiting
  descends proc listed notInit := by
    obtain ⟨parent, isParent, notIdle, below⟩ :=
      lives.descends proc (stays.listed proc listed) notInit
    rcases stays.parent proc with same | isInit
    · exact ⟨parent, same.trans isParent, notIdle, below⟩
    · exact ⟨initproc, isInit, by decide, show 1 < proc by
        have : proc ≠ 1 := notInit
        omega⟩
  alone quits proc listed := alone quits proc (stays.listed proc listed)

/-- `do_fork` -/
theorem InitLives.adds {acted : ProcSystem} {initMain : InitMain} (lives : InitLives state)
    (invariant : ProcInvariant state.system children) (busy : state.system.current ≠ idleproc)
    (adds : Adds state.system acted) (runs : initMain ≠ .quits) : InitLives ⟨acted, initMain⟩ where
  exiting := adds.exiting.trans lives.exiting
  descends proc listed notInit := by
    have initBelow : initproc < state.system.nextProc :=
      invariant.lt_of_listed invariant.related.initListed
    have below : state.system.current < state.system.nextProc := invariant.scheduled.current_lt
    by_cases isNew : proc = state.system.nextProc
    · subst isNew
      rcases adds.child listed with isCurrent | isInit
      · exact ⟨state.system.current, isCurrent, busy, below⟩
      · exact ⟨initproc, isInit, by decide, initBelow⟩
    · have old := (adds.listed proc listed).resolve_right isNew
      obtain ⟨parent, isParent, notIdle, below⟩ := lives.descends proc old notInit
      rcases adds.parent proc isNew with same | isInit
      · exact ⟨parent, same.trans isParent, notIdle, below⟩
      · exact ⟨initproc, isInit, by decide, lt_of_le_of_ne (show 1 ≤ proc by omega)
          (Ne.symm notInit)⟩
  alone quits := absurd quits runs

/-- Where `init_main` returns, `initproc` is alone. -/
theorem InitLives.nextInitMain_quits (lives : InitLives state)
    (invariant : ProcInvariant state.system children)
    (quits : state.nextInitMain event = .quits) :
    ∀ proc ∈ state.system.procList, proc = initproc := by
  unfold UserSystem.nextInitMain at quits
  by_cases isInit : state.system.current = initproc
  · rw [if_pos isInit] at quits
    cases event with
    | fork allocProc copies => cases quits
    | wait pid | waitAgain =>
        exact lives.only_init invariant (afterWait_quits invariant isInit quits)
    | schedule =>
        dsimp only at quits
        by_cases calls : (state.system.phase state.system.current).calling = true
        · rw [if_pos calls] at quits
          exact lives.alone quits
        · rw [if_neg calls] at quits
          cases quits
    | _ => exact lives.alone quits
  · rw [if_neg isInit] at quits
    exact lives.alone quits

theorem InitLives.step (lives : InitLives state) (invariant : ProcInvariant state.system children)
    (admitted : state.Admits event) (spares : SparesInit state event)
    (answered : state.answer event = .ok next) : InitLives next := by
  obtain ⟨acted, done, changed⟩ : ∃ acted, state.system.act event = .ok acted ∧
      next = ⟨state.system.note event acted, state.nextInitMain event⟩ := by
    unfold UserSystem.answer ProcSystem.answer at answered
    cases done : state.system.act event with
    | error stop =>
        rw [done] at answered
        cases answered
    | ok acted =>
        rw [done] at answered
        exact ⟨acted, rfl, (Except.ok.inj answered).symm⟩
  subst changed
  by_cases isFork : ∃ allocProc copies, event = .fork allocProc copies
  · obtain ⟨allocProc, copies, rfl⟩ := isFork
    have busy : state.system.current ≠ idleproc := admitted.1.1
    have runs : state.nextInitMain (.fork allocProc copies) ≠ .quits := by
      intro quits
      have known := (invariant.current_outside admitted.1.2).2.2
      have isInit := lives.nextInitMain_quits invariant quits _ (known.resolve_left busy)
      unfold UserSystem.nextInitMain at quits
      rw [if_pos isInit] at quits
      cases quits
    have added := lives.adds invariant busy (adds_doFork invariant done) runs
    exact ⟨added.exiting, added.descends, added.alone⟩
  · have stayed : InitLives ⟨acted, state.nextInitMain event⟩ :=
      lives.stays (Stays.act invariant (fun allocProc copies same =>
        isFork ⟨allocProc, copies, same⟩) spares done) fun quits =>
        lives.nextInitMain_quits invariant quits
    cases event <;> exact ⟨stayed.exiting, stayed.descends, stayed.alone⟩

/-- `initproc` before its first call. -/
theorem InitLives.booted {system : ProcSystem} (booted : procInit = .ok system) :
    InitLives ⟨system, .starts⟩ := by
  have checks : (match procInit with
      | .ok system => decide (system.exiting initproc = false ∧ system.procList = [initproc])
      | .error _ => false) = true := by
    decide
  rw [booted] at checks
  obtain ⟨exiting, list⟩ := of_decide_eq_true checks
  refine ⟨exiting, ?_, nofun⟩
  intro proc listed notInit
  change proc ∈ system.procList at listed
  rw [list] at listed
  exact absurd (List.mem_singleton.mp listed) notInit

theorem initLives_run {system : ProcSystem} (booted : procInit = .ok system)
    (run : Run (userMachine.StepMeeting SparesInit) ⟨system, .starts⟩ events state) :
    InitLives state ∧ ∃ children, ProcInvariant state.system children ∧ InOrder state.system := by
  apply Run.invariant (fun state => InitLives state ∧
    ∃ children, ProcInvariant state.system children ∧ InOrder state.system) _ run
  · exact ⟨.booted booted, procInvariant_run booted (.nil system)⟩
  · rintro before event after ⟨lives, children, invariant, ordered⟩ ⟨⟨admitted, answered⟩, spares⟩
    refine ⟨lives.step invariant admitted spares answered, ?_⟩
    have answered : before.answer event = .ok after := answered
    unfold UserSystem.answer at answered
    rcases invariant.step ordered admitted.1 with ⟨next, children', done, holds, still⟩ | ⟨_, panics⟩
    · rw [done] at answered
      obtain rfl := Except.ok.inj answered
      exact ⟨children', holds, still⟩
    · rw [panics] at answered
      cases answered

/-- As long as nobody kills `initproc`, neither it nor the idle process enters `do_exit` while there
is another process, and `do_exit` does not panic. -/
theorem users_spare_init {system : ProcSystem} (booted : procInit = .ok system)
    (run : Run (userMachine.StepMeeting SparesInit) ⟨system, .starts⟩ events state)
    (admitted : userMachine.Admits state event) (enters : EntersExit state.system event)
    (user : ∃ proc ∈ state.system.procList, proc ≠ initproc) :
    state.system.current ≠ initproc ∧ state.system.current ≠ idleproc ∧
      userMachine.answer state event ≠ .error .panicked := by
  obtain ⟨lives, children, invariant, ordered⟩ := initLives_run booted run
  have notInit : state.system.current ≠ initproc := by
    intro isInit
    obtain ⟨may, calls⟩ := admitted
    have calls := calls isInit
    cases event with
    | exit code =>
        obtain ⟨proc, listed, other⟩ := user
        exact other (lives.alone calls.1 proc listed)
    | waitAgain =>
        have killed : state.system.exiting state.system.current = true := enters
        rw [isInit, lives.exiting] at killed
        cases killed
    | _ => exact enters
  have notIdle : state.system.current ≠ idleproc := by
    obtain ⟨may, _⟩ := admitted
    cases event with
    | exit code => exact may.1
    | waitAgain =>
        obtain ⟨pid, back⟩ := may
        intro isIdle
        have outside := invariant.scheduled.idle
        rw [← isIdle] at outside
        have back : state.system.phase state.system.kernel.current = .waitBack pid := back
        have outside : state.system.phase state.system.kernel.current = .outside := outside
        rw [outside] at back
        cases back
    | _ => exact absurd enters id
  refine ⟨notInit, notIdle, ?_⟩
  change state.answer event ≠ _
  unfold UserSystem.answer
  rcases invariant.step ordered admitted.1 with ⟨next, _, done, _⟩ | ⟨isInit, _⟩
  · rw [done]
    exact nofun
  · exact absurd isInit notInit

/-- `initproc` makes the first user process and waits for it. -/
def userEvents : List ProcEvent := [.schedule, .fork true true, .wait 0, .schedule]

/-- The first user process exits. -/
theorem users_spare_init_first : ∃ system state, procInit = .ok system ∧
    Run (userMachine.StepMeeting SparesInit) ⟨system, .starts⟩ userEvents state ∧
    state.system.current = 2 ∧ userMachine.answer state (.exit 0) ≠ .error .panicked := by
  have done : (match procInit with
      | .ok system => (follow (userMachine.next SparesInit) ⟨system, .starts⟩ userEvents).any
          fun state => state.system.current = 2 ∧ userMachine.Admits state (.exit 0) ∧
            2 ∈ state.system.procList
      | .error _ => false) = true := by decide
  cases booted : procInit with
  | error stop =>
      rw [booted] at done
      cases done
  | ok system =>
      rw [booted] at done
      obtain ⟨state, finished, found⟩ := (Option.any_eq_true _ _).mp done
      obtain ⟨isTwo, admitted, listed⟩ := of_decide_eq_true found
      have run := Machine.follow_next_run finished
      obtain ⟨_, _, goes⟩ := users_spare_init booted run admitted trivial
        ⟨2, listed, by decide⟩
      exact ⟨system, state, rfl, run, isTwo, goes⟩

/-- A user process kills `initproc`, which then enters `do_exit` and panics. -/
theorem init_killed : ∃ system state, procInit = .ok system ∧
    Run userMachine.Step ⟨system, .starts⟩ (userEvents ++ [.kill 1, .schedule]) state ∧
    userMachine.Admits state .waitAgain ∧ EntersExit state.system .waitAgain ∧
    (∃ proc ∈ state.system.procList, proc ≠ initproc) ∧ state.system.current = initproc ∧
    userMachine.answer state .waitAgain = .error .panicked := by
  have done : (match procInit with
      | .ok system => (follow (userMachine.next fun _ _ => True) ⟨system, .starts⟩
          (userEvents ++ [.kill 1, .schedule])).any
          fun state => userMachine.Admits state .waitAgain ∧ EntersExit state.system .waitAgain ∧
            2 ∈ state.system.procList ∧ state.system.current = initproc ∧
            (match userMachine.answer state .waitAgain with
            | .error stop => decide (stop = .panicked)
            | .ok _ => false) = true
      | .error _ => false) = true := by decide
  cases booted : procInit with
  | error stop =>
      rw [booted] at done
      cases done
  | ok system =>
      rw [booted] at done
      obtain ⟨state, finished, found⟩ := (Option.any_eq_true _ _).mp done
      obtain ⟨admitted, enters, listed, isInit, panics⟩ := of_decide_eq_true found
      have run : Run userMachine.Step ⟨system, .starts⟩ (userEvents ++ [.kill 1, .schedule]) state :=
        Run.mono (fun _ _ _ move => move.1) (Machine.follow_next_run finished)
      refine ⟨system, state, rfl, run, admitted, enters, ⟨2, listed, by decide⟩, isInit, ?_⟩
      cases answered : userMachine.answer state .waitAgain with
      | ok next =>
          rw [answered] at panics
          cases panics
      | error stop =>
          rw [answered] at panics
          rw [of_decide_eq_true panics]

end UCore.Process
