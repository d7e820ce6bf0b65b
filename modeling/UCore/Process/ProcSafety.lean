import UCore.Process.ProcInvariant

/-!
Contract: every event keeps the invariant of the processes.

Owns: for each function of `proc.c` that it goes through without a failed assertion, and the step
of the machine.

Does not own: runs of several events.
-/

set_option autoImplicit false

namespace UCore.Process

open UCore.Lib UCore.Libs UCore.Schedule UCore.Sync

variable {system : ProcSystem} {children : Nat → List Nat}

namespace ProcInvariant

/-! ## Sleeping, waking and ticks -/

/-- `wakeup_proc` of a process that is not a zombie. -/
theorem wakeup {proc : Nat} (invariant : ProcInvariant system children)
    (below : proc < system.nextProc) (alive : (system.kernel.procs proc).state ≠ .zombie) :
    Goes system (system.wakeup proc) := by
  obtain ⟨woken, done, scheduled, wakes⟩ := invariant.scheduled.wake below alive
  left
  refine ⟨_, children, ?_, invariant.rouse scheduled (rouses_of_woken alive wakes), wakes.queues⟩
  unfold ProcSystem.wakeup
  rw [done]
  rfl

theorem kill (invariant : ProcInvariant system children) (pid : Int) :
    Goes system (system.doKill pid) := by
  unfold ProcSystem.doKill
  cases found : system.findProc pid with
  | none => exact invariant.stays
  | some proc =>
      have below := invariant.lt_of_listed (invariant.findProc_some found).1
      have marked := invariant.mark (Function.update system.exiting proc true)
      show Goes system (if system.exiting proc = true then _ else _)
      split_ifs with killed asleep
      · exact invariant.stays
      · have waits : (system.kernel.procs proc).waitState ≠ 0 := by
          intro none
          have none : system.waitState proc = 0 := none
          rw [none] at asleep
          exact absurd asleep (by decide)
        exact marked.wakeup below (invariant.scheduled.alive_of_waitState below waits)
      · exact marked.stays

theorem sleep (invariant : ProcInvariant system children) (busy : system.current ≠ idleproc)
    (outside : system.phase system.current = .outside) (time : Nat) :
    Goes system (system.doSleep time) := by
  unfold ProcSystem.doSleep addTimer
  by_cases none : time = 0
  · rw [if_pos none]
    exact invariant.stays
  · rw [if_neg none, if_pos (Nat.pos_of_ne_zero none)]
    have runs : (system.phase system.kernel.current).calling = false := congrArg _ outside
    left
    refine ⟨_, children, rfl, ?_, [], (List.append_nil _).symm, rfl, rfl⟩
    refine invariant.moves ?_ runs nofun ?_
    · exact invariant.scheduled.sleep busy outside none rfl rfl
    · rintro target ⟨at', _⟩
      rw [Function.update_self] at at'
      rcases at' with calls | back
      · cases calls
      · cases back

theorem sleepQueue (invariant : ProcInvariant system children) (busy : system.current ≠ idleproc)
    (outside : system.phase system.current = .outside) (keyboard : Bool) :
    Goes system (.ok (system.waitCurrentSet keyboard)) := by
  have runs : (system.phase system.kernel.current).calling = false := congrArg _ outside
  left
  refine ⟨_, children, rfl, ?_, [], (List.append_nil _).symm, rfl, rfl⟩
  refine invariant.moves ?_ runs nofun ?_
  · refine invariant.scheduled.sleepQueue busy outside rfl ?_
    cases keyboard
    · exact Or.inl rfl
    · exact Or.inr rfl
  · rintro target ⟨at', _⟩
    rw [Function.update_self] at at'
    rcases at' with calls | back
    · cases calls
    · cases back

/-- The current process leaves the code where it slept. -/
theorem comesBack {timers : List Timer} {waiting : List Nat}
    (invariant : ProcInvariant system children)
    (scheduled : Scheduled system.kernel
      (Function.update system.phase system.kernel.current .outside) timers waiting system.nextProc) :
    ProcInvariant { system with
      phase := Function.update system.phase system.kernel.current .outside
      timerList := timers
      waiting := waiting } children :=
  invariant.rest scheduled (fun _ => Iff.rfl) fun _ _ => waits_of_update

theorem sleepReturns (invariant : ProcInvariant system children)
    (back : system.phase system.current = .sleepBack) :
    Goes system (system.act .sleepReturns) := by
  have back : system.phase system.kernel.current = .sleepBack := back
  have notWaiting : system.kernel.current ∉ system.waiting := by
    intro member
    rcases invariant.scheduled.waits _ member with calls | returned
    · rw [back] at calls
      cases calls
    · rw [back] at returned
      cases returned
  left
  refine ⟨_, children, rfl, invariant.comesBack ?_, [], .refl⟩
  apply invariant.scheduled.comeBack (by rw [back]; rfl)
  · exact fun proc member => invariant.scheduled.sleepsOnce.mem_delete.mp member
  · exact invariant.scheduled.sleepsOnce.delete
  · exact head_delTimer invariant.scheduled.counts
  · intro proc member
    refine ⟨?_, member⟩
    rintro rfl
    exact notWaiting member
  · exact invariant.scheduled.waitsOnce

theorem queueReturns (invariant : ProcInvariant system children)
    (back : system.phase system.current = .queueBack) :
    Goes system (system.act .queueReturns) := by
  have back : system.phase system.kernel.current = .queueBack := back
  have noTimer : system.kernel.current ∉ system.timerList.map Timer.proc := by
    intro member
    obtain ⟨timer, within, same⟩ := List.mem_map.mp member
    rcases invariant.scheduled.sleeps timer within with calls | returned
    · rw [same, back] at calls
      cases calls
    · rw [same, back] at returned
      cases returned
  have once := invariant.scheduled.waitsOnce
  left
  refine ⟨_, children, rfl, invariant.comesBack ?_, [], .refl⟩
  apply invariant.scheduled.comeBack (by rw [back]; rfl)
  · intro proc member
    refine ⟨?_, member⟩
    rintro rfl
    exact noTimer member
  · exact invariant.scheduled.sleepsOnce
  · exact invariant.scheduled.counts
  · exact fun proc member => once.mem_erase_iff.mp member
  · exact once.erase _

theorem wakeupWait (invariant : ProcInvariant system children) {proc : Nat}
    (member : proc ∈ system.waiting) : Goes system (system.act (.wakeupWait proc)) := by
  have at' := invariant.scheduled.waits proc member
  have below : proc < system.nextProc := by
    apply invariant.scheduled.lt_of_phase
    rcases at' with calls | back
    · rw [calls]
      exact nofun
    · rw [back]
      exact nofun
  have alive : (system.kernel.procs proc).state ≠ .zombie := by
    intro dead
    have fits := invariant.scheduled.fits proc below
    rcases at' with calls | back
    · rw [calls] at fits
      simp [Fits, dead] at fits
    · rw [back] at fits
      simp [Fits, dead] at fits
  have scheduled : Scheduled system.kernel system.phase system.timerList
      (system.waiting.erase proc) system.nextProc :=
    invariant.scheduled.less invariant.scheduled.sleeps invariant.scheduled.sleepsOnce
      invariant.scheduled.counts (fun _ => List.mem_of_mem_erase)
      (invariant.scheduled.waitsOnce.erase _)
  exact (invariant.rouse scheduled .refl).wakeup below alive

theorem yields (invariant : ProcInvariant system children) : Goes system (system.act .yield) := by
  left
  refine ⟨_, children, rfl, ?_, [], (List.append_nil _).symm, rfl, rfl⟩
  refine invariant.rouse (invariant.scheduled.retouch rfl rfl) ?_
  apply rouses_of_keepsStates
  exact keepsStates_update rfl rfl rfl

theorem ticks (invariant : ProcInvariant system children) : Goes system (system.act .tick) := by
  obtain ⟨kernel, timers, done, scheduled, rouses, queues⟩ := invariant.scheduled.tick
  left
  refine ⟨_, children, ?_, invariant.rouse scheduled rouses, queues⟩
  unfold ProcSystem.act
  rw [done]
  rfl

/-- `schedule` dispatches the first process of the run queue. -/
theorem schedules (invariant : ProcInvariant system children) :
    ∃ after, system.act .schedule = .ok after ∧ ProcInvariant after children ∧
      after.kernel.rq.runList = (queueOf system.kernel).tail ∧
      after.current = (queueOf system.kernel).head?.getD idleproc ∧
      KeepsStates system.kernel after.kernel := by
  obtain ⟨kernel, done, scheduled, keeps, list, picked⟩ := invariant.scheduled.switch
  refine ⟨_, ?_, invariant.rest scheduled (rouses_of_keepsStates keeps).zombie_iff ?_, list,
    picked, keeps⟩
  · unfold ProcSystem.act
    rw [done]
    rfl
  · rintro other target ⟨at', sleeping⟩
    rw [(keeps other).1] at sleeping
    refine ⟨?_, sleeping⟩
    by_cases same : other = system.kernel.current
    · subst same
      rw [Function.update_self] at at'
      cases phase : system.phase system.kernel.current <;> rw [phase] at at' <;>
        simp [KernelPhase.afterSchedule] at at' ⊢ <;> exact at'
    · rw [Function.update_of_ne same] at at'
      exact at'

/-! ## New processes -/

theorem wakeup_eq {proc : Nat} {woken : Kernel}
    (done : wakeupProc defaultSchedClass system.kernel proc = .ok woken) :
    system.wakeup proc = .ok { system with kernel := woken } := by
  unfold ProcSystem.wakeup
  rw [done]
  rfl

theorem forkChild_eq {child : Nat} {newPid newSafe : Int} {woken : Kernel}
    (got : getPid (system.procList.map system.pid) maxPid.toNat system.lastPid system.nextSafe =
      .ok (newPid, newSafe))
    (done : wakeupProc defaultSchedClass system.kernel child = .ok woken) :
    system.forkChild child = .ok
      { ({ system.setPid child newPid with lastPid := newPid, nextSafe := newSafe }.hashProc
          child).setLinks child system.current with
        kernel := woken } := by
  unfold ProcSystem.forkChild
  rw [got]
  exact wakeup_eq done

/-- The current process is outside: it exists and runs. -/
theorem current_outside (invariant : ProcInvariant system children)
    (outside : system.phase system.current = .outside) :
    (system.kernel.procs system.current).state = .runnable ∧
      (system.kernel.procs system.current).waitState = 0 ∧
      (system.current = idleproc ∨ system.current ∈ system.procList) := by
  have below : system.current < system.nextProc := invariant.scheduled.current_lt
  have fits := invariant.scheduled.fits system.current below
  rw [outside] at fits
  exact ⟨fits.1, fits.2, invariant.existing below (by rw [fits.1]; exact nofun)⟩

/-- What the part of `do_fork` does that makes the new process known and runnable. -/
structure Forked (system after : ProcSystem) : Prop where
  scheduled : Scheduled after.kernel after.phase after.timerList after.waiting after.nextProc
  registered : Registered after.procList after.hashList after.nrProcess after.pid after.lastPid
    after.nextSafe after.nextProc after.reaped
  recorded : Recorded after.kernel after.exitCode after.exitGiven after.reaped after.nextProc
  attentive : ∀ children, Attentive system.kernel system.phase system.pid children →
    Attentive after.kernel after.phase after.pid (Function.update children system.current
      (system.nextProc :: children system.current))
  zombies : ∀ proc, (after.kernel.procs proc).state = .zombie ↔
    (system.kernel.procs proc).state = .zombie
  family : after.family = system.allocProc.family.insert system.nextProc system.current
  procList : after.procList = system.nextProc :: system.procList
  queues : ∃ new, Queues system.kernel after.kernel new

theorem forkChild_forked
    (scheduled : Scheduled system.kernel system.phase system.timerList system.waiting
      system.nextProc)
    (registered : Registered system.procList system.hashList system.nrProcess system.pid
      system.lastPid system.nextSafe system.nextProc system.reaped)
    (recorded : Recorded system.kernel system.exitCode system.exitGiven system.reaped
      system.nextProc)
    (outside : system.phase system.current = .outside) (room : system.nrProcess < maxProcess) :
    ∃ after, system.allocProc.forkChild system.nextProc = .ok after ∧ Forked system after := by
  have some : 0 < system.nextProc := List.mem_range.mp scheduled.sched.idleAllocated
  have fresh : system.nextProc ∉ system.procList := fun member =>
    absurd ((registered.listed _).mp member).2.1 (lt_irrefl _)
  have unborn : (system.kernel.procs system.nextProc).state = .uninit :=
    scheduled.sched.unused system.nextProc (by simp)
  -- the identifier
  have few : ((system.procList.map system.pid).length : Int) < maxPid - 1 := by
    have number := registered.number
    rw [List.length_map]
    unfold maxProcess at room
    unfold maxPid
    omega
  obtain ⟨⟨newPid, newSafe⟩, got, answers⟩ := getPid_spec registered.safe few
  have others : system.procList.map (Function.update system.pid system.nextProc (-1)) =
      system.procList.map system.pid := by
    apply List.map_congr_left
    intro proc member
    apply Function.update_of_ne
    rintro rfl
    exact fresh member
  rw [← others] at got
  -- the scheduler
  obtain ⟨woken, done, born, runnable, _, same, queues⟩ := scheduled.born
  have zombies : ∀ proc, (woken.procs proc).state = .zombie ↔
      (system.kernel.procs proc).state = .zombie := by
    intro proc
    by_cases isNew : proc = system.nextProc
    · rw [isNew, runnable, unborn]
      exact iff_of_false nofun nofun
    · rw [(same proc isNew).1]
  have isPid : Function.update (Function.update system.pid system.nextProc (-1))
      system.nextProc newPid = Function.update system.pid system.nextProc newPid :=
    Function.update_idem _ _ _
  refine ⟨_, forkChild_eq got done, ⟨born, ?_, ?_, ?_, zombies, rfl, rfl, queues⟩⟩
  · have hashes : Function.update (Function.update system.pid system.nextProc (-1))
        system.nextProc newPid system.nextProc = newPid := Function.update_self _ _ _
    show Registered (system.nextProc :: system.procList)
      (Function.update system.hashList
        (pidHashfn (Function.update (Function.update system.pid system.nextProc (-1))
          system.nextProc newPid system.nextProc))
        (system.nextProc :: system.hashList
          (pidHashfn (Function.update (Function.update system.pid system.nextProc (-1))
            system.nextProc newPid system.nextProc))))
      (system.nrProcess + 1)
      (Function.update (Function.update system.pid system.nextProc (-1)) system.nextProc newPid)
      newPid newSafe (system.nextProc + 1) system.reaped
    rw [hashes, isPid]
    exact registered.add some answers
  · apply (recorded.congr zombies).grow
    rw [runnable]
    exact nofun
  · intro children attentive
    show Attentive woken system.phase
      (Function.update (Function.update system.pid system.nextProc (-1)) system.nextProc newPid) _
    rw [isPid]
    apply attentive.add outside (by rw [unborn]; exact nofun) (fun proc => (zombies proc).mp)
    intro proc target waits
    have isOld : proc ≠ system.nextProc := by
      rintro rfl
      have sleeping := waits.2
      rw [runnable] at sleeping
      cases sleeping
    exact ⟨waits.1, (same proc isOld).1 ▸ waits.2⟩

theorem forkChild (invariant : ProcInvariant system children)
    (outside : system.phase system.current = .outside) (room : system.nrProcess < maxProcess) :
    Goes system (system.allocProc.forkChild system.nextProc) := by
  obtain ⟨runs, _, known⟩ := invariant.current_outside outside
  obtain ⟨after, done, forked⟩ := forkChild_forked invariant.scheduled invariant.registered
    invariant.recorded outside room
  have some : 0 < system.nextProc :=
    List.mem_range.mp invariant.scheduled.sched.idleAllocated
  have fresh : system.nextProc ∉ system.procList := fun member =>
    absurd (invariant.lt_of_listed member) (lt_irrefl _)
  have alive : (after.kernel.procs system.current).state ≠ .zombie := by
    rw [Ne, forked.zombies, runs]
    exact nofun
  have related := (invariant.related.forget some.ne' fresh).congr
    fun proc => (forked.zombies proc).mp
  left
  refine ⟨after, _, done, ⟨forked.scheduled, forked.registered, ?_,
    forked.attentive children invariant.attentive, forked.recorded⟩, forked.queues⟩
  rw [forked.family, forked.procList]
  exact related.add fresh known alive

theorem fork (invariant : ProcInvariant system children)
    (outside : system.phase system.current = .outside) (allocates copies : Bool) :
    Goes system (system.doFork allocates copies) := by
  have idle : ¬ system.waitState system.current ≠ 0 :=
    not_not.mpr (invariant.current_outside outside).2.1
  unfold ProcSystem.doFork
  split_ifs with full
  · exact invariant.stays
  · exact invariant.stays
  · exact invariant.stays
  · exact invariant.forkChild outside (not_le.mp full)

/-! ## Waiting for a child -/

/-- The loop over the children finds a zombie where there is one. -/
theorem scanChildren_spec {nodes : List Nat} {before : Option Nat} {fuel : Nat}
    (chained : Chained system.family.optr system.family.yptr before nodes)
    (enough : nodes.length ≤ fuel) :
    ∃ found, system.scanChildren fuel nodes.head? = .ok found ∧
      (∀ proc, found = some proc → proc ∈ nodes ∧ system.state proc = .zombie) ∧
      (found = none → ∀ proc ∈ nodes, system.state proc ≠ .zombie) := by
  induction nodes generalizing before fuel with
  | nil => exact ⟨none, by cases fuel <;> rfl, nofun, fun _ => nofun⟩
  | cons first rest inductionHypothesis =>
      obtain ⟨_, firstNext, chained⟩ := chained
      cases fuel with
      | zero => cases enough
      | succ fuel =>
          rw [List.head?_cons]
          unfold ProcSystem.scanChildren
          by_cases dead : system.state first = .zombie
          · rw [if_pos dead]
            refine ⟨some first, rfl, ?_, nofun⟩
            intro proc same
            obtain rfl : first = proc := Option.some.inj same
            exact ⟨List.mem_cons_self, dead⟩
          · obtain ⟨found, done, isZombie, none⟩ :=
              inductionHypothesis chained (Nat.le_of_succ_le_succ enough)
            rw [if_neg dead, firstNext]
            refine ⟨found, done, ?_, ?_⟩
            · intro proc same
              exact ⟨List.mem_cons_of_mem _ (isZombie proc same).1, (isZombie proc same).2⟩
            · intro missing proc member
              rcases List.mem_cons.mp member with rfl | within
              · exact dead
              · exact none missing proc within

/-- `do_wait` finds a zombie to wait for where there is one. -/
theorem scanWait_spec (invariant : ProcInvariant system children) (pid : Int) :
    ∃ haskid found, system.scanWait pid = .ok (haskid, found) ∧
      (∀ proc, found = some proc →
        proc ∈ children system.current ∧ system.state proc = .zombie) ∧
      (found = none → ∀ child ∈ children system.current, Awaited system.pid pid child →
        system.state child ≠ .zombie) := by
  have related := invariant.related
  unfold ProcSystem.scanWait
  by_cases any : pid = 0
  · obtain ⟨before, _, chained⟩ := related.tree.chained system.current
    have enough : (children system.current).length ≤ system.procList.length := by
      apply List.Subperm.length_le
      apply (related.tree.nodup system.current).subperm
      exact fun child member => ((related.listed _ child).mp member).1
    obtain ⟨found, done, isZombie, none⟩ := scanChildren_spec chained enough
    rw [if_neg (not_not.mpr any), related.tree.cptr, done]
    exact ⟨_, found, rfl, isZombie, fun missing child member _ => none missing child member⟩
  · rw [if_pos any]
    cases found : system.findProc pid with
    | none =>
        refine ⟨false, none, rfl, nofun, ?_⟩
        rintro _ child member awaited
        have listed := ((related.listed _ child).mp member).1
        exact absurd (awaited.resolve_left any) (invariant.findProc_none found listed)
    | some proc =>
        obtain ⟨listed, isPid⟩ := invariant.findProc_some found
        have only : ∀ child ∈ children system.current, Awaited system.pid pid child →
            child = proc := by
          intro child member awaited
          apply invariant.registered.pid_injective ((related.listed _ child).mp member).1 listed
          rw [awaited.resolve_left any, isPid]
        by_cases isChild : system.family.parent proc = some system.current
        · have member : proc ∈ children system.current :=
            (related.listed _ proc).mpr ⟨listed, isChild⟩
          by_cases dead : system.state proc = .zombie
          · refine ⟨true, some proc, ?_, ?_, nofun⟩
            · simp only [if_pos isChild, if_pos dead]
            · intro other same
              obtain rfl : proc = other := Option.some.inj same
              exact ⟨member, dead⟩
          · refine ⟨true, none, ?_, nofun, ?_⟩
            · simp only [if_pos isChild, if_neg dead]
            · intro _ child inside awaited
              rw [only child inside awaited]
              exact dead
        · refine ⟨false, none, ?_, nofun, ?_⟩
          · simp only [if_neg isChild]
          · intro _ child inside awaited
            rw [only child inside awaited] at inside
            exact absurd (related.tree.parent _ proc inside) isChild

/-- The current process is on no list of sleepers and comes out of `do_wait`. -/
theorem leavesWait (invariant : ProcInvariant system children)
    (runs : (system.phase system.kernel.current).calling = false)
    (noTimer : system.kernel.current ∉ system.timerList.map Timer.proc)
    (noQueue : system.kernel.current ∉ system.waiting) :
    Scheduled system.kernel (Function.update system.phase system.kernel.current .outside)
      system.timerList system.waiting system.nextProc := by
  refine invariant.scheduled.comeBack runs ?_ invariant.scheduled.sleepsOnce
    invariant.scheduled.counts ?_ invariant.scheduled.waitsOnce
  · intro other member
    refine ⟨?_, member⟩
    rintro rfl
    exact noTimer member
  · intro other member
    refine ⟨?_, member⟩
    rintro rfl
    exact noQueue member

/-- The end of a zombie child. -/
theorem reap {proc : Nat} (invariant : ProcInvariant system children)
    (busy : system.current ≠ idleproc)
    (scheduled : Scheduled system.kernel
      (Function.update system.phase system.kernel.current .outside) system.timerList
      system.waiting system.nextProc)
    (member : proc ∈ children system.current) (dead : system.state proc = .zombie) :
    Goes system (system.reap proc) := by
  have related := invariant.related
  have registered := invariant.registered
  have isParent := related.tree.parent _ proc member
  let record : Reaped :=
    ⟨proc, system.family.parent proc, system.current, system.exitCode proc⟩
  have listed : record.child ∈ system.procList := ((related.listed _ proc).mp member).1
  obtain ⟨notIdle, below, fresh⟩ := (registered.listed record.child).mp listed
  have notInit : proc ≠ initproc := by
    rintro rfl
    exact busy (Option.some.inj (isParent.symm.trans related.initParent))
  unfold ProcSystem.reap
  rw [if_neg (not_or.mpr ⟨notIdle, notInit⟩)]
  left
  refine ⟨_, Function.update children system.current ((children system.current).erase proc), rfl,
    ?_, [], .refl⟩
  constructor
  · exact scheduled
  · exact registered.drop listed
  · exact related.drop registered.procNodup member dead
  · have less : Attentive system.kernel system.phase system.pid
        (Function.update children system.current ((children system.current).erase proc)) := by
      apply invariant.attentive.less
      intro parent child inside
      by_cases same : parent = system.current
      · subst same
        rw [Function.update_self] at inside
        exact List.mem_of_mem_erase inside
      · rw [Function.update_of_ne same] at inside
        exact inside
    exact less.mono (fun _ => id) fun _ _ => waits_of_update
  · have below : record.child < system.nextProc := below
    exact invariant.recorded.drop below dead fresh isParent rfl

/-- `do_wait` from `repeat` on. -/
theorem wait (invariant : ProcInvariant system children) (busy : system.current ≠ idleproc)
    (runs : (system.phase system.current).calling = false)
    (noTimer : system.current ∉ system.timerList.map Timer.proc)
    (noQueue : system.current ∉ system.waiting) (pid : Int) :
    Goes system (system.doWait pid) := by
  obtain ⟨haskid, found, done, isZombie, none⟩ := invariant.scanWait_spec pid
  have back := invariant.leavesWait runs noTimer noQueue
  unfold ProcSystem.doWait
  rw [done]
  cases found with
  | some proc =>
      obtain ⟨member, dead⟩ := isZombie proc rfl
      cases haskid <;> exact invariant.reap busy back member dead
  | none =>
      left
      cases haskid with
      | false => exact ⟨_, children, rfl, invariant.comesBack back, [], .refl⟩
      | true =>
          refine ⟨_, children, rfl, ?_, [], (List.append_nil _).symm, rfl, rfl⟩
          have others : ∀ other, other ≠ system.kernel.current →
              (sleepCurrent system.kernel wtChild).procs other = system.kernel.procs other :=
            fun other apart => Kernel.updateProc_of_ne _ _ apart
          have zombies : ∀ proc, ((sleepCurrent system.kernel wtChild).procs proc).state =
              .zombie ↔ (system.kernel.procs proc).state = .zombie := by
            intro proc
            by_cases same : proc = system.kernel.current
            · subst same
              rw [sleepCurrent, Kernel.updateProc_self, invariant.scheduled.runs runs]
              exact iff_of_false nofun nofun
            · rw [others proc same]
          constructor
          · exact invariant.scheduled.leave busy noTimer noQueue (Or.inl ⟨rfl, rfl⟩) nofun
          · exact invariant.registered
          · exact invariant.related.congr fun proc => (zombies proc).mp
          · exact invariant.attentive.begins (fun proc => (zombies proc).mp) others (none rfl)
          · exact invariant.recorded.congr zombies

end ProcInvariant

/-! ## Exit -/

/-- The invariant while `gone`, the current process, gives its children away. -/
structure ExitInvariant (system : ProcSystem) (gone : Nat) (children : Nat → List Nat) : Prop where
  isCurrent : system.current = gone
  scheduled : Scheduled system.kernel system.phase system.timerList system.waiting system.nextProc
  registered : Registered system.procList system.hashList system.nrProcess system.pid
    system.lastPid system.nextSafe system.nextProc system.reaped
  related : Related system.family (some gone) children system.procList system.kernel
  attentive : Attentive system.kernel system.phase system.pid children
  recorded : Recorded system.kernel system.exitCode system.exitGiven system.reaped system.nextProc

namespace ExitInvariant

variable {gone proc : Nat} {rest : List Nat}

/-- One round without a wakeup. -/
theorem adopts (exiting : ExitInvariant system gone children) (notInit : gone ≠ initproc)
    (notIdle : gone ≠ idleproc) (youngest : children gone = proc :: rest)
    (silent : ¬ (system.state proc = .zombie ∧ system.waitState initproc = wtChild)) :
    ExitInvariant { system with family := system.family.adopt gone proc } gone
      (FamilyTree.adopted children gone proc) where
  isCurrent := exiting.isCurrent
  scheduled := exiting.scheduled
  registered := exiting.registered
  related := exiting.related.adopt notInit notIdle youngest
  attentive := by
    apply exiting.attentive.adopt exiting.related.tree youngest (fun _ => id) fun _ _ => id
    intro dead target waits
    exact silent ⟨dead, exiting.scheduled.waitState_of_waits waits⟩
  recorded := exiting.recorded

/-- One round that wakes `initproc`. -/
theorem adoptsWaking (exiting : ExitInvariant system gone children) (notInit : gone ≠ initproc)
    (notIdle : gone ≠ idleproc) (youngest : children gone = proc :: rest) :
    ∃ woken, { system with family := system.family.adopt gone proc }.wakeup initproc =
        .ok { system with family := system.family.adopt gone proc, kernel := woken } ∧
      ExitInvariant { system with family := system.family.adopt gone proc, kernel := woken } gone
        (FamilyTree.adopted children gone proc) ∧
      ∃ new, Queues system.kernel woken new := by
  have related := exiting.related
  have below : initproc < system.nextProc :=
    ((exiting.registered.listed initproc).mp related.initListed).2.1
  obtain ⟨woken, done, scheduled, wakes⟩ := exiting.scheduled.wake below related.initAlive
  have rouses := rouses_of_woken related.initAlive wakes
  have answered : { system with family := system.family.adopt gone proc }.wakeup initproc =
      .ok { system with family := system.family.adopt gone proc, kernel := woken } :=
    ProcInvariant.wakeup_eq done
  refine ⟨woken, answered, ?_, wakes.queues⟩
  constructor
  · exact wakes.wakes.current.trans exiting.isCurrent
  · exact scheduled
  · exact exiting.registered
  · exact (related.adopt notInit notIdle youngest).congr fun other => (rouses.zombie_iff other).mp
  · apply exiting.attentive.adopt related.tree youngest (fun other => (rouses.zombie_iff other).mp)
      fun _ _ => rouses.waits
    rintro _ target ⟨_, sleeping⟩
    rw [wakes.wakes.runnable] at sleeping
    cases sleeping
  · exact exiting.recorded.congr rouses.zombie_iff

/-- The loop of `do_exit` gives all children away. -/
theorem adoptChildren (exiting : ExitInvariant system gone children) (notInit : gone ≠ initproc)
    (notIdle : gone ≠ idleproc) (list : children gone = rest) (fuel : Nat)
    (enough : rest.length < fuel) :
    ∃ after children', ProcSystem.adoptChildren fuel system = .ok after ∧
      ProcInvariant after children' ∧ ∃ new, Queues system.kernel after.kernel new := by
  induction rest generalizing system children fuel with
  | nil =>
      have none : system.family.cptr system.current = none := by
        rw [exiting.isCurrent, exiting.related.tree.cptr, list]
        rfl
      refine ⟨system, children, ?_, ?_, [], .refl⟩
      · cases fuel with
        | zero => cases enough
        | succ fuel =>
            unfold ProcSystem.adoptChildren
            rw [none]
      · exact ⟨exiting.scheduled, exiting.registered, exiting.related.left list,
          exiting.attentive, exiting.recorded⟩
  | cons proc rest inductionHypothesis =>
      have some : system.family.cptr system.current = some proc := by
        rw [exiting.isCurrent, exiting.related.tree.cptr, list]
        rfl
      have fewer : FamilyTree.adopted children gone proc gone = rest := by
        unfold FamilyTree.adopted
        rw [Function.update_of_ne notInit, Function.update_self, list]
        rfl
      cases fuel with
      | zero => cases enough
      | succ fuel =>
          have less : rest.length < fuel := Nat.lt_of_succ_lt_succ enough
          unfold ProcSystem.adoptChildren
          rw [some]
          simp only [exiting.isCurrent]
          by_cases wakes : system.state proc = .zombie ∧ system.waitState initproc = wtChild
          · obtain ⟨woken, done, still, first, firstQueues⟩ :=
              exiting.adoptsWaking notInit notIdle list
            obtain ⟨after, children', finished, holds, new, queues⟩ :=
              inductionHypothesis still fewer fuel less
            rw [if_pos wakes, done]
            exact ⟨after, children', finished, holds, first ++ new, firstQueues.trans queues⟩
          · rw [if_neg wakes]
            exact inductionHypothesis (exiting.adopts notInit notIdle list wakes) fewer fuel less

end ExitInvariant

namespace ProcInvariant

/-- Only the current process becomes a zombie. -/
theorem exitCurrent_zombies (kernel : Kernel) (proc : Nat) :
    ((exitCurrent kernel).procs proc).state = .zombie ↔
      (kernel.procs proc).state = .zombie ∨ proc = kernel.current := by
  by_cases same : proc = kernel.current
  · subst same
    rw [exitCurrent, Kernel.updateProc_self]
    exact iff_of_true rfl (Or.inr rfl)
  · rw [exitCurrent, Kernel.updateProc_of_ne _ _ same, or_iff_left same]

/-- The current process is a zombie, and its parent was told. -/
theorem exits {told : Kernel} {parent : Nat} (invariant : ProcInvariant system children)
    (outside : system.phase system.current = .outside) (notInit : system.current ≠ initproc)
    (isParent : system.family.parent system.current = some parent) (code : Int)
    (scheduled : Scheduled told (Function.update system.phase system.current .exitCalls)
      system.timerList system.waiting system.nextProc)
    (rouses : Rouses (exitCurrent system.kernel) told)
    (current : told.current = system.current)
    (awake : (told.procs parent).state = .sleeping → (told.procs parent).waitState ≠ wtChild) :
    ExitInvariant { system.markExited code with kernel := told } system.current children := by
  have zombies : ∀ proc, (told.procs proc).state = .zombie ↔
      (system.kernel.procs proc).state = .zombie ∨ proc = system.current := by
    intro proc
    rw [rouses.zombie_iff]
    exact exitCurrent_zombies system.kernel proc
  have alive : (system.kernel.procs system.current).state ≠ .zombie := by
    rw [(invariant.current_outside outside).1]
    exact nofun
  constructor
  · exact current
  · exact scheduled
  · exact invariant.registered
  · exact invariant.related.exits notInit fun proc => (zombies proc).mp
  · have only : ∀ other, system.current ∈ children other → other = parent := fun other member =>
      Option.some.inj ((invariant.related.tree.parent _ _ member).symm.trans isParent)
    apply invariant.attentive.exits only fun proc => (zombies proc).mp
    · intro proc target waits
      refine waits_of_moved ?_ ?_ (rouses.waits waits)
      · intro other apart
        exact congrArg Proc.state (Kernel.updateProc_of_ne system.kernel _ apart)
      · rintro target ⟨at', _⟩
        rw [Function.update_self] at at'
        rcases at' with calls | back
        · cases calls
        · cases back
    · exact fun target waits => awake waits.2 (scheduled.waitState_of_waits waits)
  · exact invariant.recorded.exits alive zombies

theorem exit (invariant : ProcInvariant system children) (busy : system.current ≠ idleproc)
    (outside : system.phase system.current = .outside) (code : Int) :
    Goes system (system.doExit code) := by
  by_cases isInit : system.current = initproc
  · right
    refine ⟨isInit, ?_⟩
    unfold ProcSystem.doExit
    rw [if_pos (Or.inr isInit)]
  · obtain ⟨runs, noWait, known⟩ := invariant.current_outside outside
    have listed := known.resolve_left busy
    obtain ⟨parent, isParent, parentKnown, _⟩ := invariant.related.guarded _ listed
    obtain ⟨noTimer, noQueue⟩ := invariant.scheduled.outside_free outside
    have parentBelow := invariant.lt_of_known parentKnown
    have scheduled : Scheduled (exitCurrent system.kernel)
        (Function.update system.phase system.current .exitCalls) system.timerList system.waiting
        system.nextProc :=
      invariant.scheduled.leave busy noTimer noQueue ⟨rfl, noWait⟩ nofun
    have enough : (children system.current).length < system.procList.length + 1 := by
      apply Nat.lt_succ_of_le
      apply List.Subperm.length_le
      apply (invariant.related.tree.nodup system.current).subperm
      exact fun child member => ((invariant.related.listed _ child).mp member).1
    left
    unfold ProcSystem.doExit
    rw [if_neg (not_or.mpr ⟨busy, isInit⟩), isParent]
    by_cases waits : (system.markExited code).waitState parent = wtChild
    · have alive : ((exitCurrent system.kernel).procs parent).state ≠ .zombie := by
        apply scheduled.alive_of_waitState parentBelow
        rw [show ((exitCurrent system.kernel).procs parent).waitState = _ from waits]
        decide
      obtain ⟨told, done, still, wakes⟩ := scheduled.wake parentBelow alive
      have exiting := invariant.exits outside isInit isParent code still
        (rouses_of_woken alive wakes) wakes.wakes.current (by
          rw [wakes.wakes.runnable]
          exact nofun)
      obtain ⟨after, children', finished, holds, new, queues⟩ :=
        exiting.adoptChildren isInit busy rfl _ enough
      obtain ⟨first, firstQueues⟩ := wakes.queues
      refine ⟨after, children', ?_, holds, first ++ new, ?_⟩
      · have answered : (system.markExited code).wakeup parent =
            .ok { system.markExited code with kernel := told } := wakeup_eq done
        simp only [if_pos waits, answered, bind, Except.bind]
        exact finished
      · exact Queues.trans ⟨firstQueues.runList, firstQueues.procNum, firstQueues.current⟩ queues
    · have exiting := invariant.exits outside isInit isParent code scheduled .refl rfl
        fun _ => waits
      obtain ⟨after, children', finished, holds, new, queues⟩ :=
        exiting.adoptChildren isInit busy rfl _ enough
      refine ⟨after, children', ?_, holds, new, queues.runList, queues.procNum, queues.current⟩
      simp only [if_neg waits, bind, Except.bind, pure, Except.pure]
      exact finished

/-! ## The step -/

/-- `do_wait` goes on after its call of `schedule`. -/
theorem waitAgain (invariant : ProcInvariant system children) {pid : Int}
    (back : system.phase system.current = .waitBack pid) :
    Goes system (system.act .waitAgain) := by
  have busy : system.current ≠ idleproc := by
    intro isIdle
    have outside := invariant.scheduled.idle
    rw [← isIdle, back] at outside
    cases outside
  have runs : (system.phase system.current).calling = false := congrArg _ back
  have noTimer : system.current ∉ system.timerList.map Timer.proc := by
    intro member
    obtain ⟨timer, within, same⟩ := List.mem_map.mp member
    rcases invariant.scheduled.sleeps timer within with calls | returned
    · rw [same, back] at calls
      cases calls
    · rw [same, back] at returned
      cases returned
  have noQueue : system.current ∉ system.waiting := by
    intro member
    rcases invariant.scheduled.waits _ member with calls | returned
    · rw [back] at calls
      cases calls
    · rw [back] at returned
      cases returned
  unfold ProcSystem.act
  rw [back]
  by_cases killed : system.exiting system.current = true
  · have left := invariant.comesBack (invariant.leavesWait runs noTimer noQueue)
    have outside : (system.setPhase system.current .outside).phase system.current = .outside :=
      Function.update_self _ _ _
    simp only [if_pos killed]
    exact left.exit busy outside (-9)
  · simp only [if_neg killed]
    exact invariant.wait busy runs noTimer noQueue pid

/-- Every event but `schedule`. -/
theorem act_goes (invariant : ProcInvariant system children) {event : ProcEvent}
    (admitted : system.Admits event) (notSchedule : event ≠ .schedule) :
    Goes system (system.act event) := by
  cases event with
  | fork allocates copies => exact invariant.fork admitted.2 allocates copies
  | exit code => exact invariant.exit admitted.1 admitted.2 code
  | wait pid =>
      obtain ⟨noTimer, noQueue⟩ := invariant.scheduled.outside_free admitted.2
      exact invariant.wait admitted.1 (congrArg _ admitted.2) noTimer noQueue pid
  | waitAgain =>
      obtain ⟨pid, back⟩ := admitted
      exact invariant.waitAgain back
  | kill pid => exact invariant.kill pid
  | sleep time => exact invariant.sleep admitted.1 admitted.2 time
  | sleepReturns => exact invariant.sleepReturns admitted
  | sleepQueue keyboard => exact invariant.sleepQueue admitted.1 admitted.2 keyboard
  | queueReturns => exact invariant.queueReturns admitted
  | wakeupWait proc => exact invariant.wakeupWait admitted
  | yield => exact invariant.yields
  | schedule => exact absurd rfl notSchedule
  | tick => exact invariant.ticks

end ProcInvariant

end UCore.Process
