import UCore.Process.ProcSafety

/-!
Contract: what holds in every state of the kernel that is reached from `proc_init`.

Owns:
- that the invariant holds after `proc_init` and along every run;
- that the run queue holds the processes that want to run, in the order in which they came;
- that the relation links are those of a tree and zombies are waited for once, by their parents;
- that identifiers are unique.
-/

set_option autoImplicit false

namespace UCore.Process

open UCore.Lib UCore.Schedule

variable {system start state : ProcSystem} {children : Nat → List Nat} {events : List ProcEvent}
  {event : ProcEvent}

/-! ## After `proc_init` -/

theorem scheduled_boot : Scheduled bootKernel (fun _ => .outside) [] [] 1 where
  sched := bootKernel_invariant
  counted := rfl
  fits proc below := by
    obtain rfl : proc = 0 := by omega
    exact ⟨rfl, rfl⟩
  calling := nofun
  runs := fun _ => rfl
  idle := rfl
  fresh := fun _ _ => rfl
  sleeps := nofun
  sleepsOnce := .nil
  counts := nofun
  waits := nofun
  waitsOnce := List.nodup_nil

theorem registered_boot :
    Registered [] (fun _ => []) 1 bootSystem.pid maxPid maxPid 1 [] where
  listed := by
    intro proc
    refine iff_of_false List.not_mem_nil ?_
    rintro ⟨notIdle, below, _⟩
    exact notIdle (Nat.lt_one_iff.mp below)
  procNodup := List.nodup_nil
  hashed := fun _ _ => iff_of_false List.not_mem_nil fun both => List.not_mem_nil both.1
  hashNodup := fun _ => List.nodup_nil
  number := rfl
  pidNodup := List.nodup_nil
  pidRange := nofun
  safe := ⟨by decide, le_rfl, le_rfl, nofun⟩
  reapedOld := nofun

theorem alive_boot (proc : Nat) : (bootKernel.procs proc).state ≠ .zombie := by
  show (if proc = idleproc then { allocatedProc with state := .runnable, needResched := true }
    else allocatedProc).state ≠ .zombie
  split_ifs <;> exact nofun

/-- The links when `initproc` is the only child. -/
theorem related_boot {kernel : Kernel} (alive : ∀ proc, (kernel.procs proc).state ≠ .zombie) :
    Related (bootSystem.allocProc.family.insert initproc idleproc) none
      (Function.update (fun _ => []) idleproc [initproc]) [initproc] kernel where
  tree := by
    have boot : FamilyTree bootSystem.allocProc.family none fun _ => [] :=
      { cptr := fun parent => by
          show Function.update (fun _ => none) 1 none parent = none
          rw [Function.update_eq_self_iff.mpr rfl]
        chained := fun _ => ⟨none, fun _ => rfl, trivial⟩
        nodup := fun _ => List.nodup_nil
        parent := nofun }
    exact boot.insert fun _ => List.not_mem_nil
  listed parent proc := by
    show _ ↔ _ ∧ Function.update bootSystem.allocProc.family.parent initproc (some idleproc) proc =
      some parent
    by_cases isInit : proc = initproc
    · rw [isInit, Function.update_self]
      by_cases isIdle : parent = idleproc
      · rw [isIdle, Function.update_self]
        exact iff_of_true List.mem_cons_self ⟨List.mem_cons_self, rfl⟩
      · rw [Function.update_of_ne isIdle]
        exact iff_of_false List.not_mem_nil fun both => isIdle (Option.some.inj both.2).symm
    · refine iff_of_false ?_ fun both => isInit (List.mem_singleton.mp both.1)
      by_cases isIdle : parent = idleproc
      · rw [isIdle, Function.update_self]
        exact fun member => isInit (List.mem_singleton.mp member)
      · rw [Function.update_of_ne isIdle]
        exact List.not_mem_nil
  guarded proc member := by
    rw [List.mem_singleton.mp member]
    exact ⟨idleproc, Function.update_self initproc _ bootSystem.allocProc.family.parent,
      Or.inl rfl, fun _ => alive idleproc⟩
  initListed := List.mem_cons_self
  initParent := Function.update_self initproc _ bootSystem.allocProc.family.parent
  initAlive := alive initproc

theorem ProcInvariant.note {after : ProcSystem} (invariant : ProcInvariant after children) :
    ProcInvariant (system.note event after) children := by
  have same : (system.note event after).kernel = after.kernel := by cases event <;> rfl
  cases event <;>
    exact ⟨invariant.scheduled, invariant.registered, invariant.related, invariant.attentive,
      invariant.recorded⟩

/-- The processes were dispatched in the order in which they were queued. -/
def InOrder (system : ProcSystem) : Prop :=
  system.arrivals = system.dispatches ++ system.kernel.rq.runList

theorem InOrder.note {after : ProcSystem} {new : List Nat} (ordered : InOrder system)
    (notSchedule : event ≠ .schedule) (queues : Queues system.kernel after.kernel new) :
    InOrder (system.note event after) := by
  have noted : system.arrivals ++ after.kernel.rq.runList.drop system.kernel.rq.runList.length =
      system.dispatches ++ after.kernel.rq.runList := by
    rw [queues.runList, List.drop_left, show system.arrivals = _ from ordered, List.append_assoc]
  cases event with
  | schedule => exact absurd rfl notSchedule
  | _ => exact noted

/-- `proc_init` makes `initproc`. -/
theorem procInit_holds :
    ∃ start children, procInit = .ok start ∧ ProcInvariant start children ∧ InOrder start := by
  have recorded : Recorded bootKernel bootSystem.exitCode bootSystem.exitGiven [] 1 :=
    ⟨fun proc _ dead => absurd dead (alive_boot proc), List.nodup_nil, nofun⟩
  obtain ⟨first, done, forked⟩ := @ProcInvariant.forkChild_forked bootSystem scheduled_boot
    registered_boot recorded rfl (by decide)
  have alive : ∀ proc, (first.kernel.procs proc).state ≠ .zombie := fun proc dead =>
    alive_boot proc ((forked.zombies proc).mp dead)
  have attentive := forked.attentive (fun _ => []) fun _ _ waits => absurd waits (not_waits rfl)
  have related : Related first.family none
      (Function.update (fun _ => []) idleproc [initproc]) first.procList first.kernel := by
    rw [forked.family, forked.procList]
    exact related_boot alive
  have invariant : ProcInvariant first (Function.update (fun _ => []) idleproc [initproc]) :=
    ⟨forked.scheduled, forked.registered, related, attentive, forked.recorded⟩
  have ordered : InOrder bootSystem := rfl
  obtain ⟨new, queues⟩ := forked.queues
  refine ⟨bootSystem.note (.fork true true) first, _, ?_, invariant.note,
    ordered.note nofun queues⟩
  have acted : bootSystem.act (.fork true true) = .ok first := done
  unfold procInit ProcSystem.answer
  rw [acted]
  rfl

/-! ## Runs -/

/-- One step keeps the invariant and the order, or `initproc` exits. -/
theorem ProcInvariant.step (invariant : ProcInvariant system children) (ordered : InOrder system)
    (admitted : system.Admits event) :
    (∃ after children, system.answer event = .ok after ∧ ProcInvariant after children ∧
      InOrder after) ∨
    (system.current = initproc ∧ system.answer event = .error .panicked) := by
  by_cases isSchedule : event = .schedule
  · subst isSchedule
    obtain ⟨after, done, holds, list, picked, keeps⟩ := invariant.schedules
    left
    refine ⟨system.note .schedule after, children, ?_, holds.note, ?_⟩
    · unfold ProcSystem.answer
      rw [done]
      rfl
    · show system.arrivals ++ _ = (system.dispatches ++ _) ++ after.kernel.rq.runList
      rw [show system.arrivals = _ from ordered, List.append_assoc, List.append_assoc, list]
      apply congrArg (system.dispatches ++ ·)
      show queueOf system.kernel = _
      cases queue : queueOf system.kernel with
      | nil =>
          rw [queue] at picked
          rw [if_pos (show after.current = idleproc from picked)]
          rfl
      | cons next rest =>
          rw [queue] at picked
          have isNext : after.current = next := picked
          have notIdle : next ≠ idleproc :=
            (invariant.scheduled.ready_of_queued (queue ▸ List.mem_cons_self)).2
          rw [isNext, if_neg notIdle]
          rfl
  · rcases invariant.act_goes admitted isSchedule with
      ⟨after, children', done, holds, new, queues⟩ | ⟨isInit, panics⟩
    · left
      refine ⟨system.note event after, children', ?_, holds.note, ordered.note isSchedule queues⟩
      unfold ProcSystem.answer
      rw [done]
      rfl
    · right
      refine ⟨isInit, ?_⟩
      unfold ProcSystem.answer
      rw [panics]
      rfl

theorem procInvariant_run (booted : procInit = .ok start)
    (run : Run procMachine.Step start events state) :
    ∃ children, ProcInvariant state children ∧ InOrder state := by
  apply Run.invariant (fun state => ∃ children, ProcInvariant state children ∧ InOrder state) _ run
  · obtain ⟨first, children, isFirst, invariant, ordered⟩ := procInit_holds
    obtain rfl : first = start := Except.ok.inj (isFirst.symm.trans booted)
    exact ⟨children, invariant, ordered⟩
  · rintro before event after ⟨children, invariant, ordered⟩ ⟨admitted, answered⟩
    have answered : before.answer event = .ok after := answered
    rcases invariant.step ordered admitted with
      ⟨next, children', done, holds, still⟩ | ⟨_, panics⟩
    · obtain rfl : next = after := Except.ok.inj (done.symm.trans answered)
      exact ⟨children', holds, still⟩
    · rw [panics] at answered
      cases answered

/-! ## The run queue -/

/-- `initproc` makes a process and sleeps for two ticks. -/
def queueEvents : List ProcEvent :=
  [.schedule, .fork true true, .sleep 2, .schedule, .tick, .tick]

/-- The run queue holds the processes that want to run, each once, in the order in which they
came. -/
theorem run_queue_exact (booted : procInit = .ok start)
    (run : Run procMachine.Step start events state) :
    (∀ proc, proc ∈ state.kernel.rq.runList ↔
      state.state proc = .runnable ∧ proc ≠ state.current ∧ proc ≠ idleproc) ∧
    state.kernel.rq.runList.Nodup ∧
    state.kernel.rq.procNum = state.kernel.rq.runList.length ∧
    -- no zombie is queued or picked
    (∀ proc ∈ state.kernel.rq.runList, state.state proc ≠ .zombie) ∧
    (∀ after, procMachine.Step state .schedule after → after.state after.current ≠ .zombie) ∧
    -- the order, of one step and since the start
    (∀ after, procMachine.Step state .schedule after →
      after.current = (queueOf state.kernel).head?.getD idleproc ∧
        after.kernel.rq.runList = (queueOf state.kernel).tail) ∧
    (∀ event after, procMachine.Step state event after → event ≠ .schedule →
      ∃ new, after.kernel.rq.runList = state.kernel.rq.runList ++ new) ∧
    state.arrivals = state.dispatches ++ state.kernel.rq.runList ∧
    -- no assertion fails
    (∀ event, state.Admits event → state.answer event ≠ .error .assertFailed) := by
  obtain ⟨children, invariant, ordered⟩ := procInvariant_run booted run
  have listed := invariant.scheduled.sched.listed
  have exact' : ∀ proc, proc ∈ state.kernel.rq.runList ↔
      state.state proc = .runnable ∧ proc ≠ state.current ∧ proc ≠ idleproc := by
    intro proc
    rw [listed.mem_iff]
    exact and_assoc.trans (and_congr_right fun _ => and_comm)
  have scheduled : ∀ after, procMachine.Step state .schedule after →
      after.state after.current ≠ .zombie ∧
        after.current = (queueOf state.kernel).head?.getD idleproc ∧
        after.kernel.rq.runList = (queueOf state.kernel).tail := by
    rintro after ⟨admitted, answered⟩
    obtain ⟨acted, done, _, list, picked, keeps⟩ := invariant.schedules
    have answered : state.answer .schedule = .ok after := answered
    unfold ProcSystem.answer at answered
    rw [done] at answered
    obtain rfl := Except.ok.inj answered
    refine ⟨?_, picked, list⟩
    show (acted.kernel.procs acted.current).state ≠ .zombie
    rw [(keeps _).1, picked]
    cases queue : queueOf state.kernel with
    | nil =>
        have idle : (state.kernel.procs idleproc).state ≠ .zombie := by
          rw [invariant.scheduled.sched.idleRunnable]
          exact nofun
        exact idle
    | cons next rest =>
        have ready : Ready state.kernel.procs next :=
          invariant.scheduled.ready_of_queued (queue ▸ List.mem_cons_self)
        have alive : (state.kernel.procs next).state ≠ .zombie := by
          rw [ready.1]
          exact nofun
        exact alive
  refine ⟨exact', listed.nodup, invariant.scheduled.counted, ?_,
    fun after step => (scheduled after step).1, fun after step => (scheduled after step).2, ?_,
    ordered, ?_⟩
  · intro proc member
    rw [((exact' proc).mp member).1]
    exact nofun
  · rintro event after ⟨admitted, answered⟩ notSchedule
    have answered : state.answer event = .ok after := answered
    unfold ProcSystem.answer at answered
    rcases invariant.act_goes admitted notSchedule with
      ⟨acted, _, done, _, new, queues⟩ | ⟨_, panics⟩
    · rw [done] at answered
      obtain rfl := Except.ok.inj answered
      refine ⟨new, Eq.trans ?_ queues.runList⟩
      cases event <;> rfl
    · rw [panics] at answered
      cases answered
  · intro event admitted failed
    rcases invariant.step ordered admitted with ⟨after, _, done, _⟩ | ⟨_, panics⟩
    · rw [done] at failed
      cases failed
    · rw [panics] at failed
      cases failed

theorem run_queue_exact_sleeper :
    ∃ start state, procInit = .ok start ∧ Run procMachine.Step start queueEvents state ∧
      1 ∈ state.kernel.rq.runList ∧ state.kernel.rq.runList.Nodup := by
  have done : (match procInit with
      | .ok start => (follow (procMachine.next fun _ _ => True) start queueEvents).any
          fun state => 1 ∈ state.kernel.rq.runList
      | .error _ => false) = true := by decide
  cases booted : procInit with
  | error stop =>
      rw [booted] at done
      cases done
  | ok start =>
      rw [booted] at done
      obtain ⟨state, finished, found⟩ := (Option.any_eq_true _ _).mp done
      have run : Run procMachine.Step start queueEvents state :=
        Run.mono (fun _ _ _ move => move.1) (Machine.follow_next_run finished)
      exact ⟨start, state, rfl, run, of_decide_eq_true found, (run_queue_exact booted run).2.1⟩

/-! ## The process tree -/

/-- `initproc` makes a process, waits for it and gets its exit code. -/
def reapEvents : List ProcEvent :=
  [.schedule, .fork true true, .wait 0, .schedule, .exit 5, .schedule, .waitAgain]

/-- The relation links are those of a tree, the lists agree with the processes that exist, and each
zombie is waited for once, by its parent. -/
theorem family_tree (booted : procInit = .ok start)
    (run : Run procMachine.Step start events state) :
    ∃ children : Nat → List Nat,
      -- the links of each parent are those of the list of its children
      (∀ parent, state.family.cptr parent = (children parent).head? ∧
        Chained state.family.optr state.family.yptr none (children parent) ∧
        (children parent).Nodup) ∧
      (∀ parent proc, proc ∈ children parent ↔
        proc ∈ state.procList ∧ state.family.parent proc = some parent) ∧
      (∀ proc ∈ state.procList, ∃! parent, proc ∈ children parent) ∧
      -- the lists and the counter
      (∀ proc, proc ∈ state.procList ↔ proc ≠ idleproc ∧ proc < state.nextProc ∧
        proc ∉ state.reaped.map Reaped.child) ∧
      state.procList.Nodup ∧
      (∀ bucket, (state.hashList bucket).Nodup ∧ ∀ proc, proc ∈ state.hashList bucket ↔
        proc ∈ state.procList ∧ pidHashfn (state.pid proc) = bucket) ∧
      state.nrProcess = state.procList.length + 1 ∧
      -- zombies
      (state.reaped.map Reaped.child).Nodup ∧
      (∀ record ∈ state.reaped, record.parent = some record.reaper ∧
        state.exitGiven record.child = some record.code) ∧
      (∀ proc target, Waits state.kernel state.phase proc target → ∀ child ∈ children proc,
        Awaited state.pid target child → state.state child ≠ .zombie) := by
  obtain ⟨children, invariant, _⟩ := procInvariant_run booted run
  have related := invariant.related
  have registered := invariant.registered
  refine ⟨children, ?_, related.listed, ?_, registered.listed, registered.procNodup,
    fun bucket => ⟨registered.hashNodup bucket, registered.hashed bucket⟩, registered.number,
    invariant.recorded.once, ?_, invariant.attentive⟩
  · intro parent
    obtain ⟨before, whole, chained⟩ := related.tree.chained parent
    obtain rfl := whole nofun
    exact ⟨related.tree.cptr parent, chained, related.tree.nodup parent⟩
  · intro proc listed
    obtain ⟨parent, isParent, _⟩ := related.guarded proc listed
    have member := (related.listed parent proc).mpr ⟨listed, isParent⟩
    exact ⟨parent, member, fun other inside => related.tree.unique inside member⟩
  · intro record member
    obtain ⟨isParent, given, _⟩ := invariant.recorded.byParent record member
    exact ⟨isParent, given⟩

theorem family_tree_reap :
    ∃ start state, procInit = .ok start ∧ Run procMachine.Step start reapEvents state ∧
      state.reaped = [⟨2, some 1, 1, 5⟩] ∧ state.nrProcess = state.procList.length + 1 := by
  have done : (match procInit with
      | .ok start => (follow (procMachine.next fun _ _ => True) start reapEvents).any
          fun state => state.reaped = [⟨2, some 1, 1, 5⟩]
      | .error _ => false) = true := by decide
  cases booted : procInit with
  | error stop =>
      rw [booted] at done
      cases done
  | ok start =>
      rw [booted] at done
      obtain ⟨state, finished, found⟩ := (Option.any_eq_true _ _).mp done
      have run : Run procMachine.Step start reapEvents state :=
        Run.mono (fun _ _ _ move => move.1) (Machine.follow_next_run finished)
      obtain ⟨_, _, _, _, _, _, _, number, _⟩ := family_tree booted run
      exact ⟨start, state, rfl, run, of_decide_eq_true found, number⟩

/-! ## Identifiers -/

/-- `get_pid` ends with an identifier that no process has, and a walk along the whole list keeps
that identifier. -/
theorem get_pid_unique (booted : procInit = .ok start)
    (run : Run procMachine.Step start events state) (few : state.nrProcess ≤ maxProcess) :
    ∃ answer : Int × Int,
      Returns (fun fuel => getPid (state.procList.map state.pid) fuel state.lastPid
        state.nextSafe) answer ∧
      1 ≤ answer.1 ∧ answer.1 < maxPid ∧
      (∀ proc ∈ state.procList, state.pid proc ≠ answer.1) ∧
      -- the fast path
      (state.lastPid + 1 < maxPid → state.lastPid + 1 < state.nextSafe →
        answer.1 = state.lastPid + 1 ∧
          (scanPids (state.procList.map state.pid) answer.1 maxPid).1 = false ∧
          (scanPids (state.procList.map state.pid) answer.1 maxPid).2.1 = answer.1) := by
  obtain ⟨children, invariant, _⟩ := procInvariant_run booted run
  have number := invariant.registered.number
  have short : ((state.procList.map state.pid).length : Int) < maxPid - 1 := by
    rw [List.length_map]
    unfold maxProcess at few
    unfold maxPid
    omega
  obtain ⟨answer, returns, unused, small, safe⟩ :=
    getPid_returns invariant.registered.safe short
  refine ⟨answer, returns, safe.positive, small, ?_, ?_⟩
  · intro proc listed same
    exact unused (same ▸ List.mem_map_of_mem listed)
  · intro below before
    refine ⟨?_, scanPids_unused unused⟩
    have fast : Returns (fun fuel => getPid (state.procList.map state.pid) fuel state.lastPid
        state.nextSafe) (state.lastPid + 1, state.nextSafe) := by
      refine ⟨0, fun fuel _ => ?_⟩
      dsimp only
      unfold getPid
      rw [if_neg (not_le.mpr below), if_neg (not_le.mpr before)]
    rw [returns.unique fast]

/-- `initproc` made a process. -/
theorem get_pid_unique_fork : ∃ start state, procInit = .ok start ∧
    Run procMachine.Step start [.schedule, .fork true true] state ∧
    state.procList.map state.pid = [2, 1] ∧
    ∃ answer : Int × Int, 1 ≤ answer.1 ∧ answer.1 < maxPid ∧
      ∀ proc ∈ state.procList, state.pid proc ≠ answer.1 := by
  have done : (match procInit with
      | .ok start => (follow (procMachine.next fun _ _ => True) start
          [.schedule, .fork true true]).any
          fun state => state.procList.map state.pid = [2, 1] ∧ state.nrProcess ≤ maxProcess
      | .error _ => false) = true := by decide
  cases booted : procInit with
  | error stop =>
      rw [booted] at done
      cases done
  | ok start =>
      rw [booted] at done
      obtain ⟨state, finished, found⟩ := (Option.any_eq_true _ _).mp done
      obtain ⟨pids, few⟩ := of_decide_eq_true found
      have run : Run procMachine.Step start [.schedule, .fork true true] state :=
        Run.mono (fun _ _ _ move => move.1) (Machine.follow_next_run finished)
      obtain ⟨answer, _, positive, small, unused, _⟩ := get_pid_unique booted run few
      exact ⟨start, state, rfl, run, pids, answer, positive, small, unused⟩

end UCore.Process
