import UCore.Process.FamilyTree
import UCore.Process.RunQueue

/-!
Contract: which processes exist, how they are related and what is known of those that exited.

Owns:
- the four parts of the invariant on the process lists, the relation links, the processes that
  wait for a child, and the exit codes;
- what a new process, a new zombie, one round of the loop of `do_exit` and the end of a zombie do
  to each part.

Does not own: the run queue.
-/

set_option autoImplicit false

namespace UCore.Process

open UCore.Lib UCore.Schedule

variable {kernel after : Kernel} {phase phase' : Nat → KernelPhase} {children : Nat → List Nat}
  {family : Family} {leaving : Option Nat} {procList : List Nat} {hashList : Nat → List Nat}
  {nrProcess nextProc proc : Nat} {pid : Nat → Int} {lastPid nextSafe : Int} {reaped : List Reaped}
  {exitCode : Nat → Int} {exitGiven : Nat → Option Int}

/-! ## The process list and the hash lists -/

/-- The lists and the counter agree with the processes that exist: those that were created and not
yet waited for. The idle process is on no list. -/
structure Registered (procList : List Nat) (hashList : Nat → List Nat) (nrProcess : Nat)
    (pid : Nat → Int) (lastPid nextSafe : Int) (nextProc : Nat) (reaped : List Reaped) : Prop where
  listed : ∀ proc, proc ∈ procList ↔
    proc ≠ idleproc ∧ proc < nextProc ∧ proc ∉ reaped.map Reaped.child
  procNodup : procList.Nodup
  hashed : ∀ bucket proc, proc ∈ hashList bucket ↔ proc ∈ procList ∧ pidHashfn (pid proc) = bucket
  hashNodup : ∀ bucket, (hashList bucket).Nodup
  number : nrProcess = procList.length + 1
  pidNodup : (procList.map pid).Nodup
  pidRange : ∀ proc ∈ procList, 0 < pid proc ∧ pid proc < maxPid
  safe : PidSafe (procList.map pid) lastPid nextSafe
  reapedOld : ∀ record ∈ reaped, record.child < nextProc

namespace Registered

/-- A new process with an identifier that no process has. -/
theorem add {newPid newSafe : Int}
    (registered : Registered procList hashList nrProcess pid lastPid nextSafe nextProc reaped)
    (some : 0 < nextProc) (answers : Answers (procList.map pid) (newPid, newSafe)) :
    Registered (nextProc :: procList)
      (Function.update hashList (pidHashfn newPid) (nextProc :: hashList (pidHashfn newPid)))
      (nrProcess + 1) (Function.update pid nextProc newPid) newPid newSafe (nextProc + 1)
      reaped := by
  obtain ⟨unusedPid, small, safe⟩ := answers
  have fresh : nextProc ∉ procList := fun member =>
    absurd ((registered.listed nextProc).mp member).2.1 (lt_irrefl _)
  have samePid : ∀ proc ∈ procList, Function.update pid nextProc newPid proc = pid proc := by
    intro proc member
    apply Function.update_of_ne
    rintro rfl
    exact fresh member
  have pids : (nextProc :: procList).map (Function.update pid nextProc newPid) =
      newPid :: procList.map pid := by
    rw [List.map_cons, Function.update_self, List.map_congr_left samePid]
  constructor
  · intro proc
    rw [List.mem_cons, registered.listed proc]
    constructor
    · rintro (rfl | ⟨notIdle, below, notReaped⟩)
      · refine ⟨some.ne', Nat.lt_succ_self _, ?_⟩
        intro gone
        obtain ⟨record, within, same⟩ := List.mem_map.mp gone
        have old := registered.reapedOld record within
        omega
      · exact ⟨notIdle, Nat.lt_succ_of_lt below, notReaped⟩
    · rintro ⟨notIdle, below, notReaped⟩
      rcases Nat.lt_succ_iff_lt_or_eq.mp below with old | new
      · exact Or.inr ⟨notIdle, old, notReaped⟩
      · exact Or.inl new
  · exact List.nodup_cons.mpr ⟨fresh, registered.procNodup⟩
  · intro bucket proc
    by_cases isNew : proc = nextProc
    · subst isNew
      have unhashed : proc ∉ hashList bucket := fun member =>
        fresh ((registered.hashed bucket proc).mp member).1
      rw [Function.update_self]
      by_cases here : bucket = pidHashfn newPid
      · subst here
        rw [Function.update_self]
        exact iff_of_true List.mem_cons_self ⟨List.mem_cons_self, rfl⟩
      · rw [Function.update_of_ne here]
        exact iff_of_false unhashed fun both => here both.2.symm
    · rw [Function.update_of_ne isNew, List.mem_cons, or_iff_right isNew, ← registered.hashed]
      by_cases here : bucket = pidHashfn newPid
      · subst here
        rw [Function.update_self, List.mem_cons, or_iff_right isNew]
      · rw [Function.update_of_ne here]
  · intro bucket
    by_cases here : bucket = pidHashfn newPid
    · subst here
      rw [Function.update_self]
      refine List.nodup_cons.mpr ⟨?_, registered.hashNodup _⟩
      exact fun member => fresh ((registered.hashed _ nextProc).mp member).1
    · rw [Function.update_of_ne here]
      exact registered.hashNodup bucket
  · rw [registered.number, List.length_cons]
  · rw [pids]
    exact List.nodup_cons.mpr ⟨unusedPid, registered.pidNodup⟩
  · intro proc member
    by_cases isNew : proc = nextProc
    · subst isNew
      rw [Function.update_self]
      exact ⟨safe.positive, small⟩
    · have old : proc ∈ procList := (List.mem_cons.mp member).resolve_left isNew
      rw [samePid proc old]
      exact registered.pidRange proc old
  · rw [pids]
    exact safe
  · exact fun record member => Nat.lt_succ_of_lt (registered.reapedOld record member)

/-- A process that was waited for. -/
theorem drop {record : Reaped}
    (registered : Registered procList hashList nrProcess pid lastPid nextSafe nextProc reaped)
    (member : record.child ∈ procList) :
    Registered (procList.erase record.child)
      (Function.update hashList (pidHashfn (pid record.child))
        ((hashList (pidHashfn (pid record.child))).erase record.child))
      (nrProcess - 1) pid lastPid nextSafe nextProc (record :: reaped) := by
  have erased : ∀ proc, proc ∈ procList.erase record.child ↔
      proc ≠ record.child ∧ proc ∈ procList := fun proc =>
    registered.procNodup.mem_erase_iff
  have fewer : ((procList.erase record.child).map pid).Sublist (procList.map pid) :=
    List.erase_sublist.map pid
  constructor
  · intro proc
    rw [erased, registered.listed, List.map_cons, List.mem_cons, not_or]
    constructor
    · rintro ⟨apart, notIdle, below, notReaped⟩
      exact ⟨notIdle, below, apart, notReaped⟩
    · rintro ⟨notIdle, below, apart, notReaped⟩
      exact ⟨apart, notIdle, below, notReaped⟩
  · exact registered.procNodup.erase _
  · intro bucket proc
    rw [erased]
    by_cases here : bucket = pidHashfn (pid record.child)
    · subst here
      rw [Function.update_self, (registered.hashNodup _).mem_erase_iff, registered.hashed]
      exact and_assoc.symm
    · rw [Function.update_of_ne here, registered.hashed]
      constructor
      · rintro ⟨listed, isBucket⟩
        refine ⟨⟨?_, listed⟩, isBucket⟩
        rintro rfl
        exact here isBucket.symm
      · exact fun both => ⟨both.1.2, both.2⟩
  · intro bucket
    by_cases here : bucket = pidHashfn (pid record.child)
    · subst here
      rw [Function.update_self]
      exact (registered.hashNodup _).erase _
    · rw [Function.update_of_ne here]
      exact registered.hashNodup bucket
  · have positive : 0 < procList.length := List.length_pos_of_mem member
    rw [registered.number, List.length_erase_of_mem member]
    omega
  · exact fewer.nodup registered.pidNodup
  · exact fun proc inside => registered.pidRange proc ((erased proc).mp inside).2
  · have safe := registered.safe
    exact ⟨safe.positive, safe.small, safe.bound, fun other inside =>
      safe.unused other (fewer.subset inside)⟩
  · intro other inside
    rcases List.mem_cons.mp inside with rfl | old
    · exact ((registered.listed _).mp member).2.1
    · exact registered.reapedOld other old

/-- Two processes do not share an identifier. -/
theorem pid_injective {other : Nat}
    (registered : Registered procList hashList nrProcess pid lastPid nextSafe nextProc reaped)
    (first : proc ∈ procList) (second : other ∈ procList) (same : pid proc = pid other) :
    proc = other :=
  List.inj_on_of_nodup_map registered.pidNodup first second same

end Registered

/-! ## The relations -/

/-- The lists of children hold the processes that exist, and every parent is alive, but for the one
that gives its children away. -/
structure Related (family : Family) (leaving : Option Nat) (children : Nat → List Nat)
    (procList : List Nat) (kernel : Kernel) : Prop where
  tree : FamilyTree family leaving children
  listed : ∀ parent proc, proc ∈ children parent ↔
    proc ∈ procList ∧ family.parent proc = some parent
  guarded : ∀ proc ∈ procList, ∃ parent, family.parent proc = some parent ∧
    (parent = idleproc ∨ parent ∈ procList) ∧
    (leaving ≠ some parent → (kernel.procs parent).state ≠ .zombie)
  initListed : initproc ∈ procList
  initParent : family.parent initproc = some idleproc
  initAlive : (kernel.procs initproc).state ≠ .zombie

namespace Related

/-- Nobody became a zombie. -/
theorem congr (related : Related family leaving children procList kernel)
    (zombies : ∀ proc, (after.procs proc).state = .zombie → (kernel.procs proc).state = .zombie) :
    Related family leaving children procList after where
  tree := related.tree
  listed := related.listed
  guarded proc member := by
    obtain ⟨parent, isParent, known, alive⟩ := related.guarded proc member
    exact ⟨parent, isParent, known, fun stays dead => alive stays (zombies parent dead)⟩
  initListed := related.initListed
  initParent := related.initParent
  initAlive := fun dead => related.initAlive (zombies initproc dead)

/-- A new child of a process that is alive. -/
theorem add {parent : Nat} (related : Related family none children procList kernel)
    (fresh : proc ∉ procList) (known : parent = idleproc ∨ parent ∈ procList)
    (alive : (kernel.procs parent).state ≠ .zombie) :
    Related (family.insert proc parent) none
      (Function.update children parent (proc :: children parent)) (proc :: procList) kernel where
  tree := related.tree.insert fun other member => fresh ((related.listed other proc).mp member).1
  listed other child := by
    show _ ↔ _ ∧ Function.update family.parent proc (some parent) child = some other
    by_cases isNew : child = proc
    · subst isNew
      rw [Function.update_self]
      by_cases same : other = parent
      · subst same
        rw [Function.update_self]
        exact iff_of_true List.mem_cons_self ⟨List.mem_cons_self, rfl⟩
      · rw [Function.update_of_ne same]
        refine iff_of_false ?_ fun both => same (Option.some.inj both.2).symm
        exact fun member => fresh ((related.listed other child).mp member).1
    · rw [Function.update_of_ne isNew, List.mem_cons, or_iff_right isNew, ← related.listed]
      by_cases same : other = parent
      · subst same
        rw [Function.update_self, List.mem_cons, or_iff_right isNew]
      · rw [Function.update_of_ne same]
  guarded child member := by
    show ∃ other, Function.update family.parent proc (some parent) child = some other ∧ _
    by_cases isNew : child = proc
    · subst isNew
      exact ⟨parent, Function.update_self _ _ _, known.imp_right (List.mem_cons_of_mem _),
        fun _ => alive⟩
    · rw [Function.update_of_ne isNew]
      obtain ⟨other, isParent, otherKnown, otherAlive⟩ :=
        related.guarded child ((List.mem_cons.mp member).resolve_left isNew)
      exact ⟨other, isParent, otherKnown.imp_right (List.mem_cons_of_mem _), otherAlive⟩
  initListed := List.mem_cons_of_mem _ related.initListed
  initParent := by
    show Function.update family.parent proc (some parent) initproc = some idleproc
    rw [Function.update_of_ne]
    · exact related.initParent
    · rintro rfl
      exact fresh related.initListed
  initAlive := related.initAlive

/-- `gone` becomes a zombie. -/
theorem exits {gone : Nat} (related : Related family none children procList kernel)
    (notInit : gone ≠ initproc)
    (zombies : ∀ proc, (after.procs proc).state = .zombie →
      (kernel.procs proc).state = .zombie ∨ proc = gone) :
    Related family (some gone) children procList after where
  tree := related.tree.leave gone
  listed := related.listed
  guarded proc member := by
    obtain ⟨parent, isParent, known, alive⟩ := related.guarded proc member
    refine ⟨parent, isParent, known, ?_⟩
    intro stays dead
    rcases zombies parent dead with old | same
    · exact alive nofun old
    · exact stays (congrArg some same.symm)
  initListed := related.initListed
  initParent := related.initParent
  initAlive := by
    intro dead
    rcases zombies initproc dead with old | same
    · exact related.initAlive old
    · exact notInit same.symm

/-- One round of the loop of `do_exit`. -/
theorem adopt {gone : Nat} {rest : List Nat}
    (related : Related family (some gone) children procList kernel) (notInit : gone ≠ initproc)
    (notIdle : gone ≠ idleproc) (youngest : children gone = proc :: rest) :
    Related (family.adopt gone proc) (some gone) (FamilyTree.adopted children gone proc) procList
      kernel where
  tree := related.tree.adopt notInit youngest
  listed other child := by
    show _ ↔ _ ∧ Function.update family.parent proc (some initproc) child = some other
    rw [related.tree.mem_adopted youngest]
    by_cases same : child = proc
    · subst same
      have known : child ∈ procList := by
        apply ((related.listed gone child).mp _).1
        rw [youngest]
        exact List.mem_cons_self
      rw [if_pos rfl, Function.update_self]
      exact ⟨fun isInit => ⟨known, congrArg some isInit.symm⟩,
        fun both => (Option.some.inj both.2).symm⟩
    · rw [if_neg same, Function.update_of_ne same]
      exact related.listed other child
  guarded child member := by
    show ∃ other, Function.update family.parent proc (some initproc) child = some other ∧ _
    by_cases same : child = proc
    · subst same
      exact ⟨initproc, Function.update_self _ _ _, Or.inr related.initListed,
        fun _ => related.initAlive⟩
    · rw [Function.update_of_ne same]
      exact related.guarded child member
  initListed := related.initListed
  initParent := by
    show Function.update family.parent proc (some initproc) initproc = some idleproc
    rw [Function.update_of_ne]
    · exact related.initParent
    · rintro rfl
      have isParent : family.parent initproc = some gone := by
        apply related.tree.parent
        rw [youngest]
        exact List.mem_cons_self
      exact notIdle (Option.some.inj (isParent.symm.trans related.initParent))
  initAlive := related.initAlive

/-- All children of the zombie are given away. -/
theorem left {gone : Nat} (related : Related family (some gone) children procList kernel)
    (empty : children gone = []) : Related family none children procList kernel where
  tree := related.tree.left empty
  listed := related.listed
  guarded proc member := by
    obtain ⟨parent, isParent, known, alive⟩ := related.guarded proc member
    refine ⟨parent, isParent, known, fun _ => alive ?_⟩
    rintro same
    have isChild := (related.listed parent proc).mpr ⟨member, isParent⟩
    rw [← Option.some.inj same, empty] at isChild
    cases isChild
  initListed := related.initListed
  initParent := related.initParent
  initAlive := related.initAlive

/-- A zombie goes away. -/
theorem drop {parent : Nat} (related : Related family none children procList kernel)
    (distinct : procList.Nodup) (member : proc ∈ children parent)
    (dead : (kernel.procs proc).state = .zombie) :
    Related (family.remove proc) none
      (Function.update children parent ((children parent).erase proc)) (procList.erase proc)
      kernel where
  tree := related.tree.remove member
  listed other child := by
    show _ ↔ _ ∧ family.parent child = some other
    rw [distinct.mem_erase_iff, and_assoc, ← related.listed]
    by_cases same : other = parent
    · subst same
      rw [Function.update_self, (related.tree.nodup other).mem_erase_iff]
    · rw [Function.update_of_ne same]
      constructor
      · intro inside
        refine ⟨?_, inside⟩
        rintro rfl
        exact same (related.tree.unique inside member)
      · exact And.right
  guarded child inside := by
    obtain ⟨apart, old⟩ := distinct.mem_erase_iff.mp inside
    obtain ⟨other, isParent, known, alive⟩ := related.guarded child old
    refine ⟨other, isParent, known.imp_right fun listed => ?_, alive⟩
    refine distinct.mem_erase_iff.mpr ⟨?_, listed⟩
    rintro rfl
    exact alive nofun dead
  initListed := by
    refine distinct.mem_erase_iff.mpr ⟨?_, related.initListed⟩
    rintro rfl
    exact related.initAlive dead
  initParent := related.initParent
  initAlive := related.initAlive

/-- A process that does not exist has no children. -/
theorem childless (related : Related family leaving children procList kernel)
    (notIdle : proc ≠ idleproc) (fresh : proc ∉ procList) : children proc = [] := by
  apply List.eq_nil_iff_forall_not_mem.mpr
  intro child member
  obtain ⟨listed, isParent⟩ := (related.listed proc child).mp member
  obtain ⟨parent, isAlso, known, _⟩ := related.guarded child listed
  obtain rfl : parent = proc := Option.some.inj (isAlso.symm.trans isParent)
  exact known.elim notIdle fresh

/-- The links of a process that does not exist are cleared. -/
theorem forget (related : Related family none children procList kernel)
    (notIdle : proc ≠ idleproc) (fresh : proc ∉ procList) :
    Related
      { parent := Function.update family.parent proc none
        cptr := Function.update family.cptr proc none
        yptr := Function.update family.yptr proc none
        optr := Function.update family.optr proc none } none children procList kernel := by
  have apart : ∀ other ∈ procList, other ≠ proc := by
    rintro other member rfl
    exact fresh member
  have child : ∀ parent, ∀ other ∈ children parent, other ≠ proc :=
    fun parent other member => apart other ((related.listed parent other).mp member).1
  refine ⟨⟨?_, ?_, related.tree.nodup, ?_⟩, ?_, ?_, related.initListed, ?_, related.initAlive⟩
  · intro parent
    show Function.update family.cptr proc none parent = _
    by_cases same : parent = proc
    · subst same
      rw [Function.update_self, related.childless notIdle fresh]
      rfl
    · rw [Function.update_of_ne same]
      exact related.tree.cptr parent
  · intro parent
    obtain ⟨before, whole, chained⟩ := related.tree.chained parent
    refine ⟨before, whole, chained.congr ?_ ?_⟩
    · exact fun other member => Function.update_of_ne (child parent other member) _ _
    · exact fun other member => Function.update_of_ne (child parent other member) _ _
  · intro parent other member
    exact (Function.update_of_ne (child parent other member) _ _).trans
      (related.tree.parent parent other member)
  · intro parent other
    rw [related.listed]
    apply and_congr_right
    intro member
    exact Eq.congr_left (Function.update_of_ne (apart other member) _ _).symm
  · intro other member
    obtain ⟨parent, isParent, known⟩ := related.guarded other member
    exact ⟨parent, (Function.update_of_ne (apart other member) _ _).trans isParent, known⟩
  · exact (Function.update_of_ne (apart initproc related.initListed) _ _).trans related.initParent

end Related

/-! ## Who waits -/

/-- `proc` sleeps in `do_wait`. -/
def Waits (kernel : Kernel) (phase : Nat → KernelPhase) (proc : Nat) (target : Int) : Prop :=
  (phase proc = .waitCalls target ∨ phase proc = .waitBack target) ∧
    (kernel.procs proc).state = .sleeping

/-- A child is one that `do_wait` of `target` waits for. -/
def Awaited (pid : Nat → Int) (target : Int) (child : Nat) : Prop :=
  target = 0 ∨ pid child = target

/-- No process sleeps in `do_wait` while a child it waits for is a zombie. -/
def Attentive (kernel : Kernel) (phase : Nat → KernelPhase) (pid : Nat → Int)
    (children : Nat → List Nat) : Prop :=
  ∀ proc target, Waits kernel phase proc target → ∀ child ∈ children proc,
    Awaited pid target child → (kernel.procs child).state ≠ .zombie

/-- A process that sleeps in `do_wait` waits for a child. -/
theorem Scheduled.waitState_of_waits {timers : List Timer} {waiting : List Nat} {target : Int}
    (scheduled : Scheduled kernel phase timers waiting nextProc)
    (waits : Waits kernel phase proc target) : (kernel.procs proc).waitState = wtChild := by
  obtain ⟨at', sleeping⟩ := waits
  have below : proc < nextProc := by
    apply scheduled.lt_of_phase
    rcases at' with calls | back
    · rw [calls]
      exact nofun
    · rw [back]
      exact nofun
  have fits := scheduled.fits proc below
  rcases at' with calls | back
  · rw [calls] at fits
    exact (fits.resolve_right fun both => by rw [sleeping] at both; cases both.1).2
  · rw [back] at fits
    exact (fits.resolve_right fun both => by rw [sleeping] at both; cases both.1).2

/-- Fewer processes wait, and nobody became a zombie. -/
theorem Attentive.mono (attentive : Attentive kernel phase pid children)
    (zombies : ∀ proc, (after.procs proc).state = .zombie → (kernel.procs proc).state = .zombie)
    (fewer : ∀ proc target, Waits after phase' proc target → Waits kernel phase proc target) :
    Attentive after phase' pid children :=
  fun proc target waits child member awaited dead =>
    attentive proc target (fewer proc target waits) child member awaited (zombies child dead)

/-- Some children are gone. -/
theorem Attentive.less {children' : Nat → List Nat} (attentive : Attentive kernel phase pid children)
    (less : ∀ parent, ∀ child ∈ children' parent, child ∈ children parent) :
    Attentive kernel phase pid children' :=
  fun proc target waits child member => attentive proc target waits child (less proc child member)

theorem not_waits {target : Int} (outside : phase proc = .outside) :
    ¬ Waits kernel phase proc target := by
  rintro ⟨at', _⟩
  rw [outside] at at'
  rcases at' with calls | back
  · cases calls
  · cases back

/-- A process begins to wait, and none of the children it waits for is a zombie. -/
theorem Attentive.begins {target : Int} (attentive : Attentive kernel phase pid children)
    (zombies : ∀ proc, (after.procs proc).state = .zombie → (kernel.procs proc).state = .zombie)
    (others : ∀ other, other ≠ proc → after.procs other = kernel.procs other)
    (none : ∀ child ∈ children proc, Awaited pid target child →
      (kernel.procs child).state ≠ .zombie) :
    Attentive after (Function.update phase proc (.waitCalls target)) pid children := by
  rintro other target' ⟨at', sleeping⟩ child member awaited dead
  have dead := zombies child dead
  by_cases same : other = proc
  · subst same
    rw [Function.update_self] at at'
    rcases at' with calls | back
    · cases calls
      exact none child member awaited dead
    · cases back
  · rw [Function.update_of_ne same] at at'
    rw [others other same] at sleeping
    exact attentive other target' ⟨at', sleeping⟩ child member awaited dead

/-- A process moves to where it does not wait for a child. -/
theorem waits_of_moved {next : KernelPhase} {other : Nat} {target : Int}
    (others : ∀ other, other ≠ proc → (after.procs other).state = (kernel.procs other).state)
    (elsewhere : ∀ target, ¬ Waits after (Function.update phase proc next) proc target)
    (waits : Waits after (Function.update phase proc next) other target) :
    Waits kernel phase other target := by
  by_cases same : other = proc
  · subst same
    exact absurd waits (elsewhere target)
  · obtain ⟨at', sleeping⟩ := waits
    rw [Function.update_of_ne same] at at'
    rw [others other same] at sleeping
    exact ⟨at', sleeping⟩

/-- A process that goes outside does not wait. -/
theorem waits_of_update {target : Int} {other : Nat}
    (waits : Waits kernel (Function.update phase proc .outside) other target) :
    Waits kernel phase other target :=
  waits_of_moved (fun _ _ => rfl) (fun _ => not_waits (Function.update_self _ _ _)) waits

/-- A new child of a process that does not wait. -/
theorem Attentive.add {parent : Nat} {newPid : Int} (attentive : Attentive kernel phase pid children)
    (outside : phase parent = .outside) (alive : (kernel.procs proc).state ≠ .zombie)
    (zombies : ∀ proc, (after.procs proc).state = .zombie → (kernel.procs proc).state = .zombie)
    (fewer : ∀ proc target, Waits after phase proc target → Waits kernel phase proc target) :
    Attentive after phase (Function.update pid proc newPid)
      (Function.update children parent (proc :: children parent)) := by
  intro other target waits child member awaited dead
  have dead := zombies child dead
  have apart : other ≠ parent := by
    rintro rfl
    exact not_waits outside waits
  have notNew : child ≠ proc := by
    rintro rfl
    exact alive dead
  rw [Function.update_of_ne apart] at member
  unfold Awaited at awaited
  rw [Function.update_of_ne notNew] at awaited
  exact attentive other target (fewer other target waits) child member awaited dead

/-- `gone` becomes a zombie, and its parent does not sleep in `do_wait`. -/
theorem Attentive.exits {gone parent : Nat} (attentive : Attentive kernel phase pid children)
    (only : ∀ other, gone ∈ children other → other = parent)
    (zombies : ∀ proc, (after.procs proc).state = .zombie →
      (kernel.procs proc).state = .zombie ∨ proc = gone)
    (fewer : ∀ proc target, Waits after phase' proc target → Waits kernel phase proc target)
    (awake : ∀ target, ¬ Waits after phase' parent target) :
    Attentive after phase' pid children := by
  intro other target waits child member awaited dead
  rcases zombies child dead with old | isGone
  · exact attentive other target (fewer other target waits) child member awaited old
  · subst isGone
    obtain rfl := only other member
    exact awake target waits

/-- One round of the loop of `do_exit`. -/
theorem Attentive.adopt {gone : Nat} {rest : List Nat}
    (attentive : Attentive kernel phase pid children)
    (tree : FamilyTree family (some gone) children) (youngest : children gone = proc :: rest)
    (zombies : ∀ proc, (after.procs proc).state = .zombie → (kernel.procs proc).state = .zombie)
    (fewer : ∀ proc target, Waits after phase proc target → Waits kernel phase proc target)
    (awake : (kernel.procs proc).state = .zombie → ∀ target, ¬ Waits after phase initproc target) :
    Attentive after phase pid (FamilyTree.adopted children gone proc) := by
  intro other target waits child member awaited dead
  have dead := zombies child dead
  rw [tree.mem_adopted youngest] at member
  by_cases same : child = proc
  · subst same
    rw [if_pos rfl] at member
    subst member
    exact awake dead target waits
  · rw [if_neg same] at member
    exact attentive other target (fewer other target waits) child member awaited dead

/-! ## The zombies and their codes -/

/-- A zombie has the code that was given to `do_exit`, and its parent got it. -/
structure Recorded (kernel : Kernel) (exitCode : Nat → Int) (exitGiven : Nat → Option Int)
    (reaped : List Reaped) (nextProc : Nat) : Prop where
  codes : ∀ proc, proc < nextProc → (kernel.procs proc).state = .zombie →
    exitGiven proc = some (exitCode proc)
  once : (reaped.map Reaped.child).Nodup
  byParent : ∀ record ∈ reaped, record.parent = some record.reaper ∧
    exitGiven record.child = some record.code ∧ (kernel.procs record.child).state = .zombie

namespace Recorded

/-- The same processes are zombies. -/
theorem congr (recorded : Recorded kernel exitCode exitGiven reaped nextProc)
    (zombies : ∀ proc, (after.procs proc).state = .zombie ↔ (kernel.procs proc).state = .zombie) :
    Recorded after exitCode exitGiven reaped nextProc where
  codes := fun proc below dead => recorded.codes proc below ((zombies proc).mp dead)
  once := recorded.once
  byParent := fun record member =>
    let ⟨isParent, code, dead⟩ := recorded.byParent record member
    ⟨isParent, code, (zombies record.child).mpr dead⟩

/-- One more process that is not a zombie. -/
theorem grow (recorded : Recorded kernel exitCode exitGiven reaped nextProc)
    (alive : (kernel.procs nextProc).state ≠ .zombie) :
    Recorded kernel exitCode exitGiven reaped (nextProc + 1) where
  codes proc below dead := by
    rcases Nat.lt_succ_iff_lt_or_eq.mp below with old | new
    · exact recorded.codes proc old dead
    · exact absurd (new ▸ dead) alive
  once := recorded.once
  byParent := recorded.byParent

/-- `proc` becomes a zombie. -/
theorem exits {code : Int} (recorded : Recorded kernel exitCode exitGiven reaped nextProc)
    (alive : (kernel.procs proc).state ≠ .zombie)
    (zombies : ∀ other, (after.procs other).state = .zombie ↔
      (kernel.procs other).state = .zombie ∨ other = proc) :
    Recorded after (Function.update exitCode proc code) (Function.update exitGiven proc (some code))
      reaped nextProc where
  codes other below dead := by
    by_cases same : other = proc
    · rw [same, Function.update_self, Function.update_self]
    · rw [Function.update_of_ne same, Function.update_of_ne same]
      exact recorded.codes other below (((zombies other).mp dead).resolve_right same)
  once := recorded.once
  byParent record member := by
    obtain ⟨isParent, given, dead⟩ := recorded.byParent record member
    have apart : record.child ≠ proc := by
      rintro same
      exact alive (same ▸ dead)
    rw [Function.update_of_ne apart]
    exact ⟨isParent, given, (zombies record.child).mpr (Or.inl dead)⟩

/-- A zombie is waited for by its parent. -/
theorem drop {record : Reaped} (recorded : Recorded kernel exitCode exitGiven reaped nextProc)
    (below : record.child < nextProc) (dead : (kernel.procs record.child).state = .zombie)
    (fresh : record.child ∉ reaped.map Reaped.child)
    (isParent : record.parent = some record.reaper) (code : record.code = exitCode record.child) :
    Recorded kernel exitCode exitGiven (record :: reaped) nextProc where
  codes := recorded.codes
  once := List.nodup_cons.mpr ⟨fresh, recorded.once⟩
  byParent other member := by
    rcases List.mem_cons.mp member with rfl | old
    · rw [code]
      exact ⟨isParent, recorded.codes _ below dead, dead⟩
    · exact recorded.byParent other old

end Recorded

end UCore.Process
