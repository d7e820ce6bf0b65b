import UCore.Vfs.Boot

/-!
Contract: what holds in every state that calls on files reach.

Owns:
- the counts of inodes are those of their holders, and slots are free or open;
- no operation is missing from the table of the inode it is invoked on;
- the calls that break these: an exclusive creation of what exists, creations in a file system
  that cannot create, and operations that directories or devices lack.

Does not own: the contents of files.
-/

set_option autoImplicit false

namespace UCore.Vfs

open UCore.Lib UCore.Lib.Program UCore.Fs

variable {first vfs after : VfsState} {node : Node} {lost : Node → Int} {filesp : Nat}

/-- A call that keeps no reference when it fails. -/
def KeepsCounts (vfs : VfsState) (label : Nat × Call) : Prop :=
  label.2.KeepsNoReference vfs label.1

theorem consistent_run_keeping {calls : List (Nat × Call)} (booted : Booted first)
    (run : Run (callMachine.StepMeeting KeepsCounts) first calls vfs) : Consistent 0 vfs := by
  apply run.invariant (fun vfs => Consistent 0 vfs) _ booted.consistent
  intro before label after consistent step
  obtain ⟨files, result, found, ran⟩ := callMachine_step step.1
  obtain ⟨lost', consistent', same⟩ :=
    ((consistent.meets_run found label.2).of_ok ran).consistent
  exact same step.2 ▸ consistent'

/-- The counts of balanced states with the same holders differ by what was lost. -/
theorem SameHolders.counts {lost' : Node → Int} (same : SameHolders vfs after)
    (before : Consistent lost vfs) (later : Consistent lost' after) :
    (after.refCount node : Int) = vfs.refCount node + (lost' node - lost node) ∧
      after.openCount node = vfs.openCount node := by
  have slotsSame : openSlots after node = openSlots vfs node := by
    rw [openSlots, openSlots, slots, slots, same.openNode, same.filesCreated]
  have dirsSame : workingDirs after node = workingDirs vfs node := by
    rw [workingDirs, workingDirs, same.pwdNode, same.filesCreated]
  have holdersSame : holders after node = holders vfs node := by
    rw [holders, holders, slotsSame, dirsSame, before.booted, later.booted]
  have counted := before.balanced.refCount node
  have counted' := later.balanced.refCount node
  have opened := before.balanced.openCount node
  have opened' := later.balanced.openCount node
  constructor <;> omega

/-- In every state that calls reach of which none is an exclusive creation of what exists, the
counts of every inode are those of its holders, and every slot is free or open. A call changes the
slots that it opens or closes, and one that fails leaves slots and counts as they were. -/
theorem open_file_counts_exact {calls : List (Nat × Call)} (booted : Booted first)
    (run : Run (callMachine.StepMeeting KeepsCounts) first calls vfs) :
    (∀ node, (vfs.openCount node : Int) = openSlots vfs node ∧
      (vfs.refCount node : Int) = holders vfs node) ∧
    (∀ filesp files fd, vfs.files filesp = some files → (files.fdArray fd).Settled) ∧
    ∀ filesp files (call : Call) result after, vfs.files filesp = some files →
      KeepsCounts vfs (filesp, call) → call.run filesp vfs = .ok (result, after) →
      call.Slots vfs filesp result after ∧
      ∀ errno, result = .error errno → openNode after = openNode vfs ∧ ∀ node,
        after.refCount node = vfs.refCount node ∧ after.openCount node = vfs.openCount node := by
  have consistent := consistent_run_keeping booted run
  refine ⟨fun node => ⟨consistent.balanced.openCount node, ?_⟩, consistent.balanced.settled, ?_⟩
  · have counted := consistent.balanced.refCount node
    rwa [Pi.zero_apply, add_zero] at counted
  · intro filesp files call result after found keeps ran
    have left := (consistent.meets_run found call).of_ok ran
    obtain ⟨lost', consistent', same⟩ := left.consistent
    obtain rfl := same keeps
    refine ⟨left.slots, fun errno failed => ⟨(left.failed errno failed).openNode, fun node => ?_⟩⟩
    have counts := @SameHolders.counts _ _ node _ _ (left.failed errno failed) consistent consistent'
    refine ⟨?_, counts.2⟩
    have same := counts.1
    omega

/-- In every state that calls reach, a call that meets its condition finds the operations that it
invokes. -/
theorem calls_find_operations {calls : List (Nat × Call)} (booted : Booted first)
    (run : Run callMachine.Step first calls vfs) :
    ∀ filesp files (call : Call), vfs.files filesp = some files → call.FindsOps vfs filesp →
      call.run filesp vfs ≠ .error .missingOperation := by
  intro filesp files call found finds missing
  obtain ⟨lost, consistent⟩ := consistent_run booted run
  exact (consistent.meets_run found call).of_stop missing finds rfl

/-! ## A small volume -/

/-- A volume of five blocks that has only an empty root directory. -/
def rootSfs : SfsFs where
  blocks := 5
  unusedBlocks := 2
  superDirty := false
  freemapBits := 32768
  freemap block := decide (block = 3 ∨ block = 4)
  dBlocks := 5
  disk block := if block = sfsBlknRoot then
      DiskInode.toBytes ⟨0, sfsTypeDir, 1, 0, fun _ => 0, 0⟩
    else Bytes.zeros
  inodes _ := none

/-- The state after the boot file system was set, with memory for everything. -/
def rootBooted : Option VfsState :=
  match vfsSetBootfs initFiles bootName (atBoot rootSfs (fun _ => true) []) with
  | .ok (.ok (), vfs) => some vfs
  | _ => none

theorem rootBooted_booted (booted : rootBooted = some vfs) : Booted vfs := by
  refine ⟨rootSfs, fun _ => true, [], ?_⟩
  unfold rootBooted at booted
  split at booted
  · next ran =>
      obtain rfl := Option.some.inj booted
      exact ran
  · cases booted

/-- Opening the root with `O_CREAT | O_EXCL`, in the state that was booted. -/
def exclusiveOpen : Option (VfsState × VfsState) :=
  rootBooted.bind fun first =>
    match (Call.fileOpen [slash] (oCreat ||| oExcl)).run initFiles first with
    | .ok (.error .alreadyExists, after) => some (first, after)
    | _ => none

/-- The failed open keeps a reference to the root: it has three, and two holders. -/
theorem exclusive_open_keeps_reference : ∃ first after, Booted first ∧
    (Call.fileOpen [slash] (oCreat ||| oExcl)).run initFiles first =
      .ok (.error .alreadyExists, after) ∧
    after.refCount (.sfs sfsBlknRoot) ≠ first.refCount (.sfs sfsBlknRoot) ∧
    (after.refCount (.sfs sfsBlknRoot) : Int) ≠ holders after (.sfs sfsBlknRoot) := by
  have counts : exclusiveOpen.any (fun states => (states.1.files initFiles).isSome = true ∧
      states.1.refCount (.sfs sfsBlknRoot) = 2 ∧
      states.2.refCount (.sfs sfsBlknRoot) = 3) = true := by decide
  obtain ⟨⟨first, after⟩, ran, counted⟩ := (Option.any_eq_true _ _).mp counts
  obtain ⟨isFiles, two, three⟩ := of_decide_eq_true counted
  obtain ⟨start, isBooted, opened⟩ := Option.bind_eq_some_iff.mp ran
  split at opened
  · next left' failed =>
      obtain ⟨rfl, rfl⟩ := Prod.mk.inj (Option.some.inj opened)
      change start.refCount (.sfs sfsBlknRoot) = 2 at two
      change left'.refCount (.sfs sfsBlknRoot) = 3 at three
      obtain ⟨files, found⟩ := Option.isSome_iff_exists.mp isFiles
      have booted := rootBooted_booted isBooted
      have consistent := booted.consistent
      have left := (consistent.meets_run found _).of_ok failed
      obtain ⟨lost, later, _⟩ := left.consistent
      have held := consistent.balanced.refCount (.sfs sfsBlknRoot)
      have same := @SameHolders.counts _ _ (.sfs sfsBlknRoot) _ _ (left.failed _ rfl) consistent
        later
      have held' := later.balanced.refCount (.sfs sfsBlknRoot)
      have holdersSame : holders left' (.sfs sfsBlknRoot) = holders start (.sfs sfsBlknRoot) := by
        have counted := same.1
        rw [Pi.zero_apply] at counted held
        omega
      rw [Pi.zero_apply] at held
      refine ⟨start, left', booted, failed, ?_, ?_⟩
      · omega
      · omega
  · cases opened

/-- No open is exclusive. -/
def withoutExcl (label : Nat × Call) : Bool :=
  match label.2 with
  | .fileOpen _ openFlags => !hasFlag openFlags oExcl
  | _ => true

theorem keepsCounts_of_withoutExcl {label : Nat × Call} (without : withoutExcl label = true) :
    KeepsCounts vfs label := by
  obtain ⟨filesp, call⟩ := label
  cases call with
  | fileOpen path openFlags =>
      rintro ⟨_, _, _, _, excl, _⟩
      have absent : (!hasFlag openFlags oExcl) = true := without
      rw [excl] at absent
      cases absent
  | _ => trivial

/-- Opening the root, duplicating the descriptor, closing it, and an open that fails. -/
def rootCalls : List (Nat × Call) :=
  [(1, .fileOpen [slash] oRdonly), (1, .fileDup 0 noFd), (1, .fileClose 0),
    (1, .fileOpen [slash, slash] oWronly)]

theorem open_file_counts_exact_small : ∃ first vfs, Booted first ∧
    Run (callMachine.StepMeeting KeepsCounts) first rootCalls vfs ∧
    vfs.refCount (.sfs sfsBlknRoot) = 3 ∧ (vfs.refCount (.sfs sfsBlknRoot) : Int) = holders vfs (.sfs sfsBlknRoot) := by
  have done : (rootBooted.bind fun first => (follow (callMachine.next fun _ label =>
      withoutExcl label = true) first rootCalls).map fun vfs => (first, vfs)).any
        (fun states => states.2.refCount (.sfs sfsBlknRoot) = 3) = true := by decide
  obtain ⟨⟨first, vfs⟩, ran, three⟩ := (Option.any_eq_true _ _).mp done
  obtain ⟨start, isBooted, followed⟩ := Option.bind_eq_some_iff.mp ran
  obtain ⟨last, finished, same⟩ := Option.map_eq_some_iff.mp followed
  obtain ⟨rfl, rfl⟩ := Prod.mk.inj same
  have booted := rootBooted_booted isBooted
  have run : Run (callMachine.StepMeeting KeepsCounts) start rootCalls last :=
    Run.mono (fun _ _ _ move => ⟨move.1, keepsCounts_of_withoutExcl move.2⟩)
      (Machine.follow_next_run finished)
  exact ⟨start, last, booted, run, of_decide_eq_true three,
    ((open_file_counts_exact booted run).1 _).2⟩

/-- Reading a directory that was opened. -/
def directoryReads : List (Nat × Call) := [(1, .fileOpen [slash] oRdonly)]

/-- A read of a directory invokes an operation that directories lack. -/
theorem directory_read_missing : ∃ first vfs, Booted first ∧
    Run callMachine.Step first directoryReads vfs ∧
    (Call.fileRead 0 Bytes.zeros 1).run initFiles vfs = .error .missingOperation := by
  have done : (rootBooted.bind fun first => (follow (callMachine.next fun _ _ => True) first
      directoryReads).map fun vfs => (first, vfs)).any
        (fun states => match (Call.fileRead 0 Bytes.zeros 1).run initFiles states.2 with
          | .error .missingOperation => true
          | _ => false) = true := by decide
  obtain ⟨⟨first, vfs⟩, ran, stuck⟩ := (Option.any_eq_true _ _).mp done
  obtain ⟨start, isBooted, followed⟩ := Option.bind_eq_some_iff.mp ran
  obtain ⟨last, finished, same⟩ := Option.map_eq_some_iff.mp followed
  obtain ⟨rfl, rfl⟩ := Prod.mk.inj same
  refine ⟨start, last, rootBooted_booted isBooted,
    Run.mono (fun _ _ _ move => move.1) (Machine.follow_next_run finished), ?_⟩
  split at stuck
  · next missing => exact missing
  · cases stuck

/-- The descriptor of a directory can be read from where `getdirentry` is asked. -/
theorem calls_find_operations_small : ∃ first vfs, Booted first ∧
    Run callMachine.Step first directoryReads vfs ∧
    (Call.fileGetdirentry 0 0).run initFiles vfs ≠ .error .missingOperation := by
  have done : (rootBooted.bind fun first => (follow (callMachine.next fun _ _ => True) first
      directoryReads).map fun vfs => (first, vfs)).any
        (fun states => (states.2.files initFiles).isSome = true ∧
          (openFile states.2 initFiles 0).map Prod.snd = some sfsNodeDirops) = true := by decide
  obtain ⟨⟨first, vfs⟩, ran, opened⟩ := (Option.any_eq_true _ _).mp done
  obtain ⟨isFiles, table⟩ := of_decide_eq_true opened
  obtain ⟨start, isBooted, followed⟩ := Option.bind_eq_some_iff.mp ran
  obtain ⟨last, finished, same⟩ := Option.map_eq_some_iff.mp followed
  obtain ⟨rfl, rfl⟩ := Prod.mk.inj same
  obtain ⟨files, found⟩ := Option.isSome_iff_exists.mp isFiles
  have booted := rootBooted_booted isBooted
  have run : Run callMachine.Step start directoryReads last :=
    Run.mono (fun _ _ _ move => move.1) (Machine.follow_next_run finished)
  refine ⟨start, last, booted, run, calls_find_operations booted run initFiles files _ found ?_⟩
  intro file ops isOpen
  simp only [isOpen, Option.map_some, Option.some.injEq] at table
  exact table

end UCore.Vfs
