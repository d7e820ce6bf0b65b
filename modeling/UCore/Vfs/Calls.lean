import UCore.Lib.Transition
import UCore.Vfs.Structures

/-!
Contract: the file system calls of processes, in any order.

Owns:
- the calls, each made by a process through its files structure;
- the state at boot, and the state after `vfs_set_bootfs`;
- `Consistent`, which every call keeps that finds its operations;
- the machine of calls.

Does not own: what the calls do to the contents of files.
-/

set_option autoImplicit false

namespace UCore.Vfs

open UCore.Lib UCore.Lib.Program UCore.Fs

variable {vfs after : VfsState} {node : Node} {refs opens lost lost' : Node → Int}
  {filesp fd : Nat} {files : Files} {file : File} {path : Path}

/-! ## Calls -/

inductive Call
  | fileOpen (path : Path) (openFlags : Nat)
  | fileClose (fd : Int)
  | fileDup (fd1 fd2 : Int)
  | fileRead (fd : Int) (base : Bytes) (len : Nat)
  | fileWrite (fd : Int) (base : Bytes) (len : Nat)
  | fileSeek (fd pos : Int) (whence : Whence)
  | fileFstat (fd : Int)
  | fileFsync (fd : Int)
  | fileGetdirentry (fd offset : Int)
  | vfsChdir (path : Path)
  | copyFiles (share : Bool)
  | filesCloseall
  | putFiles

/-- A call through a files structure, with the descriptor or the files structure it hands out. -/
def Call.run (filesp : Nat) : Call → VfsM (Option Nat)
  | .fileOpen path openFlags => do
      let fd ← Vfs.fileOpen filesp path openFlags
      pure (some fd)
  | .fileClose fd => do
      Vfs.fileClose filesp fd
      pure none
  | .fileDup fd1 fd2 => do
      let fd ← Vfs.fileDup filesp fd1 fd2
      pure (some fd)
  | .fileRead fd base len => do
      let _ ← Vfs.fileRead filesp fd base len
      pure none
  | .fileWrite fd base len => do
      let _ ← Vfs.fileWrite filesp fd base len
      pure none
  | .fileSeek fd pos whence => do
      Vfs.fileSeek filesp fd pos whence
      pure none
  | .fileFstat fd => do
      let _ ← Vfs.fileFstat filesp fd
      pure none
  | .fileFsync fd => do
      Vfs.fileFsync filesp fd
      pure none
  | .fileGetdirentry fd offset => do
      let _ ← Vfs.fileGetdirentry filesp fd offset
      pure none
  | .vfsChdir path => do
      Vfs.vfsChdir filesp path
      pure none
  | .copyFiles share => do
      let target ← Vfs.copyFiles share filesp
      pure (some target)
  | .filesCloseall => do
      Vfs.filesCloseall filesp
      pure none
  | .putFiles => do
      Vfs.putFiles filesp
      pure none

/-! ## What the calls keep -/

/-- The inode that an entry may write. -/
def File.writing (file : File) : Option Node := if file.writable = true then file.held else none

/-- A slot may write the inode. -/
def Writes (vfs : VfsState) (node : Node) : Prop :=
  ∃ filesp files fd, vfs.files filesp = some files ∧ fd < filesStructNentry ∧
    (files.fdArray fd).writing = some node

/-- The counts follow the holders but for `lost` references, working directories are directories,
and no directory is open for writing. -/
structure Consistent (lost : Node → Int) (vfs : VfsState) : Prop where
  balanced : Balanced lost vfs
  kept : ∀ node, 0 ≤ lost node
  booted : vfs.bootfs = some (.sfs sfsBlknRoot)
  root : vfs.inOps (.sfs sfsBlknRoot) = sfsNodeDirops
  workingDirs : ∀ filesp node, pwdNode vfs filesp = some node → vfs.inOps node = sfsNodeDirops
  writers : ∀ node, Writes vfs node → vfs.inOps node ≠ sfsNodeDirops
  counted : ∀ filesp files, vfs.files filesp = some files → 0 < files.filesCount

theorem pwdNode_of_found (found : vfs.files filesp = some files) :
    pwdNode vfs filesp = files.pwd := by
  rw [pwdNode, found, Option.bind_some]

theorem File.held_of_writing (writing : file.writing = some node) : file.held = some node := by
  unfold File.writing at writing
  split_ifs at writing
  exact writing

namespace Consistent

/-- The boot file system and the working directories are referenced. -/
theorem referenced (consistent : Consistent lost vfs)
    (holds : vfs.bootfs = some node ∨ ∃ filesp, pwdNode vfs filesp = some node) :
    0 < vfs.refCount node := by
  have counted := consistent.balanced.refCount node
  have := consistent.kept node
  have : 0 ≤ openSlots vfs node := tally_nonneg
  have dirs : 0 ≤ Vfs.workingDirs vfs node := tally_nonneg
  have boot := share_nonneg node vfs.bootfs
  have := creation_nonneg node
  unfold holders at counted
  rcases holds with isBoot | ⟨filesp, isPwd⟩
  · have : share (isNode node) vfs.bootfs = 1 := by rw [isBoot, share_some, just_self]
    omega
  · cases found : vfs.files filesp with
    | none =>
        rw [pwdNode, found] at isPwd
        cases isPwd
    | some files =>
        rw [pwdNode_of_found found] at isPwd
        have := workingDirs_pos consistent.balanced found isPwd
        omega

theorem starts (consistent : Consistent lost vfs) (filesp : Nat) : Starts vfs filesp where
  pwd files node found isPwd := by
    have holds := (pwdNode_of_found found).trans isPwd
    exact ⟨consistent.referenced (Or.inr ⟨filesp, holds⟩), consistent.workingDirs filesp node holds⟩
  bootfs node isBoot := by
    obtain rfl := Option.some.inj (consistent.booted.symm.trans isBoot)
    exact ⟨consistent.referenced (Or.inl isBoot), consistent.root⟩
  root := ⟨consistent.referenced (Or.inl consistent.booted), consistent.root⟩

theorem noDevice (consistent : Consistent lost vfs) (found : vfs.files filesp = some files)
    (device : Device) : files.pwd ≠ some (.device device) := by
  intro isPwd
  have table := consistent.workingDirs filesp _ ((pwdNode_of_found found).trans isPwd)
  exact not_device table device rfl

/-- An inode in an open slot is referenced. -/
theorem open_referenced (consistent : Consistent lost vfs)
    (found : vfs.files filesp = some files) (held : (files.fdArray fd).held = some node)
    (inside : fd < filesStructNentry) : 0 < vfs.refCount node :=
  (consistent.balanced.referenced (consistent.balanced.created filesp files found) inside
    ((openNode_of_found found).trans held)).1

theorem writer_referenced (consistent : Consistent lost vfs) (writes : Writes vfs node) :
    0 < vfs.refCount node := by
  obtain ⟨filesp, files, fd, found, inside, writing⟩ := writes
  exact consistent.open_referenced found (File.held_of_writing writing) inside

/-- The tables of files change, and the counts with them. -/
theorem step {table : Nat → Option Files} {created : Nat} (consistent : Consistent lost vfs)
    (balanced : Balanced lost' after) (kept : ∀ node, 0 ≤ lost' node)
    (moves : Moves refs opens { vfs with files := table, filesCreated := created } after)
    (dirs : ∀ filesp files node, table filesp = some files → files.pwd = some node →
      (∃ other, pwdNode vfs other = some node) ∨ after.inOps node = sfsNodeDirops)
    (writers : ∀ filesp files fd node, table filesp = some files → fd < filesStructNentry →
      (files.fdArray fd).writing = some node →
      Writes vfs node ∨ after.inOps node ≠ sfsNodeDirops)
    (counted : ∀ filesp files, table filesp = some files → 0 < files.filesCount) :
    Consistent lost' after := by
  have inOps : ∀ {node}, 0 < vfs.refCount node → 0 < after.refCount node →
      after.inOps node = vfs.inOps node := by
    intro node before later
    have same : VfsState.inOps { vfs with files := table, filesCreated := created } node =
        vfs.inOps node := by cases node <;> rfl
    exact (moves.inOps (by cases node <;> exact before) later).trans same
  have booted : after.bootfs = some (.sfs sfsBlknRoot) := moves.bootfs.trans consistent.booted
  have counts : ∀ node, (after.refCount node : Int) = openSlots after node +
      Vfs.workingDirs after node + share (isNode node) after.bootfs + creation node + lost' node :=
    balanced.refCount
  constructor
  · exact balanced
  · exact kept
  · exact booted
  · have before := consistent.referenced (Or.inl consistent.booted)
    have now := counts (.sfs sfsBlknRoot)
    have : 0 ≤ openSlots after (.sfs sfsBlknRoot) := tally_nonneg
    have : 0 ≤ Vfs.workingDirs after (.sfs sfsBlknRoot) := tally_nonneg
    have := kept (.sfs sfsBlknRoot)
    rw [booted, share_some, just_self] at now
    change _ = _ + _ + 1 + 0 + _ at now
    rw [inOps before (by omega), consistent.root]
  · intro filesp node isPwd
    cases found : after.files filesp with
    | none =>
        rw [pwdNode, found] at isPwd
        cases isPwd
    | some files =>
        rw [pwdNode_of_found found] at isPwd
        have inTable : table filesp = some files := by
          rw [← found, moves.files]
        rcases dirs filesp files node inTable isPwd with ⟨other, isPwd'⟩ | table
        · have now := counts node
          have : 0 ≤ openSlots after node := tally_nonneg
          have := workingDirs_pos balanced found isPwd
          have := kept node
          have := creation_nonneg node
          have := share_nonneg node after.bootfs
          rw [inOps (consistent.referenced (Or.inr ⟨other, isPwd'⟩)) (by omega)]
          exact consistent.workingDirs other node isPwd'
        · exact table
  · rintro node ⟨filesp, files, fd, found, inside, writing⟩
    have inTable : table filesp = some files := by
      rw [← found, moves.files]
    rcases writers filesp files fd node inTable inside writing with writes | other
    · have later := (balanced.referenced (balanced.created filesp files found) inside
        ((openNode_of_found found).trans (File.held_of_writing writing))).1
      rw [inOps (consistent.writer_referenced writes) later]
      exact consistent.writers node writes
    · exact other
  · intro filesp files found
    rw [moves.files] at found
    exact counted filesp files found

/-- The structure of the caller changes. -/
theorem setFiles (consistent : Consistent lost vfs) (balanced : Balanced lost' after)
    (kept : ∀ node, 0 ≤ lost' node) (moves : Moves refs opens (vfs.setFiles filesp files) after)
    (dirs : ∀ node, files.pwd = some node →
      (∃ other, pwdNode vfs other = some node) ∨ after.inOps node = sfsNodeDirops)
    (writers : ∀ fd node, fd < filesStructNentry → (files.fdArray fd).writing = some node →
      Writes vfs node ∨ after.inOps node ≠ sfsNodeDirops)
    (counted : 0 < files.filesCount) : Consistent lost' after := by
  have old : ∀ {other : Nat} {others : Files},
      Function.update vfs.files filesp (some files) other = some others →
      others = files ∨ vfs.files other = some others := by
    intro other others isOther
    by_cases same : other = filesp
    · rw [same, Function.update_self] at isOther
      exact Or.inl (Option.some.inj isOther).symm
    · rw [Function.update_of_ne same] at isOther
      exact Or.inr isOther
  apply consistent.step balanced kept moves
  · intro other others node isOther isPwd
    rcases old isOther with rfl | found
    · exact dirs node isPwd
    · exact Or.inl ⟨other, (pwdNode_of_found found).trans isPwd⟩
  · intro other others entry node isOther inside writing
    rcases old isOther with rfl | found
    · exact writers entry node inside writing
    · exact Or.inl ⟨other, others, entry, found, inside, writing⟩
  · intro other others isOther
    rcases old isOther with rfl | found
    · exact counted
    · exact consistent.counted other others found

/-- One entry of the caller changes. -/
theorem setFile (consistent : Consistent lost vfs) (found : vfs.files filesp = some files)
    (balanced : Balanced lost' after) (kept : ∀ node, 0 ≤ lost' node)
    (moves : Moves refs opens (vfs.setFile filesp files fd file) after)
    (writers : ∀ node, fd < filesStructNentry → file.writing = some node →
      Writes vfs node ∨ after.inOps node ≠ sfsNodeDirops) : Consistent lost' after := by
  apply consistent.setFiles balanced kept moves
  · exact fun node isPwd => Or.inl ⟨filesp, (pwdNode_of_found found).trans isPwd⟩
  · intro entry node inside writing
    by_cases same : entry = fd
    · simp only [same, Function.update_self] at writing
      exact writers node (same ▸ inside) writing
    · simp only [Function.update_of_ne same] at writing
      exact Or.inl ⟨filesp, files, entry, found, inside, writing⟩
  · exact consistent.counted filesp files found

/-- The counts change alone. -/
theorem still (consistent : Consistent lost vfs) (moves : Moves 0 0 vfs after) :
    Consistent lost after := by
  apply @Consistent.step vfs after 0 0 lost lost vfs.files vfs.filesCreated consistent
    (consistent.balanced.keep moves) consistent.kept moves
  · exact fun filesp files node found isPwd =>
      Or.inl ⟨filesp, (pwdNode_of_found found).trans isPwd⟩
  · exact fun filesp files fd node found inside writing =>
      Or.inl ⟨filesp, files, fd, found, inside, writing⟩
  · exact consistent.counted

end Consistent

/-! ## One call -/

/-- The call keeps no reference when it fails: it is not an exclusive creation of what exists. -/
def Call.KeepsNoReference (vfs : VfsState) (filesp : Nat) : Call → Prop
  | .fileOpen path openFlags => ¬ FileCreatesExisting vfs filesp path openFlags
  | _ => True

/-- The file in an open slot, with the operation table of its inode. -/
def openFile (vfs : VfsState) (filesp : Nat) (want : Int) : Option (File × List Vop) :=
  if testfd want then
    (vfs.files filesp).bind fun files =>
      (files.fdArray want.toNat).held.map fun node =>
        (files.fdArray want.toNat, vfs.inOps node)
  else none

/-- The call finds its operations. With `O_CREAT`, an open is neither of a path that names nothing
nor of a directory for reading. A read and a seek are not of a directory, a sync is not of a device,
and entries are read of a directory. -/
def Call.FindsOps (vfs : VfsState) (filesp : Nat) : Call → Prop
  | .fileOpen path openFlags => FileOpenFindsOps vfs filesp path openFlags
  | .fileRead fd _ _ => ∀ file ops, openFile vfs filesp fd = some (file, ops) →
      file.readable = true → ops ≠ sfsNodeDirops
  | .fileSeek fd _ whence => ∀ file ops, openFile vfs filesp fd = some (file, ops) →
      whence ≠ .other → ops ≠ sfsNodeDirops
  | .fileFsync fd => ∀ file ops, openFile vfs filesp fd = some (file, ops) → ops ≠ devNodeOps
  | .fileGetdirentry fd _ => ∀ file ops, openFile vfs filesp fd = some (file, ops) →
      ops = sfsNodeDirops
  | _ => True

/-- What a call does to the slots. -/
def Call.Slots (vfs : VfsState) (filesp : Nat) (call : Call)
    (result : Except Errno (Option Nat)) (after : VfsState) : Prop :=
  match call, result with
  | .fileOpen _ _, .ok (some fd) => fd < filesStructNentry ∧ openNode vfs (filesp, fd) = none ∧
      ∃ node, openNode after = Function.update (openNode vfs) (filesp, fd) (some node)
  | .fileDup fd1 _, .ok (some fd) => fd < filesStructNentry ∧ openNode vfs (filesp, fd) = none ∧
      openNode after =
        Function.update (openNode vfs) (filesp, fd) (openNode vfs (filesp, fd1.toNat))
  | .fileClose fd, .ok _ => openNode vfs (filesp, fd.toNat) ≠ none ∧
      openNode after = Function.update (openNode vfs) (filesp, fd.toNat) none
  | .copyFiles _, .ok (some target) => ∀ slot, slot.2 < filesStructNentry → openNode after slot =
      if slot.1 = target then openNode vfs (filesp, slot.2) else openNode vfs slot
  | .filesCloseall, .ok _ => ∀ slot, openNode after slot =
      if slot.1 = filesp ∧ 2 ≤ slot.2 ∧ slot.2 < filesStructNentry then none else openNode vfs slot
  | .putFiles, .ok _ => ∃ files, vfs.files filesp = some files ∧ ∀ slot, openNode after slot =
      if slot.1 = filesp ∧ files.filesCount ≤ 1 then none else openNode vfs slot
  | _, _ => openNode after = openNode vfs

/-- The holders are as they were. -/
structure SameHolders (vfs after : VfsState) : Prop where
  openNode : openNode after = openNode vfs
  pwdNode : pwdNode after = pwdNode vfs
  filesCreated : after.filesCreated = vfs.filesCreated

/-- What a call leaves. -/
structure CallPost (lost : Node → Int) (vfs : VfsState) (filesp : Nat) (call : Call)
    (result : Except Errno (Option Nat)) (after : VfsState) : Prop where
  consistent : ∃ lost', Consistent lost' after ∧ (call.KeepsNoReference vfs filesp → lost' = lost)
  slots : call.Slots vfs filesp result after
  failed : ∀ errno, result = .error errno → SameHolders vfs after

theorem SameHolders.moves (moves : Moves refs opens vfs after) : SameHolders vfs after :=
  ⟨moves.openNode, moves.pwdNode, moves.filesCreated⟩

/-- An entry that is free before and after. -/
theorem SameHolders.setFile (found : vfs.files filesp = some files)
    (before : (files.fdArray fd).held = file.held)
    (moves : Moves refs opens (vfs.setFile filesp files fd file) after) : SameHolders vfs after := by
  refine ⟨?_, ?_, moves.filesCreated⟩
  · rw [moves.openNode, openNode_setFile found, ← before, ← openNode_of_found found,
      Function.update_eq_self]
  · rw [moves.pwdNode, pwdNode_setFile found]

theorem File.held_free (free : file.status = .none) : file.held = none := by
  rw [File.held, free]
  rfl

namespace Consistent

variable {stops : VfsStop → Prop} {result : Except Errno (Option Nat)} {call : Call}

/-- A call that changes the counts only. -/
theorem unchanged (consistent : Consistent lost vfs) (moves : Moves 0 0 vfs after)
    (slots : call.Slots vfs filesp result after) : CallPost lost vfs filesp call result after :=
  ⟨⟨lost, consistent.still moves, fun _ => rfl⟩, slots, fun _ _ => SameHolders.moves moves⟩

theorem meets_open {openFlags : Nat} (consistent : Consistent lost vfs) :
    Meets (fun stop => FileOpenFindsOps vfs filesp path openFlags → NotMissing stop)
      (Call.run filesp (.fileOpen path openFlags)) vfs
      (CallPost lost vfs filesp (.fileOpen path openFlags)) := by
  have balanced := consistent.balanced
  apply meets_bind (meets_fileOpen balanced.sound (consistent.starts filesp))
  · rintro fd after ⟨files, node, size, found, inside, isFree, _, moves, writers⟩
    have held : File.held (openedFile openFlags node size) = some node := rfl
    have free := File.held_free isFree
    have change : ∀ other, just node other = share (isNode other)
        (File.held (openedFile openFlags node size)) -
          share (isNode other) (File.held (files.fdArray fd)) := by
      intro other
      rw [held, free, share_some, share_none, sub_zero]
    have balanced' : Balanced lost after :=
      balanced.setSlot found inside (Or.inr ⟨rfl, rfl, Option.some_ne_none node⟩) moves
        (fun other => (change other).trans (add_zero _).symm) change
        (fun other => (add_zero (lost other)).symm) fun _ => le_rfl
    refine meets_pure ⟨⟨lost, consistent.setFile found balanced' consistent.kept moves ?_,
      fun _ => rfl⟩, ⟨inside, ?_, node, ?_⟩, by intros; contradiction⟩
    · intro other _ writing
      have writable : accmode openFlags ≠ oRdonly := by
        intro reading
        have notWritable : (openedFile openFlags node size).writable = false := by
          change decide (accmode openFlags = oWronly ∨ accmode openFlags = oRdwr) = false
          rw [reading]
          rfl
        rw [File.writing, notWritable] at writing
        cases writing
      obtain rfl := Option.some.inj (held.symm.trans (File.held_of_writing writing))
      exact Or.inr (writers writable)
    · rw [openNode_of_found found, free]
    · rw [moves.openNode, openNode_setFile found, held]
  · rintro errno after (moves | ⟨files, fd, file, found, inside, isFree, isFree', unused, refs, moves,
      leaked⟩)
    · exact consistent.unchanged moves moves.openNode
    · have same := SameHolders.setFile found
        ((File.held_free isFree).trans (File.held_free isFree').symm) moves
      have nonneg : ∀ node, 0 ≤ refs node := by
        rcases leaked with rfl | ⟨_, node, rfl⟩
        · exact fun _ => le_rfl
        · exact just_nonneg node
      have balanced' : Balanced (lost + refs) after := by
        apply balanced.setSlot found inside (Or.inl ⟨isFree', unused⟩) moves
        · intro node
          rw [File.held_free isFree, File.held_free isFree', sub_self, zero_add]
        · intro node
          rw [File.held_free isFree, File.held_free isFree', sub_self]
          rfl
        · exact fun _ => rfl
        · exact nonneg
      have kept : ∀ node, 0 ≤ (lost + refs) node := fun node => by
        have := consistent.kept node
        have := nonneg node
        rw [Pi.add_apply]
        omega
      refine ⟨⟨lost + refs, consistent.setFile found balanced' kept moves ?_, ?_⟩, same.openNode,
        fun _ _ => same⟩
      · intro node _ writing
        have impossible := (File.held_free isFree').symm.trans (File.held_of_writing writing)
        cases impossible
      · intro keeps
        rcases leaked with rfl | ⟨existing, _⟩
        · exact add_zero lost
        · exact absurd existing keeps

/-- A call on an open file that moves it. -/
theorem used {α : Type} {want : Int} {P : File → Node → Except Errno α → Int → SfsFs → Prop}
    {answer : Except Errno α} (consistent : Consistent lost vfs)
    (sameSlots : openNode after = openNode vfs → call.Slots vfs filesp result after)
    (slotUsed : SlotUsed vfs filesp want P answer after) :
    CallPost lost vfs filesp call result after := by
  rcases slotUsed with ⟨rfl, _⟩ | ⟨files, node, opened, pos, moves, _⟩
  · exact consistent.unchanged Moves.refl (sameSlots rfl)
  · have same : SameHolders vfs after :=
      @SameHolders.setFile vfs after 0 0 filesp want.toNat files
        { files.fdArray want.toNat with pos := pos } opened.found rfl moves
    have settled : File.Settled { files.fdArray want.toNat with pos := pos } := by
      refine Or.inr ⟨opened.isOpen, opened.once, ?_⟩
      change (files.fdArray want.toNat).node ≠ none
      rw [opened.held]
      exact Option.some_ne_none node
    have balanced' : Balanced lost after := by
      apply consistent.balanced.setSlot opened.found opened.inside settled moves
      · intro other
        exact (sub_self _).symm.trans (add_zero _).symm
      · intro other
        exact (sub_self _).symm
      · exact fun other => (add_zero (lost other)).symm
      · exact fun _ => le_rfl
    refine ⟨⟨lost, consistent.setFile opened.found balanced' consistent.kept moves ?_,
      fun _ => rfl⟩, sameSlots same.openNode, fun _ _ => same⟩
    exact fun other inside writing =>
      Or.inl ⟨filesp, files, want.toNat, opened.found, inside, writing⟩

/-- An open entry, as `openFile` finds it. -/
theorem openFile_of_entry {want : Int} (within : testfd want)
    (opened : OpenEntry vfs filesp files want.toNat (files.fdArray want.toNat) node) :
    openFile vfs filesp want = some (files.fdArray want.toNat, vfs.inOps node) := by
  have held : (files.fdArray want.toNat).held = some node := by
    rw [File.held, if_pos opened.isOpen, opened.held]
  rw [openFile, if_pos within, opened.found, Option.bind_some, held, Option.map_some]

/-- The tables in use. -/
theorem open_tables (consistent : Consistent lost vfs)
    (opened : OpenEntry vfs filesp files fd file node) :
    vfs.inOps node = devNodeOps ∨ vfs.inOps node = sfsNodeDirops ∨
      vfs.inOps node = sfsNodeFileops := by
  rcases consistent.balanced.sound.inOps opened.referenced with
    ⟨_, _, ops⟩ | ⟨_, _, _, _, ⟨_, ops⟩ | ⟨_, ops⟩⟩
  · exact Or.inl ops
  · exact Or.inr (Or.inl ops)
  · exact Or.inr (Or.inr ops)

/-- A condition on the table of an open file that gives an operation. -/
theorem finds {want : Int} {op : Vop} {reaches : File → Prop} (consistent : Consistent lost vfs)
    (table : ∀ file ops, openFile vfs filesp want = some (file, ops) → reaches file →
      (ops = devNodeOps ∨ ops = sfsNodeDirops ∨ ops = sfsNodeFileops) → op ∈ ops) :
    SlotFinds vfs filesp want op reaches := fun within _ _ opened reached =>
  table _ _ (openFile_of_entry within opened) reached (consistent.open_tables opened)

theorem meets_io {want : Int} {base : Bytes} {len : Nat} {write : Bool}
    (consistent : Consistent lost vfs)
    (sameSlots : ∀ result after, openNode after = openNode vfs →
      call.Slots vfs filesp result after) :
    Meets (fun stop => SlotFinds vfs filesp want (if write = true then Vop.vopWrite else .vopRead)
        (fun file => (if write = true then file.writable else file.readable) = true) →
        NotMissing stop)
      (do
        let _ ← fileIo filesp want base len write
        pure none : VfsM (Option Nat)) vfs (CallPost lost vfs filesp call) := by
  have io := @Balanced.meets_fileIo vfs lost filesp (fun stop =>
      SlotFinds vfs filesp want (if write = true then Vop.vopWrite else .vopRead)
        (fun file => (if write = true then file.writable else file.readable) = true) →
        NotMissing stop) want base len write consistent.balanced
    (fun stop plain _ => notMissing_plain stop plain) (fun missing finds => absurd finds missing)
    fun files node opened => ⟨fun _ => notMissing_check, fun _ reason _ _ _ => notMissing_sfs reason⟩
  apply meets_bind io
  · exact fun moved after slotUsed => meets_pure (consistent.used (sameSlots _ _) slotUsed)
  · exact fun errno after slotUsed => consistent.used (sameSlots _ _) slotUsed

theorem meets_read {want : Int} {base : Bytes} {len : Nat} (consistent : Consistent lost vfs) :
    Meets (fun stop => Call.FindsOps vfs filesp (.fileRead want base len) → NotMissing stop)
      (Call.run filesp (.fileRead want base len)) vfs
      (CallPost lost vfs filesp (.fileRead want base len)) := by
  have io := @meets_io vfs lost filesp (.fileRead want base len) want base len false consistent
    fun _ _ same => same
  apply io.weaken _ fun _ _ => id
  intro stop missing found
  apply missing
  apply consistent.finds
  rintro file ops isOpen readable (rfl | rfl | rfl)
  · change Vop.vopRead ∈ _
    decide
  · exact absurd rfl (found file _ isOpen readable)
  · change Vop.vopRead ∈ _
    decide

/-- No directory is open for writing. -/
theorem meets_write {want : Int} {base : Bytes} {len : Nat} (consistent : Consistent lost vfs) :
    Meets NotMissing (Call.run filesp (.fileWrite want base len)) vfs
      (CallPost lost vfs filesp (.fileWrite want base len)) := by
  have io := @meets_io vfs lost filesp (.fileWrite want base len) want base len true consistent
    fun _ _ same => same
  apply io.weaken _ fun _ _ => id
  intro stop missing
  apply missing
  intro within files node opened writable
  have held : (files.fdArray want.toNat).held = some node := by
    rw [File.held, if_pos opened.isOpen, opened.held]
  have writes : Writes vfs node := by
    refine ⟨filesp, files, want.toNat, opened.found, opened.inside, ?_⟩
    change (files.fdArray want.toNat).writable = true at writable
    rw [File.writing, if_pos writable, held]
  change Vop.vopWrite ∈ _
  rcases consistent.open_tables opened with ops | ops | ops
  · rw [ops]
    decide
  · exact absurd ops (consistent.writers node writes)
  · rw [ops]
    decide

theorem meets_seek {want pos : Int} {whence : Whence} (consistent : Consistent lost vfs) :
    Meets (fun stop => Call.FindsOps vfs filesp (.fileSeek want pos whence) → NotMissing stop)
      (Call.run filesp (.fileSeek want pos whence)) vfs
      (CallPost lost vfs filesp (.fileSeek want pos whence)) := by
  have seek := @Balanced.meets_fileSeek vfs lost filesp (fun stop =>
      SlotFinds vfs filesp want .vopTryseek (fun _ => whence ≠ .other) → NotMissing stop) want pos
    whence consistent.balanced (fun stop plain _ => notMissing_plain stop plain)
    (fun missing finds => absurd finds missing)
    fun files node target opened _ =>
      ⟨fun _ => notMissing_check, fun _ reason _ _ _ => notMissing_sfs reason⟩
  have whole : Meets (fun stop => SlotFinds vfs filesp want .vopTryseek (fun _ => whence ≠ .other) →
      NotMissing stop) (Call.run filesp (.fileSeek want pos whence)) vfs
      (CallPost lost vfs filesp (.fileSeek want pos whence)) := by
    apply meets_bind seek
    · exact fun _ after slotUsed => meets_pure (consistent.used id slotUsed)
    · exact fun errno after slotUsed => consistent.used id slotUsed
  apply whole.weaken _ fun _ _ => id
  intro stop missing found
  apply missing
  apply consistent.finds
  rintro file ops isOpen valid (rfl | rfl | rfl)
  · decide
  · exact absurd rfl (found file _ isOpen valid)
  · decide

theorem meets_fstat {want : Int} (consistent : Consistent lost vfs) :
    Meets NotMissing (Call.run filesp (.fileFstat want)) vfs
      (CallPost lost vfs filesp (.fileFstat want)) := by
  apply meets_bind (consistent.balanced.meets_fileFstat notMissing_plain)
  · exact fun _ after slotUsed => meets_pure (consistent.used id slotUsed)
  · exact fun errno after slotUsed => consistent.used id slotUsed

theorem meets_fsync {want : Int} (consistent : Consistent lost vfs) :
    Meets (fun stop => Call.FindsOps vfs filesp (.fileFsync want) → NotMissing stop)
      (Call.run filesp (.fileFsync want)) vfs (CallPost lost vfs filesp (.fileFsync want)) := by
  have whole : Meets (fun stop => SlotFinds vfs filesp want .vopFsync (fun _ => True) →
      NotMissing stop) (Call.run filesp (.fileFsync want)) vfs
      (CallPost lost vfs filesp (.fileFsync want)) := by
    apply meets_bind consistent.balanced.meets_fileFsync
    · exact fun _ after slotUsed => meets_pure (consistent.used id slotUsed)
    · exact fun errno after slotUsed => consistent.used id slotUsed
  apply whole.weaken _ fun _ _ => id
  intro stop missing found
  apply missing
  apply consistent.finds
  rintro file ops isOpen _ (rfl | rfl | rfl)
  · exact absurd rfl (found file _ isOpen)
  · decide
  · decide

theorem meets_getdirentry {want offset : Int} (consistent : Consistent lost vfs) :
    Meets (fun stop => Call.FindsOps vfs filesp (.fileGetdirentry want offset) → NotMissing stop)
      (Call.run filesp (.fileGetdirentry want offset)) vfs
      (CallPost lost vfs filesp (.fileGetdirentry want offset)) := by
  have whole : Meets (fun stop => SlotFinds vfs filesp want .vopGetdirentry (fun _ => True) →
      NotMissing stop) (Call.run filesp (.fileGetdirentry want offset)) vfs
      (CallPost lost vfs filesp (.fileGetdirentry want offset)) := by
    apply meets_bind consistent.balanced.meets_fileGetdirentry
    · exact fun _ after slotUsed => meets_pure (consistent.used id slotUsed)
    · exact fun errno after slotUsed => consistent.used id slotUsed
  apply whole.weaken _ fun _ _ => id
  intro stop missing found
  apply missing
  apply consistent.finds
  intro file ops isOpen _ _
  rw [found file ops isOpen]
  decide

theorem meets_closeFile {want : Int} (consistent : Consistent lost vfs) :
    Meets NotMissing (Call.run filesp (.fileClose want)) vfs
      (CallPost lost vfs filesp (.fileClose want)) := by
  apply meets_bind consistent.balanced.meets_fileClose
  · rintro _ after ⟨balanced, files, node, opened, moves⟩
    have held : (files.fdArray want.toNat).held = some node := by
      rw [File.held, if_pos opened.isOpen, opened.held]
    refine meets_pure ⟨⟨lost, consistent.setFile opened.found balanced consistent.kept moves ?_,
      fun _ => rfl⟩, ⟨?_, ?_⟩, by intros; contradiction⟩
    · intro other _ writing
      cases File.held_of_writing writing
    · rw [openNode_of_found opened.found, held]
      exact Option.some_ne_none node
    · rw [moves.openNode, openNode_setFile opened.found]
      rfl
  · rintro errno after ⟨_, same⟩
    obtain rfl : after = vfs := same
    exact consistent.unchanged Moves.refl rfl

theorem writing_duplicate (isOpen : file.status = .opened) :
    file.duplicate.writing = file.writing := by
  rw [File.writing, File.writing, File.held, File.held, if_pos isOpen]
  rfl

theorem meets_dup {want want' : Int} (consistent : Consistent lost vfs) :
    Meets NotMissing (Call.run filesp (.fileDup want want')) vfs
      (CallPost lost vfs filesp (.fileDup want want')) := by
  apply meets_bind consistent.balanced.meets_fileDup
  · rintro fd after ⟨balanced, files, node, opened, inside, isFree, moves⟩
    have held : (files.fdArray want.toNat).held = some node := by
      rw [File.held, if_pos opened.isOpen, opened.held]
    have held' : File.held (files.fdArray want.toNat).duplicate = some node := opened.held
    refine meets_pure ⟨⟨lost, consistent.setFile opened.found balanced consistent.kept moves ?_,
      fun _ => rfl⟩, ⟨inside, ?_, ?_⟩, by intros; contradiction⟩
    · intro other _ writing
      rw [writing_duplicate opened.isOpen] at writing
      exact Or.inl ⟨filesp, files, want.toNat, opened.found, opened.inside, writing⟩
    · rw [openNode_of_found opened.found, File.held_free isFree]
    · rw [moves.openNode, openNode_setFile opened.found, held', openNode_of_found opened.found, held]
  · rintro errno after ⟨_, same⟩
    obtain rfl : after = vfs := same
    exact consistent.unchanged Moves.refl rfl

theorem openNode_setFiles (found : vfs.files filesp = some files) {files' : Files}
    (same : ∀ fd, (files'.fdArray fd).held = (files.fdArray fd).held) :
    openNode (vfs.setFiles filesp files') = openNode vfs := by
  funext ⟨other, entry⟩
  by_cases here : other = filesp
  · subst here
    rw [openNode_of_found files_setFiles, openNode_of_found found, same]
  · rw [openNode, openNode, files_setFiles_of_ne here]

theorem meets_chdir (consistent : Consistent lost vfs) :
    Meets NotMissing (Call.run filesp (.vfsChdir path)) vfs
      (CallPost lost vfs filesp (.vfsChdir path)) := by
  apply meets_bind (consistent.balanced.meets_vfsChdir consistent.kept (consistent.starts filesp))
  · rintro _ after ⟨balanced, files, dir, found, _, isDir, moves⟩
    refine meets_pure ⟨⟨lost, consistent.setFiles balanced consistent.kept moves ?_ ?_
      (consistent.counted filesp files found), fun _ => rfl⟩, ?_,
      by intros; contradiction⟩
    · rintro node ⟨⟩
      exact isDir.imp (fun isPwd => ⟨filesp, (pwdNode_of_found found).trans isPwd⟩) id
    · exact fun entry node inside writing => Or.inl ⟨filesp, files, entry, found, inside, writing⟩
    · change openNode after = openNode vfs
      rw [moves.openNode, openNode_setFiles found (by exact fun _ => rfl)]
  · rintro errno after ⟨_, moves⟩
    exact consistent.unchanged moves moves.openNode

/-- Entries that are closed hold nothing. -/
theorem closed_held {files' : Files} {first last entry : Nat}
    (closed : ClosedFrom files files' first last) :
    (files'.fdArray entry).held = if first ≤ entry ∧ entry < last then none
      else (files.fdArray entry).held := by
  split_ifs with inside
  · exact File.held_free (closed.closed entry inside.1 inside.2)
  · rw [closed.others entry inside]

theorem meets_closeall (consistent : Consistent lost vfs) :
    Meets NotMissing (Call.run filesp .filesCloseall) vfs
      (CallPost lost vfs filesp .filesCloseall) := by
  apply meets_bind_of_run consistent.balanced.meets_filesCloseall
  rintro _ after ⟨rfl, files, found, files', refs, opens, closed, released, moves, balanced⟩
  refine ⟨(), rfl, meets_pure ⟨⟨lost, consistent.setFiles balanced consistent.kept moves ?_ ?_ ?_,
    fun _ => rfl⟩, ?_, by intros; contradiction⟩⟩
  · intro node isPwd
    rw [closed.pwd] at isPwd
    exact Or.inl ⟨filesp, (pwdNode_of_found found).trans isPwd⟩
  · intro entry node inside writing
    by_cases within : 2 ≤ entry ∧ entry < filesStructNentry
    · have free := File.held_free (closed.closed entry within.1 within.2)
      cases free.symm.trans (File.held_of_writing writing)
    · rw [closed.others entry within] at writing
      exact Or.inl ⟨filesp, files, entry, found, inside, writing⟩
  · rw [closed.filesCount]
    exact consistent.counted filesp files found
  · rintro ⟨other, entry⟩
    rw [moves.openNode]
    by_cases here : other = filesp
    · subst here
      rw [openNode_of_found files_setFiles, closed_held closed, openNode_of_found found]
      simp only [true_and]
    · rw [openNode, files_setFiles_of_ne here, if_neg fun impossible => here impossible.1]
      rfl

theorem meets_copy {share : Bool} (consistent : Consistent lost vfs)
    (found : vfs.files filesp = some files) :
    Meets NotMissing (Call.run filesp (.copyFiles share)) vfs
      (CallPost lost vfs filesp (.copyFiles share)) := by
  apply meets_bind (consistent.balanced.meets_copyFiles found)
  · rintro target after ⟨balanced, ⟨_, rfl, rfl⟩ | ⟨_, rfl, refs, opens, taken, moves⟩⟩
    · refine meets_pure ⟨⟨lost, consistent.setFiles balanced consistent.kept Moves.refl ?_ ?_
        (Nat.succ_pos _), fun _ => rfl⟩, ?_, by intros; contradiction⟩
      · exact fun node isPwd => Or.inl ⟨target, (pwdNode_of_found found).trans isPwd⟩
      · exact fun entry node inside writing => Or.inl ⟨target, files, entry, found, inside, writing⟩
      · rintro ⟨other, entry⟩ _
        rw [openNode_setFiles found (by exact fun _ => rfl)]
        split_ifs with same
        · rw [show other = target from same]
        · rfl
    · have fresh : vfs.files vfs.filesCreated = none := by
        cases isThere : vfs.files vfs.filesCreated with
        | none => rfl
        | some others => exact absurd (consistent.balanced.created _ _ isThere) (Nat.lt_irrefl _)
      have entries : ∀ entry, entry < filesStructNentry →
          (files.duplicate 1 filesStructNentry).fdArray entry =
            if (files.fdArray entry).status = .opened then (files.fdArray entry).duplicate
            else File.initial := by
        intro entry inside
        simp only [Files.duplicate, inside, true_and]
      have old : ∀ {other : Nat} {others : Files},
          (vfs.withDuplicate files).files other = some others →
          other = vfs.filesCreated ∧ others = files.duplicate 1 filesStructNentry ∨
            vfs.files other = some others := by
        intro other others isOther
        by_cases same : other = vfs.filesCreated
        · subst same
          have here : (vfs.withDuplicate files).files vfs.filesCreated =
              some (files.duplicate 1 filesStructNentry) := Function.update_self ..
          exact Or.inl ⟨rfl, Option.some.inj (isOther.symm.trans here)⟩
        · have there : (vfs.withDuplicate files).files other = vfs.files other :=
            Function.update_of_ne same _ _
          exact Or.inr (there.symm.trans isOther)
      refine meets_pure ⟨⟨lost, consistent.step balanced consistent.kept moves ?_ ?_ ?_,
        fun _ => rfl⟩, ?_, by intros; contradiction⟩
      · intro other others node isOther isPwd
        rcases old isOther with ⟨_, rfl⟩ | before
        · exact Or.inl ⟨filesp, (pwdNode_of_found found).trans isPwd⟩
        · exact Or.inl ⟨other, (pwdNode_of_found before).trans isPwd⟩
      · intro other others entry node isOther inside writing
        rcases old isOther with ⟨_, rfl⟩ | before
        · rw [entries entry inside] at writing
          split_ifs at writing with isOpen
          · rw [writing_duplicate isOpen] at writing
            exact Or.inl ⟨filesp, files, entry, found, inside, writing⟩
          · cases File.held_of_writing writing
        · exact Or.inl ⟨other, others, entry, before, inside, writing⟩
      · intro other others isOther
        rcases old isOther with ⟨_, rfl⟩ | before
        · exact Nat.one_pos
        · exact consistent.counted other others before
      · rintro ⟨other, entry⟩ inside
        rw [moves.openNode]
        split_ifs with same
        · obtain rfl : other = vfs.filesCreated := same
          have here : (vfs.withDuplicate files).files vfs.filesCreated =
              some (files.duplicate 1 filesStructNentry) := Function.update_self ..
          rw [openNode_of_found here, entries entry inside, openNode_of_found found]
          split_ifs with isOpen
          · rw [File.held, File.held, if_pos isOpen]
            rfl
          · rw [File.held, File.held, if_neg isOpen]
            rfl
        · have there : (vfs.withDuplicate files).files other = vfs.files other :=
            Function.update_of_ne same _ _
          rw [openNode, openNode, there]
  · rintro errno after ⟨_, _, moves⟩
    exact consistent.unchanged moves moves.openNode

theorem meets_put (consistent : Consistent lost vfs) (found : vfs.files filesp = some files) :
    Meets NotMissing (Call.run filesp .putFiles) vfs (CallPost lost vfs filesp .putFiles) := by
  apply meets_bind_of_run (consistent.balanced.meets_putFiles consistent.kept found
    (consistent.noDevice found))
  rintro _ after ⟨rfl, balanced, ⟨shared, rfl⟩ | ⟨last, refs, opens, released, moves, _⟩⟩
  · refine ⟨(), rfl, meets_pure ⟨⟨lost, consistent.setFiles balanced consistent.kept Moves.refl ?_ ?_
      ?_, fun _ => rfl⟩, ⟨files, found, ?_⟩, by intros; contradiction⟩⟩
    · exact fun node isPwd => Or.inl ⟨filesp, (pwdNode_of_found found).trans isPwd⟩
    · exact fun entry node inside writing => Or.inl ⟨filesp, files, entry, found, inside, writing⟩
    · change 0 < files.filesCount - 1
      omega
    · intro slot
      rw [openNode_setFiles found (by exact fun _ => rfl), if_neg fun impossible => ?_]
      have := impossible.2
      omega
  · have old : ∀ {other : Nat} {others : Files}, (vfs.dropFiles filesp).files other = some others →
        vfs.files other = some others := by
      intro other others isOther
      by_cases same : other = filesp
      · subst same
        have gone : (vfs.dropFiles other).files other = none := Function.update_self ..
        cases gone.symm.trans isOther
      · have there : (vfs.dropFiles filesp).files other = vfs.files other :=
          Function.update_of_ne same _ _
        exact there.symm.trans isOther
    refine ⟨(), rfl, meets_pure ⟨⟨lost, consistent.step balanced consistent.kept moves ?_ ?_ ?_,
      fun _ => rfl⟩, ⟨files, found, ?_⟩, by intros; contradiction⟩⟩
    · intro other others node isOther isPwd
      exact Or.inl ⟨other, (pwdNode_of_found (old isOther)).trans isPwd⟩
    · intro other others entry node isOther inside writing
      exact Or.inl ⟨other, others, entry, old isOther, inside, writing⟩
    · exact fun other others isOther => consistent.counted other others (old isOther)
    · rintro ⟨other, entry⟩
      rw [moves.openNode]
      by_cases same : other = filesp
      · subst same
        have gone : (vfs.dropFiles other).files other = none := Function.update_self ..
        rw [openNode, gone, if_pos ⟨rfl, last⟩]
        rfl
      · have there : (vfs.dropFiles filesp).files other = vfs.files other :=
          Function.update_of_ne same _ _
        rw [openNode, openNode, there, if_neg fun impossible => same impossible.1]

/-- Every call keeps the state consistent, and finds its operations where they are there. -/
theorem meets_run (consistent : Consistent lost vfs) (found : vfs.files filesp = some files)
    (call : Call) :
    Meets (fun stop => call.FindsOps vfs filesp → NotMissing stop) (call.run filesp) vfs
      (CallPost lost vfs filesp call) := by
  have allow : ∀ {call : Call}, Meets NotMissing (call.run filesp) vfs
      (CallPost lost vfs filesp call) →
      Meets (fun stop => call.FindsOps vfs filesp → NotMissing stop) (call.run filesp) vfs
        (CallPost lost vfs filesp call) :=
    fun meets => meets.weaken (fun _ missing _ => missing) fun _ _ => id
  cases call with
  | fileOpen path openFlags => exact consistent.meets_open
  | fileClose fd => exact allow consistent.meets_closeFile
  | fileDup fd1 fd2 => exact allow consistent.meets_dup
  | fileRead fd base len => exact consistent.meets_read
  | fileWrite fd base len => exact allow consistent.meets_write
  | fileSeek fd pos whence => exact consistent.meets_seek
  | fileFstat fd => exact allow consistent.meets_fstat
  | fileFsync fd => exact consistent.meets_fsync
  | fileGetdirentry fd offset => exact consistent.meets_getdirentry
  | vfsChdir path => exact allow consistent.meets_chdir
  | copyFiles share => exact allow (consistent.meets_copy found)
  | filesCloseall => exact allow consistent.meets_closeall
  | putFiles => exact allow (consistent.meets_put found)

end Consistent

end UCore.Vfs
