import UCore.Vfs.Holders

/-!
Contract: what the operations on open files do to the counts and the slots.

Owns:
- the files array: what allocating, freeing, opening and closing an entry leave;
- `Balanced` after every function of `file.c` and `fs.c`, and after the functions that change the
  working directory and the boot file system;
- the operations that can be missing.

Does not own: runs of calls.
-/

set_option autoImplicit false

namespace UCore.Vfs

open UCore.Lib UCore.Lib.Program UCore.Fs

variable {vfs after : VfsState} {node : Node} {refs opens lost : Node → Int} {filesp fd : Nat}
  {files : Files} {file : File} {path : Path} {stops : VfsStop → Prop}

/-! ## The files array -/

/-- The structure with another entry. -/
def Files.setFile (files : Files) (fd : Nat) (file : File) : Files :=
  { files with fdArray := Function.update files.fdArray fd file }

@[simp] theorem Files.setFile_self : (files.setFile fd file).fdArray fd = file :=
  Function.update_self ..

theorem setFile_found : (vfs.setFile filesp files fd file).files filesp =
    some (files.setFile fd file) :=
  files_setFiles

/-- The last entry in a slot counts. -/
theorem setFile_setFile {file' : File} :
    (vfs.setFile filesp files fd file).setFile filesp (files.setFile fd file) fd file' =
      vfs.setFile filesp files fd file' := by
  simp only [VfsState.setFile, VfsState.setFiles, Files.setFile, Function.update_idem]

theorem run_getFiles (found : vfs.files filesp = some files) :
    getFiles filesp vfs = .ok (.ok files, vfs) := by
  simp only [getFiles, Bind.bind, Program.bind, Program.read, found]
  rfl

theorem run_getFile (found : vfs.files filesp = some files) :
    getFile filesp fd vfs = .ok (.ok (files.fdArray fd), vfs) := by
  simp only [getFile, Bind.bind, Program.bind, run_getFiles found]
  rfl

theorem run_setFile (found : vfs.files filesp = some files) :
    setFile filesp fd file vfs = .ok (.ok (), vfs.setFile filesp files fd file) := by
  simp only [setFile, Bind.bind, Program.bind, run_getFiles found]
  rfl

/-- A change of the counts and a change of the files are independent. -/
theorem Moves.setFiles (moves : Moves refs opens vfs after) :
    Moves refs opens (vfs.setFiles filesp files) (after.setFiles filesp files) where
  files := by
    change Function.update after.files filesp _ = Function.update vfs.files filesp _
    rw [moves.files]
  filesCreated := moves.filesCreated
  bootfs := moves.bootfs
  refCount node := by
    have counted := moves.refCount node
    cases node <;> exact counted
  openCount node := by
    have counted := moves.openCount node
    cases node <;> exact counted
  type := moves.type
  sound sound := by
    have kept := moves.sound ⟨sound.proper, sound.devices⟩
    exact ⟨kept.proper, kept.devices⟩

/-- Another entry after a change of the counts. -/
theorem Moves.setFile {file' : File}
    (moves : Moves refs opens (vfs.setFile filesp files fd file) after) :
    Moves refs opens (vfs.setFile filesp files fd file')
      (after.setFile filesp (files.setFile fd file) fd file') := by
  have both := @Moves.setFiles _ _ refs opens filesp (files.setFile fd file') moves
  have same : (vfs.setFile filesp files fd file).setFiles filesp (files.setFile fd file') =
      vfs.setFile filesp files fd file' := by
    simp only [VfsState.setFile, VfsState.setFiles, Files.setFile, Function.update_idem]
  rw [same] at both
  have other : after.setFile filesp (files.setFile fd file) fd file' =
      after.setFiles filesp (files.setFile fd file') := by
    simp only [VfsState.setFile, VfsState.setFiles, Files.setFile, Function.update_idem]
  rwa [other]

theorem Moves.found (moves : Moves refs opens (vfs.setFile filesp files fd file) after) :
    after.files filesp = some (files.setFile fd file) := by
  rw [moves.files]
  exact setFile_found

/-- Setting the entry that is in the slot. -/
theorem setFile_same (found : vfs.files filesp = some files) :
    vfs.setFile filesp files fd (files.fdArray fd) = vfs := by
  simp only [VfsState.setFile, VfsState.setFiles, Function.update_eq_self]
  have same : Function.update vfs.files filesp (some files) = vfs.files := by
    rw [← found, Function.update_eq_self]
  rw [same]

theorem run_assert {condition : Prop} [Decidable condition] (holds : condition) :
    assert condition vfs = .ok (.ok (), vfs) :=
  require_run holds

/-- `fd_array_free` of an entry that was never opened. -/
theorem run_fdArrayFree_init (found : vfs.files filesp = some files)
    (entry : files.fdArray fd = file) (init : file.status = .init) (unused : file.openCount = 0) :
    fdArrayFree filesp fd vfs =
      .ok (.ok (), vfs.setFile filesp files fd { file with status := .none }) := by
  have notClosed : ¬ file.status = .closed := by
    rw [init]
    decide
  subst entry
  rw [fdArrayFree, bind_run (run_getFile found), bind_run (run_assert (Or.inl init)),
    bind_run (run_assert unused), if_neg notClosed]
  exact run_setFile found

theorem run_fdArrayOpen (found : vfs.files filesp = some files)
    (entry : files.fdArray fd = file) (init : file.status = .init) (present : file.node ≠ none) :
    fdArrayOpen filesp fd vfs = .ok (.ok (), vfs.setFile filesp files fd
      { file with status := .opened, openCount := file.openCount + 1 }) := by
  subst entry
  rw [fdArrayOpen, bind_run (run_getFile found), bind_run (run_assert ⟨init, present⟩)]
  exact run_setFile found

/-- `fd_array_close` of an entry that nobody else uses. -/
theorem meets_fdArrayClose (found : vfs.files filesp = some files)
    (entry : files.fdArray fd = file) (isOpen : file.status = .opened)
    (once : file.openCount = 1) (held : file.node = some node) (sound : Sound vfs)
    (alive : ∀ device, node = .device device → 1 < vfs.refCount node)
    (referenced : 0 < vfs.refCount node) :
    Meets NotMissing (fdArrayClose filesp fd) vfs fun result after => result = .ok () ∧
      Moves (-just node) (-just node)
        (vfs.setFile filesp files fd { file with status := .none, openCount := 0 }) after := by
  subst entry
  apply meets_bind_run (run_getFile found)
  apply meets_bind_run (run_assert isOpen)
  apply meets_bind_run (run_assert (by omega))
  apply meets_bind_run (run_setFile found)
  rw [if_pos (by omega)]
  apply meets_bind_run (run_getFile setFile_found)
  rw [Files.setFile_self]
  apply meets_bind_run (run_assert (Or.inr rfl))
  apply meets_bind_run (run_assert (show (files.fdArray fd).openCount - 1 = 0 by omega))
  have close : closeNode (files.fdArray fd).node = vfsClose node := by
    rw [held]
    rfl
  rw [if_pos rfl, close]
  have closing := @meets_vfsClose
    (vfs.setFile filesp files fd
      { files.fdArray fd with status := .closed, openCount := (files.fdArray fd).openCount - 1 })
    node ⟨sound.proper, sound.devices⟩ alive referenced
  apply meets_bind_of_run closing
  rintro _ middle ⟨rfl, moves⟩
  refine ⟨(), rfl, ?_⟩
  apply meets_of_run (run_setFile moves.found)
  refine ⟨rfl, ?_⟩
  have final := @Moves.setFile _ _ _ _ _ _ _ _
    { files.fdArray fd with status := .none, openCount := (files.fdArray fd).openCount - 1 } moves
  rwa [show (files.fdArray fd).openCount - 1 = 0 by omega] at final ⊢

theorem Sound.setFile (sound : Sound vfs) : Sound (vfs.setFile filesp files fd file) :=
  ⟨sound.proper, sound.devices⟩

theorem Starts.setFile {other : Nat} (starts : Starts vfs other)
    (found : vfs.files filesp = some files) : Starts (vfs.setFile filesp files fd file) other := by
  refine ⟨?_, starts.bootfs, starts.root⟩
  intro others node isOther isPwd
  by_cases same : other = filesp
  · subst same
    rw [setFile_found] at isOther
    obtain rfl := Option.some.inj isOther
    exact starts.pwd files node found isPwd
  · rw [VfsState.setFile, files_setFiles_of_ne same] at isOther
    exact starts.pwd others node isOther isPwd

theorem meets_bind_getFdArray {α : Type} {second : Files → VfsM α}
    {post : Except Errno α → VfsState → Prop} (plain : ∀ stop, Plain stop → stops stop)
    (rest : ∀ files, vfs.files filesp = some files → Meets stops (second files) vfs post) :
    Meets stops (getFdArray filesp >>= second) vfs post := by
  have array : Meets stops (getFdArray filesp) vfs fun result after =>
      ∃ files, result = .ok files ∧ vfs.files filesp = some files ∧ after = vfs := by
    apply meets_bind_getFiles plain
    intro files found
    apply meets_require _ fun _ => plain _ (Or.inr ⟨_, rfl⟩)
    intro _
    exact meets_pure ⟨files, rfl, found, rfl⟩
  apply meets_bind_of_run array
  rintro _ _ ⟨files, rfl, found, rfl⟩
  exact ⟨files, rfl, rest files found⟩

/-- An entry that `fd_array_alloc` hands out. -/
def File.allocated (file : File) : File := { file with status := .init, node := none }

/-- What `fd_array_alloc` leaves. -/
def AllocPost (vfs : VfsState) (filesp : Nat) (result : Except Errno Nat) (after : VfsState) :
    Prop :=
  match result with
  | .ok fd => ∃ files, vfs.files filesp = some files ∧ fd < filesStructNentry ∧
      (files.fdArray fd).status = .none ∧ (files.fdArray fd).openCount = 0 ∧
      after = vfs.setFile filesp files fd (files.fdArray fd).allocated
  | .error _ => after = vfs

theorem meets_fdArrayAlloc {want : Int} (plain : ∀ stop, Plain stop → stops stop) :
    Meets stops (fdArrayAlloc filesp want) vfs (AllocPost vfs filesp) := by
  apply meets_bind_getFdArray plain
  intro files found
  have take : ∀ fd, fd < filesStructNentry → (files.fdArray fd).status = .none →
      Meets stops (do
        assert ((files.fdArray fd).openCount = 0)
        setFile filesp fd { files.fdArray fd with status := .init, node := none }
        pure fd : VfsM Nat) vfs (AllocPost vfs filesp) := by
    intro fd inside isFree
    apply meets_require _ fun _ => plain _ (Or.inr ⟨_, rfl⟩)
    intro unused
    apply meets_bind_run (run_setFile found)
    exact meets_pure ⟨files, found, inside, isFree, unused, rfl⟩
  simp only []
  by_cases anyFd : want = noFd
  · rw [if_pos anyFd]
    cases first : (List.range filesStructNentry).find? fun fd =>
        (files.fdArray fd).status = .none with
    | none => exact meets_fail rfl
    | some fd =>
        have inside := List.mem_range.mp (List.mem_of_find?_eq_some first)
        have isFree := List.find?_some first
        exact take fd inside (of_decide_eq_true isFree)
  · rw [if_neg anyFd]
    by_cases valid : testfd want
    · rw [if_pos valid]
      have inside : want.toNat < filesStructNentry := by
        unfold testfd at valid
        omega
      by_cases isFree : (files.fdArray want.toNat).status = .none
      · rw [if_pos isFree]
        exact take want.toNat inside isFree
      · rw [if_neg isFree]
        exact meets_fail rfl
    · rw [if_neg valid]
      exact meets_fail rfl

/-! ## Opening and closing files -/

theorem meets_bind_present {α : Type} {op : Vop} {second : Unit → VfsM α}
    {post : Except Errno α → VfsState → Prop} (present : op ∈ vfs.inOps node)
    (checks : stops .inodeCheck) (rest : Meets stops (second ()) vfs post) :
    Meets stops (vopOp node op >>= second) vfs post := by
  have checked : Meets stops (vopOp node op) vfs fun result after =>
      result = .ok () ∧ after = vfs := by
    apply meets_read
    apply meets_require _ (absurd present)
    intro _
    exact meets_read (meets_require_last (fun _ => ⟨rfl, rfl⟩) fun _ => checks)
  apply meets_bind_of_run checked
  rintro _ _ ⟨rfl, rfl⟩
  exact ⟨(), rfl, rest⟩

theorem meets_vopGettype (plain : ∀ stop, Plain stop → stops stop) (sound : Sound vfs)
    (referenced : 0 < vfs.refCount node) :
    Meets stops (vopGettype node) vfs fun result after => after = vfs ∧
      (result = .ok .directory → vfs.inOps node = sfsNodeDirops) := by
  apply meets_bind_present (sound.common referenced (by decide)) (plain _ (Or.inl rfl))
  cases node with
  | device device => exact meets_pure ⟨rfl, by rintro ⟨⟩⟩
  | sfs ino =>
      obtain ⟨sin, loaded, _⟩ := loaded_of_refCount referenced
      apply meets_bind_run (run_lift_getSin loaded)
      split_ifs with isDir
      · refine meets_pure ⟨rfl, fun _ => ?_⟩
        simp only [VfsState.inOps, loaded, if_pos isDir]
      · exact meets_pure ⟨rfl, by rintro ⟨⟩⟩
      · exact meets_pure ⟨rfl, by rintro ⟨⟩⟩
      · exact plain _ (Or.inr ⟨_, rfl⟩)

/-- The size that `vop_fstat` finds. -/
def VfsState.sizeOf (vfs : VfsState) : Node → Nat
  | .device _ => 0
  | .sfs ino =>
      match vfs.sfs.inodes ino with
      | none => 0
      | some sin => sin.din.size

theorem meets_vopFstat (plain : ∀ stop, Plain stop → stops stop) (sound : Sound vfs)
    (referenced : 0 < vfs.refCount node) :
    Meets stops (vopFstat node) vfs fun result after => after = vfs ∧
      ∀ stat, result = .ok stat → stat.size = vfs.sizeOf node := by
  apply meets_bind_present (sound.common referenced (by decide)) (plain _ (Or.inl rfl))
  apply meets_bind (meets_vopGettype plain sound referenced)
  · rintro mode _ ⟨rfl, _⟩
    cases node with
    | device device =>
        refine meets_pure ⟨rfl, ?_⟩
        rintro _ ⟨⟩
        rfl
    | sfs ino =>
        obtain ⟨sin, loaded, _⟩ := loaded_of_refCount referenced
        apply meets_bind_run (run_lift_getSin loaded)
        refine meets_pure ⟨rfl, ?_⟩
        rintro _ ⟨⟩
        simp only [VfsState.sizeOf, loaded]
  · rintro _ _ ⟨rfl, _⟩
    exact ⟨rfl, fun _ impossible => nomatch impossible⟩

/-- The open finds the operations it needs, once it has its slot. -/
def FileOpenFindsOps (vfs : VfsState) (filesp : Nat) (path : Path) (openFlags : Nat) : Prop :=
  ∀ fd after, fdArrayAlloc filesp noFd vfs = .ok (.ok fd, after) →
    OpenFindsOps after filesp path openFlags

/-- The open is an exclusive creation of what exists. -/
def FileCreatesExisting (vfs : VfsState) (filesp : Nat) (path : Path) (openFlags : Nat) : Prop :=
  ∃ fd after, fdArrayAlloc filesp noFd vfs = .ok (.ok fd, after) ∧
    CreatesExisting after filesp path openFlags

/-- The entry of an open file. -/
def openedFile (openFlags : Nat) (node : Node) (pos : Int) : File where
  status := .opened
  readable := decide (accmode openFlags = oRdonly ∨ accmode openFlags = oRdwr)
  writable := decide (accmode openFlags = oWronly ∨ accmode openFlags = oRdwr)
  pos := pos
  node := some node
  openCount := 1

/-- What `file_open` leaves: an open slot, or a free one. -/
def FileOpenPost (vfs : VfsState) (filesp : Nat) (path : Path) (openFlags : Nat)
    (result : Except Errno Nat) (after : VfsState) : Prop :=
  match result with
  | .ok fd => ∃ (files : Files) (node : Node) (size : Nat), vfs.files filesp = some files ∧
      fd < filesStructNentry ∧ (files.fdArray fd).status = .none ∧
      size = (if hasFlag openFlags oAppend = true then after.sizeOf node else 0) ∧
      Moves (just node) (just node)
        (vfs.setFile filesp files fd (openedFile openFlags node size)) after ∧
      (accmode openFlags ≠ oRdonly → after.inOps node ≠ sfsNodeDirops)
  | .error _ => Moves 0 0 vfs after ∨ ∃ files fd file, vfs.files filesp = some files ∧
      fd < filesStructNentry ∧ (files.fdArray fd).status = .none ∧ file.status = .none ∧
      file.openCount = 0 ∧ ∃ refs, Moves refs 0 (vfs.setFile filesp files fd file) after ∧
      (refs = 0 ∨ FileCreatesExisting vfs filesp path openFlags ∧ ∃ node, refs = just node)

theorem meets_fileOpen {openFlags : Nat} (sound : Sound vfs) (starts : Starts vfs filesp) :
    Meets (fun stop => FileOpenFindsOps vfs filesp path openFlags → NotMissing stop)
      (fileOpen filesp path openFlags) vfs (FileOpenPost vfs filesp path openFlags) := by
  have allow : ∀ {α : Type} {state : VfsState} {program : VfsM α}
      {post : Except Errno α → VfsState → Prop}, Meets NotMissing program state post →
      Meets (fun stop => FileOpenFindsOps vfs filesp path openFlags → NotMissing stop) program state
        post := fun meets => meets.weaken (fun _ found _ => found) fun _ _ => id
  unfold fileOpen
  simp only []
  by_cases invalid : accmode openFlags ≠ oRdonly ∧ accmode openFlags ≠ oWronly ∧
      accmode openFlags ≠ oRdwr
  · rw [if_pos invalid]
    exact meets_fail (Or.inl Moves.refl)
  · rw [if_neg invalid]
    apply meets_bind (allow (meets_fdArrayAlloc notMissing_plain).withRun)
    · rintro fd middle ⟨allocated, files, found, inside, isFree, unused, rfl⟩
      have opening : Meets (fun stop => FileOpenFindsOps vfs filesp path openFlags →
          NotMissing stop) (vfsOpen filesp path openFlags)
          (vfs.setFile filesp files fd (files.fdArray fd).allocated)
          (OpenPost (vfs.setFile filesp files fd (files.fdArray fd).allocated) filesp path
            openFlags) :=
        (meets_vfsOpen sound.setFile (starts.setFile found)).weaken
          (fun _ missing finds => missing (finds fd _ allocated)) fun _ _ => id
      -- A slot that is given back.
      have giveBack : ∀ {errno : Errno} {refs : Node → Int} {state : VfsState},
          Moves refs 0 (vfs.setFile filesp files fd (files.fdArray fd).allocated) state →
          (refs = 0 ∨ FileCreatesExisting vfs filesp path openFlags ∧ ∃ node, refs = just node) →
          Meets (fun stop => FileOpenFindsOps vfs filesp path openFlags → NotMissing stop) (do
            fdArrayFree filesp fd
            Program.fail errno : VfsM Nat) state (FileOpenPost vfs filesp path openFlags) := by
        intro errno refs state moves leaked
        apply meets_bind_run (run_fdArrayFree_init moves.found Files.setFile_self rfl unused)
        exact meets_fail (Or.inr ⟨files, fd, { (files.fdArray fd).allocated with status := .none },
          found, inside, isFree, rfl, unused, refs, moves.setFile, leaked⟩)
      apply meets_bind_attempt opening
      rintro (errno | node) state opened
      · rcases opened with moves | ⟨_, existing, node, moves⟩
        · exact giveBack moves (Or.inl rfl)
        · exact giveBack moves (Or.inr ⟨⟨fd, _, allocated, existing⟩, node, rfl⟩)
      · obtain ⟨moves, writers⟩ := opened
        have finish : ∀ {size : Nat},
            size = (if hasFlag openFlags oAppend = true then state.sizeOf node else 0) →
            Meets (fun stop => FileOpenFindsOps vfs filesp path openFlags → NotMissing stop) (do
              setFile filesp fd { (files.fdArray fd).allocated with
                pos := size
                node := some node
                readable := decide (accmode openFlags = oRdonly ∨ accmode openFlags = oRdwr)
                writable := decide (accmode openFlags = oWronly ∨ accmode openFlags = oRdwr) }
              fdArrayOpen filesp fd
              pure fd : VfsM Nat) state (FileOpenPost vfs filesp path openFlags) := by
          intro size sized
          apply meets_bind_run (run_setFile moves.found)
          apply meets_bind_run (run_fdArrayOpen setFile_found Files.setFile_self rfl
            (Option.some_ne_none node))
          rw [setFile_setFile]
          refine meets_pure ⟨files, node, size, found, inside, isFree, sized, ?_, writers⟩
          have final := @Moves.setFile _ _ _ _ _ _ _ _ (openedFile openFlags node size) moves
          rw [show (files.fdArray fd).allocated.openCount = 0 from unused]
          exact final
        apply meets_bind_run (run_getFile moves.found)
        rw [Files.setFile_self]
        by_cases appends : hasFlag openFlags oAppend = true
        · rw [if_pos appends]
          have later := moves.refCount node
          rw [just_self] at later
          apply meets_bind_attempt
            (allow (meets_vopFstat notMissing_plain (moves.sound sound.setFile) (by omega)))
          rintro (errno | stat) found ⟨rfl, sized⟩
          · have alive : ∀ device, node = .device device → 1 < found.refCount node := by
              rintro device rfl
              have := sound.devices device
              change (found.refCount _ : Int) = vfs.deviceRefs device + 1 at later
              omega
            apply meets_bind_of_run
              (allow (meets_vfsClose (moves.sound sound.setFile) alive (by omega)))
            rintro _ closed ⟨rfl, released⟩
            refine ⟨(), rfl, giveBack ?_ (Or.inl rfl)⟩
            have steady : ∀ other, (-just node) other ≤ 0 := fun other => by
              have := just_nonneg node other
              rw [Pi.neg_apply]
              omega
            exact (moves.trans released (Or.inr steady)).congr (add_neg_cancel _) (add_neg_cancel _)
          · exact finish (by rw [if_pos appends, sized stat rfl])
        · rw [if_neg appends]
          exact finish (if_neg appends).symm
    · rintro errno after ⟨_, same⟩
      obtain rfl : after = vfs := same
      exact Or.inl Moves.refl

/-! ## Using open files -/

/-- What `fd2file` finds. -/
def Fd2FilePost (vfs : VfsState) (filesp : Nat) (result : Except Errno Nat) (after : VfsState) :
    Prop :=
  after = vfs ∧ ∀ fd, result = .ok fd → fd < filesStructNentry ∧
    ∃ files, vfs.files filesp = some files ∧ (files.fdArray fd).status = .opened

theorem meets_fd2file {want : Int} (plain : ∀ stop, Plain stop → stops stop) :
    Meets stops (fd2file filesp want) vfs fun result after =>
      Fd2FilePost vfs filesp result after ∧
        ∀ fd, result = .ok fd → fd = want.toNat ∧ testfd want := by
  unfold fd2file
  split_ifs with valid
  · apply meets_bind_getFdArray plain
    intro files found
    split_ifs with isOpen
    · refine meets_pure ⟨⟨rfl, ?_⟩, ?_⟩
      · rintro fd ⟨⟩
        refine ⟨?_, files, found, isOpen⟩
        unfold testfd at valid
        omega
      · rintro fd ⟨⟩
        exact ⟨rfl, valid⟩
    · exact meets_fail ⟨⟨rfl, fun _ impossible => nomatch impossible⟩,
        fun _ impossible => nomatch impossible⟩
  · exact meets_fail ⟨⟨rfl, fun _ impossible => nomatch impossible⟩,
      fun _ impossible => nomatch impossible⟩

theorem run_fdArrayAcquire (found : vfs.files filesp = some files)
    (entry : files.fdArray fd = file) (isOpen : file.status = .opened) :
    fdArrayAcquire filesp fd vfs =
      .ok (.ok (), vfs.setFile filesp files fd { file with openCount := file.openCount + 1 }) := by
  subst entry
  rw [fdArrayAcquire, bind_run (run_getFile found), bind_run (run_assert isOpen)]
  exact run_setFile found

/-- `fd_array_release` of an entry that stays in use. -/
theorem run_fdArrayRelease (found : vfs.files filesp = some files)
    (entry : files.fdArray fd = file) (isOpen : file.status = .opened) (used : 1 < file.openCount) :
    fdArrayRelease filesp fd vfs =
      .ok (.ok (), vfs.setFile filesp files fd { file with openCount := file.openCount - 1 }) := by
  subst entry
  rw [fdArrayRelease, bind_run (run_getFile found), bind_run (run_assert (Or.inl isOpen)),
    bind_run (run_assert (by omega)), bind_run (run_setFile found), if_neg (by omega)]
  rfl

/-- An operation on an open file moves its position and leaves the counts. -/
def Repositions {α : Type} (vfs : VfsState) (filesp : Nat) (files : Files) (fd : Nat) (file : File)
    (P : Except Errno α → Int → SfsFs → Prop) (result : Except Errno α) (after : VfsState) : Prop :=
  ∃ pos, Moves 0 0 (vfs.setFile filesp files fd { file with pos := pos }) after ∧
    P result pos after.sfs

/-- The entry while an operation uses it. -/
def File.acquired (file : File) : File := { file with openCount := 2 }

theorem meets_withFile {α : Type} {operation : File → VfsM α}
    {P : Except Errno α → Int → SfsFs → Prop} (found : vfs.files filesp = some files)
    (entry : files.fdArray fd = file) (isOpen : file.status = .opened) (once : file.openCount = 1)
    (uses : Meets stops (operation file.acquired) (vfs.setFile filesp files fd file.acquired)
      (Repositions (vfs.setFile filesp files fd file.acquired) filesp
        (files.setFile fd file.acquired) fd file.acquired P)) :
    Meets stops (withFile filesp fd operation) vfs (Repositions vfs filesp files fd file P) := by
  have acquired := run_fdArrayAcquire found entry isOpen
  rw [once] at acquired
  apply meets_bind_run acquired
  apply meets_bind_run (run_getFile setFile_found)
  rw [Files.setFile_self]
  apply meets_bind_attempt uses
  rintro result state ⟨pos, moves, holds⟩
  rw [setFile_setFile] at moves
  have released := run_fdArrayRelease moves.found Files.setFile_self isOpen (show 1 < 2 by decide)
  have final := @Moves.setFile _ _ _ _ _ _ _ _ { file with openCount := 1, pos := pos } moves
  have same : { file with openCount := 1, pos := pos } = { file with pos := pos } := by
    rw [← once]
  cases result with
  | error errno =>
      apply meets_bind_run released
      refine meets_fail ⟨pos, ?_, holds⟩
      rw [← same]
      exact final
  | ok value =>
      apply meets_bind_run released
      refine meets_pure ⟨pos, ?_, holds⟩
      rw [← same]
      exact final

/-! ## Transfers and seeks -/

/-- The run of `sfs_io_nolock` behind a transfer. -/
def IoOutcome (sfs : SfsFs) (node : Node) (buf : Bytes) (offset : Int) (len : Nat) (write : Bool)
    (result : Except Errno Moved) (sfs' : SfsFs) : Prop :=
  match node, result with
  | .device _, .ok _ => sfs' = sfs
  | .device _, .error _ => False
  | .sfs ino, .ok moved => ∃ ret out,
      sfsIoNolock ino buf offset len write sfs = .ok (.ok (ret, moved.copied, out), sfs')
  | .sfs ino, .error errno => sfsIoNolock ino buf offset len write sfs = .ok (.error errno, sfs')

/-- The stops of a call that reaches a function of the Simple FS. -/
def StopsIn {α : Type} (program : Nat → SfsM α) (sfs : SfsFs) (node : Node)
    (stops : VfsStop → Prop) : Prop :=
  stops .inodeCheck ∧ ∀ ino reason, node = .sfs ino → program ino sfs = .error reason →
    stops (.sfs reason)

/-- A function of the Simple FS, with the run behind it. -/
theorem meets_lift_run {α : Type} {program : SfsM α} (keeps : KeepsIdentities program)
    (reasons : ∀ reason, program vfs.sfs = .error reason → stops (.sfs reason)) :
    Meets stops (liftSfs program) vfs fun result after =>
      Moves 0 0 vfs after ∧ program vfs.sfs = .ok (result, after.sfs) := by
  have kept := keeps vfs.sfs
  unfold Ensures at kept
  unfold Meets liftSfs
  cases ran : program vfs.sfs with
  | error reason => exact reasons reason ran
  | ok pair =>
      rw [ran] at kept
      exact ⟨Moves.of_same kept, rfl⟩

theorem meets_vopIo {buf : Bytes} {offset : Int} {len : Nat} {write : Bool}
    (present : (if write = true then Vop.vopWrite else .vopRead) ∈ vfs.inOps node)
    (reasons : StopsIn (fun ino => sfsIoNolock ino buf offset len write) vfs.sfs node stops) :
    Meets stops (vopIo node buf offset len write) vfs fun result after =>
      Moves 0 0 vfs after ∧ IoOutcome vfs.sfs node buf offset len write result after.sfs := by
  apply meets_bind_present present reasons.1
  cases node with
  | device device =>
      cases device <;> cases write
      · exact meets_read (meets_modify (meets_pure ⟨Moves.of_kmallocs, rfl⟩))
      · exact meets_pure ⟨Moves.refl, rfl⟩
      · exact meets_pure ⟨Moves.refl, rfl⟩
      · exact meets_pure ⟨Moves.refl, rfl⟩
  | sfs ino =>
      apply meets_bind (meets_lift_run (KeepsViews.ioNolock ino buf offset len write)
        fun reason => reasons.2 ino reason rfl)
      · rintro ⟨ret, alen, out⟩ after ⟨moves, ran⟩
        cases ret with
        | none => exact meets_pure ⟨moves, none, out, ran⟩
        | some errno => exact meets_pure ⟨moves, some errno, out, ran⟩
      · exact fun _ _ post => post

/-- The run of `sfs_tryseek` behind a seek. -/
def SeekOutcome (sfs : SfsFs) (node : Node) (pos : Int) (result : Except Errno Unit)
    (sfs' : SfsFs) : Prop :=
  match node with
  | .device _ => sfs' = sfs ∧ result = .error .inval
  | .sfs ino => sfsTryseek ino pos sfs = .ok (result, sfs')

theorem meets_vopTryseek {pos : Int} (present : .vopTryseek ∈ vfs.inOps node)
    (reasons : StopsIn (fun ino => sfsTryseek ino pos) vfs.sfs node stops) :
    Meets stops (vopTryseek node pos) vfs fun result after =>
      Moves 0 0 vfs after ∧ SeekOutcome vfs.sfs node pos result after.sfs := by
  apply meets_bind_present present reasons.1
  cases node with
  | device device => exact meets_fail ⟨Moves.refl, rfl, rfl⟩
  | sfs ino =>
      exact meets_lift_run (KeepsViews.tryseek ino pos) fun reason => reasons.2 ino reason rfl

/-! ## Calls on open files -/

/-- An open entry of a balanced state. -/
structure OpenEntry (vfs : VfsState) (filesp : Nat) (files : Files) (fd : Nat) (file : File)
    (node : Node) : Prop where
  found : vfs.files filesp = some files
  entry : files.fdArray fd = file
  inside : fd < filesStructNentry
  isOpen : file.status = .opened
  once : file.openCount = 1
  held : file.node = some node
  referenced : 0 < vfs.refCount node
  alive : ∀ device, node = .device device → 1 < vfs.refCount node

theorem Balanced.openEntry (balanced : Balanced lost vfs) (found : vfs.files filesp = some files)
    (inside : fd < filesStructNentry) (isOpen : (files.fdArray fd).status = .opened) :
    ∃ node, OpenEntry vfs filesp files fd (files.fdArray fd) node := by
  have settled := balanced.settled filesp files fd found
  unfold File.Settled at settled
  rw [isOpen] at settled
  obtain ⟨impossible, _⟩ | ⟨_, once, present⟩ := settled
  · cases impossible
  obtain ⟨node, held⟩ := Option.ne_none_iff_exists'.mp present
  have isHeld : (files.fdArray fd).held = some node := by rw [File.held, if_pos isOpen, held]
  obtain ⟨referenced, alive⟩ := balanced.referenced (balanced.created filesp files found) inside
    ((openNode_of_found found).trans isHeld)
  exact ⟨node, found, rfl, inside, isOpen, once, held, referenced, alive⟩

theorem run_fileNode (held : file.node = some node) : fileNode file vfs = .ok (.ok node, vfs) := by
  rw [fileNode, held]
  rfl

/-- A call that starts with `fd2file`. -/
theorem Balanced.meets_bind_fd2file {α : Type} {want : Int} {second : Nat → VfsM α}
    {post : Except Errno α → VfsState → Prop} (balanced : Balanced lost vfs)
    (plain : ∀ stop, Plain stop → stops stop)
    (rest : testfd want → ∀ files node,
      OpenEntry vfs filesp files want.toNat (files.fdArray want.toNat) node →
      Meets stops (second want.toNat) vfs post)
    (fails : ∀ errno, post (.error errno) vfs) :
    Meets stops (fd2file filesp want >>= second) vfs post := by
  apply meets_bind (meets_fd2file plain)
  · rintro fd _ ⟨⟨rfl, opened⟩, isFd⟩
    obtain ⟨rfl, valid⟩ := isFd fd rfl
    obtain ⟨inside, files, found, isOpen⟩ := opened _ rfl
    obtain ⟨node, open'⟩ := balanced.openEntry found inside isOpen
    exact rest valid files node open'
  · rintro errno _ ⟨⟨rfl, _⟩, _⟩
    exact fails errno

/-- What a call on an open file leaves: `P` relates its result to the new position and the state
of the Simple FS. -/
def SlotUsed {α : Type} (vfs : VfsState) (filesp : Nat) (want : Int)
    (P : File → Node → Except Errno α → Int → SfsFs → Prop) (result : Except Errno α)
    (after : VfsState) : Prop :=
  (after = vfs ∧ ∃ errno, result = .error errno) ∨
    ∃ files node, OpenEntry vfs filesp files want.toNat (files.fdArray want.toNat) node ∧
      Repositions vfs filesp files want.toNat (files.fdArray want.toNat)
        (P (files.fdArray want.toNat) node) result after

/-- An operation between `fd_array_acquire` and `fd_array_release` that starts with the node of
the file and does not move. -/
theorem OpenEntry.meets_withFile {α : Type} {operation : File → VfsM α}
    {P : Except Errno α → Int → SfsFs → Prop} (opened : OpenEntry vfs filesp files fd file node)
    (uses : Meets stops (operation file.acquired) (vfs.setFile filesp files fd file.acquired)
      (Repositions (vfs.setFile filesp files fd file.acquired) filesp
        (files.setFile fd file.acquired) fd file.acquired P)) :
    Meets stops (withFile filesp fd operation) vfs (Repositions vfs filesp files fd file P) :=
  Vfs.meets_withFile opened.found opened.entry opened.isOpen opened.once uses

theorem Repositions.still {α : Type} {P : Except Errno α → Int → SfsFs → Prop}
    {result : Except Errno α} (found : vfs.files filesp = some files)
    (entry : files.fdArray fd = file) (moves : Moves 0 0 vfs after)
    (holds : P result file.pos after.sfs) : Repositions vfs filesp files fd file P result after := by
  refine ⟨file.pos, ?_, holds⟩
  change Moves 0 0 (vfs.setFile filesp files fd file) after
  rwa [← entry, setFile_same found]

theorem Repositions.moved {α : Type} {P : Except Errno α → Int → SfsFs → Prop}
    {result : Except Errno α} {pos : Int} (moves : Moves 0 0 vfs after)
    (holds : P result pos after.sfs) :
    Repositions vfs filesp files fd file P result
      (after.setFile filesp files fd { file with pos := pos }) :=
  ⟨pos, moves.setFiles, holds⟩

/-- The transfer of a file, which moves it. -/
theorem meets_transfer {base : Bytes} {len : Nat} {write : Bool}
    (found : vfs.files filesp = some files) (entry : files.fdArray fd = file)
    (isOpen : file.status = .opened)
    (present : (if write = true then Vop.vopWrite else .vopRead) ∈ vfs.inOps node)
    (reasons : StopsIn (fun ino => sfsIoNolock ino base file.pos len write) vfs.sfs node stops) :
    Meets stops (do
      let moved ← vopIo node base file.pos len write
      setPos filesp fd (wrap64 (file.pos + moved.copied))
      pure moved : VfsM Moved) vfs
      (Repositions vfs filesp files fd file fun result pos sfs' =>
        IoOutcome vfs.sfs node base file.pos len write result sfs' ∧
        ∀ moved, result = .ok moved → pos = wrap64 (file.pos + moved.copied)) := by
  apply meets_bind (meets_vopIo present reasons)
  · rintro moved state ⟨moves, outcome⟩
    have here : state.files filesp = some files := by rw [moves.files, found]
    have placed : setPos filesp fd (wrap64 (file.pos + moved.copied)) state =
        .ok (.ok (), state.setFile filesp files fd
          { file with pos := wrap64 (file.pos + moved.copied) }) := by
      subst entry
      rw [setPos, bind_run (run_getFile here), if_pos isOpen]
      exact run_setFile here
    apply meets_bind_run placed
    exact meets_pure (Repositions.moved moves ⟨outcome, by rintro _ ⟨⟩; rfl⟩)
  · rintro errno state ⟨moves, outcome⟩
    exact Repositions.still found entry moves ⟨outcome, fun _ impossible => nomatch impossible⟩

/-- The operation that a call needs is in the table of the inode of an open entry. -/
def SlotFinds (vfs : VfsState) (filesp : Nat) (want : Int) (op : Vop) (reaches : File → Prop) :
    Prop :=
  testfd want → ∀ files node,
    OpenEntry vfs filesp files want.toNat (files.fdArray want.toNat) node →
    reaches (files.fdArray want.toNat) → op ∈ vfs.inOps node

/-- `file_read` and `file_write` -/
theorem Balanced.meets_fileIo {want : Int} {base : Bytes} {len : Nat} {write : Bool}
    (balanced : Balanced lost vfs) (plain : ∀ stop, Plain stop → stops stop)
    (missing : ¬ SlotFinds vfs filesp want (if write = true then Vop.vopWrite else .vopRead)
      (fun file => (if write = true then file.writable else file.readable) = true) →
      stops .missingOperation)
    (reasons : ∀ files node, OpenEntry vfs filesp files want.toNat (files.fdArray want.toNat) node →
      StopsIn (fun ino => sfsIoNolock ino base (files.fdArray want.toNat).pos len write) vfs.sfs node
        stops) :
    Meets stops (fileIo filesp want base len write) vfs
      (SlotUsed vfs filesp want fun file node result pos sfs' =>
        (if write = true then file.writable else file.readable) = true ∧
        IoOutcome vfs.sfs node base file.pos len write result sfs' ∧
        ∀ moved, result = .ok moved → pos = wrap64 (file.pos + moved.copied)) := by
  apply balanced.meets_bind_fd2file plain
  · intro valid files node opened
    apply meets_bind_run (run_getFile opened.found)
    by_cases refused : (if write = true then (files.fdArray want.toNat).writable
        else (files.fdArray want.toNat).readable) = false
    · rw [if_pos refused]
      exact meets_fail (Or.inl ⟨rfl, _, rfl⟩)
    · rw [if_neg refused]
      have permitted := Bool.eq_true_of_not_eq_false refused
      have uses : Meets stops (withFile filesp want.toNat fun file => do
          let node ← fileNode file
          let moved ← vopIo node base file.pos len write
          setPos filesp want.toNat (wrap64 (file.pos + moved.copied))
          pure moved) vfs (Repositions vfs filesp files want.toNat (files.fdArray want.toNat)
            fun result pos sfs' =>
              IoOutcome vfs.sfs node base (files.fdArray want.toNat).pos len write result sfs' ∧
              ∀ moved, result = .ok moved →
                pos = wrap64 ((files.fdArray want.toNat).pos + moved.copied)) := by
        apply opened.meets_withFile
        apply meets_bind_run (run_fileNode opened.held)
        by_cases present : (if write = true then Vop.vopWrite else .vopRead) ∈ vfs.inOps node
        · exact meets_transfer setFile_found Files.setFile_self opened.isOpen present
            (reasons files node opened)
        · have stuck : Meets stops (vopIo node base (files.fdArray want.toNat).pos len write)
              (vfs.setFile filesp files want.toNat (files.fdArray want.toNat).acquired)
              fun _ _ => False :=
            meets_bind_missing present
              (missing fun finds => present (finds valid files node opened permitted))
          exact meets_bind_stuck stuck
      apply uses.weaken fun _ => id
      rintro result after ⟨pos, moves, holds⟩
      exact Or.inr ⟨files, node, opened, pos, moves, permitted, holds⟩
  · exact fun _ => Or.inl ⟨rfl, _, rfl⟩

/-- An operation on an open file that leaves its position. -/
theorem Balanced.meets_inPlace {α : Type} {want : Int} {operation : Node → VfsM α}
    (balanced : Balanced lost vfs) (plain : ∀ stop, Plain stop → stops stop)
    (uses : testfd want → ∀ files node (acquired : VfsState), OpenEntry vfs filesp files want.toNat
      (files.fdArray want.toNat) node → Sound acquired → 0 < acquired.refCount node →
      acquired.inOps node = vfs.inOps node →
      Meets stops (operation node) acquired fun _ after => Moves 0 0 acquired after) :
    Meets stops (do
      let fd ← fd2file filesp want
      withFile filesp fd fun file => do
        let node ← fileNode file
        operation node : VfsM α) vfs
      (SlotUsed vfs filesp want fun file _ _ pos _ => pos = file.pos) := by
  apply balanced.meets_bind_fd2file plain
  · intro valid files node opened
    have used : Meets stops (withFile filesp want.toNat fun file => do
        let node ← fileNode file
        operation node) vfs (Repositions vfs filesp files want.toNat (files.fdArray want.toNat)
          fun _ pos _ => pos = (files.fdArray want.toNat).pos) := by
      apply opened.meets_withFile
      apply meets_bind_run (run_fileNode opened.held)
      have referenced : 0 < VfsState.refCount
          (vfs.setFile filesp files want.toNat (files.fdArray want.toNat).acquired) node := by
        have same := opened.referenced
        cases node <;> exact same
      apply (uses valid files node _ opened balanced.sound.setFile referenced
        (by cases node <;> rfl)).weaken fun _ => id
      exact fun result after moves => Repositions.still setFile_found Files.setFile_self moves rfl
    apply used.weaken fun _ => id
    exact fun result after repositions => Or.inr ⟨files, node, opened, repositions⟩
  · exact fun _ => Or.inl ⟨rfl, _, rfl⟩

theorem Balanced.meets_fileFstat {want : Int} (balanced : Balanced lost vfs)
    (plain : ∀ stop, Plain stop → stops stop) :
    Meets stops (fileFstat filesp want) vfs
      (SlotUsed vfs filesp want fun file _ _ pos _ => pos = file.pos) := by
  apply balanced.meets_inPlace plain
  intro _ files node acquired opened sound referenced _
  apply (meets_vopFstat plain sound referenced).weaken fun _ => id
  rintro result after ⟨rfl, _⟩
  exact Moves.refl

theorem Balanced.meets_fileFsync {want : Int} (balanced : Balanced lost vfs) :
    Meets (fun stop => SlotFinds vfs filesp want .vopFsync (fun _ => True) → NotMissing stop)
      (fileFsync filesp want) vfs
      (SlotUsed vfs filesp want fun file _ _ pos _ => pos = file.pos) := by
  apply balanced.meets_inPlace fun stop plain _ => notMissing_plain stop plain
  intro valid files node acquired opened sound referenced sameOps
  by_cases present : .vopFsync ∈ vfs.inOps node
  · cases node with
    | device device => exact absurd present (by change .vopFsync ∉ devNodeOps; decide)
    | sfs ino =>
        obtain ⟨sin, loaded, _⟩ := loaded_of_refCount referenced
        exact (meets_fsync sound loaded).weaken (fun _ found _ => found) fun _ _ => id
  · exact meets_bind_missing (sameOps ▸ present)
      fun finds => absurd (finds valid files node opened trivial) present

/-- `vop_getdirentry` of a directory. -/
theorem meets_vopGetdirentry {offset : Int} (present : .vopGetdirentry ∈ vfs.inOps node) :
    Meets NotMissing (vopGetdirentry node offset) vfs fun _ after => Moves 0 0 vfs after := by
  apply meets_bind_vopOp present
  cases node with
  | device device => exact absurd present (by change .vopGetdirentry ∉ devNodeOps; decide)
  | sfs ino =>
      apply meets_bind meets_kmalloc _ fun _ _ only => only.moves
      intro _ middle only
      split_ifs
      · exact meets_fail only.moves
      · have keeps : KeepsIdentities (do
            let sin ← getSin ino
            let slot := u32 (offset.toNat / sfsDentrySize)
            if slot > sin.din.blocks then Program.fail .noEnt
            else getdirentrySub ino 0 slot sin.din.blocks : SfsM DiskEntry) :=
          KeepsViews.bind (KeepsViews.lookSin ino) fun _ =>
            KeepsViews.branch (KeepsViews.fails _) (keeps_getdirentrySub _ _ _ _)
        exact (meets_keeps keeps).weaken (fun _ => id) fun _ _ moves => only.moves.zero moves

theorem Balanced.meets_fileGetdirentry {want offset : Int} (balanced : Balanced lost vfs) :
    Meets (fun stop => SlotFinds vfs filesp want .vopGetdirentry (fun _ => True) → NotMissing stop)
      (fileGetdirentry filesp want offset) vfs
      (SlotUsed vfs filesp want fun file _ _ pos _ => pos = file.pos) := by
  apply @Balanced.meets_inPlace _ _ _ _ _ _
    (fun node => do
      let entry ← vopGetdirentry node offset
      pure (entry, wrap64 (offset + sfsDentrySize))) balanced
    fun stop plain _ => notMissing_plain stop plain
  intro valid files node acquired opened sound referenced sameOps
  by_cases present : .vopGetdirentry ∈ vfs.inOps node
  · have reads := @meets_vopGetdirentry acquired node offset (sameOps ▸ present)
    have whole : Meets NotMissing (do
        let entry ← vopGetdirentry node offset
        pure (entry, wrap64 (offset + sfsDentrySize)) : VfsM (DiskEntry × Int)) acquired
        fun _ after => Moves 0 0 acquired after :=
      meets_bind reads (fun _ _ moves => meets_pure moves) fun _ _ moves => moves
    exact whole.weaken (fun _ found _ => found) fun _ _ => id
  · have stuck : Meets (fun stop => SlotFinds vfs filesp want .vopGetdirentry (fun _ => True) →
        NotMissing stop) (vopGetdirentry node offset) acquired fun _ _ => False :=
      meets_bind_missing (sameOps ▸ present)
        fun finds => absurd (finds valid files node opened trivial) present
    exact meets_bind_stuck stuck

/-- The position that a seek asks for. -/
def seeksTo (vfs : VfsState) (file : File) (node : Node) (pos : Int) : Whence → Option Int
  | .set => some pos
  | .cur => some (wrap64 (pos + file.pos))
  | .fromEnd => some (wrap64 (pos + vfs.sizeOf node))
  | .other => none

theorem meets_seekTarget {pos : Int} {whence : Whence} (plain : ∀ stop, Plain stop → stops stop)
    (sound : Sound vfs) (referenced : 0 < vfs.refCount node) :
    Meets stops (seekTarget file node pos whence) vfs fun result after => after = vfs ∧
      ∀ target, result = .ok target → seeksTo vfs file node pos whence = some target := by
  cases whence with
  | set =>
      refine meets_pure ⟨rfl, ?_⟩
      rintro _ ⟨⟩
      rfl
  | cur =>
      refine meets_pure ⟨rfl, ?_⟩
      rintro _ ⟨⟩
      rfl
  | fromEnd =>
      apply meets_bind (meets_vopFstat plain sound referenced)
      · rintro stat _ ⟨rfl, sized⟩
        refine meets_pure ⟨rfl, ?_⟩
        rintro _ ⟨⟩
        rw [seeksTo, sized stat rfl]
      · rintro errno _ ⟨rfl, _⟩
        exact ⟨rfl, fun _ impossible => nomatch impossible⟩
  | other => exact meets_fail ⟨rfl, fun _ impossible => nomatch impossible⟩

/-- What a seek leaves: it is refused before it moves, or `sfs_tryseek` was run. -/
def Sought (vfs : VfsState) (file : File) (node : Node) (pos : Int) (whence : Whence)
    (result : Except Errno Unit) (pos' : Int) (sfs' : SfsFs) : Prop :=
  (∃ errno, result = .error errno) ∧ pos' = file.pos ∧ sfs' = vfs.sfs ∨
    ∃ target, seeksTo vfs file node pos whence = some target ∧
      SeekOutcome vfs.sfs node target result sfs' ∧ (result = .ok () ∧ pos' = target ∨
        (∃ errno, result = .error errno) ∧ pos' = file.pos)

/-- The seek of a file, which moves it. -/
theorem meets_seek {pos : Int} {whence : Whence} (plain : ∀ stop, Plain stop → stops stop)
    (sound : Sound vfs) (referenced : 0 < vfs.refCount node)
    (found : vfs.files filesp = some files) (entry : files.fdArray fd = file)
    (missing : .vopTryseek ∉ vfs.inOps node → whence ≠ .other → stops .missingOperation)
    (reasons : ∀ target, seeksTo vfs file node pos whence = some target →
      StopsIn (fun ino => sfsTryseek ino target) vfs.sfs node stops) :
    Meets stops (do
      let pos ← seekTarget file node pos whence
      vopTryseek node pos
      let file ← getFile filesp fd
      setFile filesp fd { file with pos := pos } : VfsM Unit) vfs
      (Repositions vfs filesp files fd file (Sought vfs file node pos whence)) := by
  apply meets_bind (meets_seekTarget plain sound referenced)
  · rintro target state ⟨rfl, sought⟩
    have isTarget := sought target rfl
    by_cases present : .vopTryseek ∈ state.inOps node
    · apply meets_bind (meets_vopTryseek present (reasons target isTarget))
      · rintro _ state ⟨moves, outcome⟩
        have here : state.files filesp = some files := by rw [moves.files, found]
        apply meets_bind_run (run_getFile here)
        rw [entry]
        apply meets_of_run (run_setFile here)
        exact Repositions.moved moves
          (Or.inr ⟨target, isTarget, outcome, Or.inl ⟨rfl, rfl⟩⟩)
      · rintro errno state ⟨moves, outcome⟩
        exact Repositions.still found entry moves
          (Or.inr ⟨target, isTarget, outcome, Or.inr ⟨⟨errno, rfl⟩, rfl⟩⟩)
    · have valid : whence ≠ .other := by
        rintro rfl
        cases isTarget
      exact meets_bind_stuck (meets_bind_missing present (missing present valid))
  · rintro errno _ ⟨rfl, _⟩
    exact Repositions.still found entry Moves.refl (Or.inl ⟨⟨errno, rfl⟩, rfl, rfl⟩)

theorem Balanced.meets_fileSeek {want pos : Int} {whence : Whence} (balanced : Balanced lost vfs)
    (plain : ∀ stop, Plain stop → stops stop)
    (missing : ¬ SlotFinds vfs filesp want .vopTryseek (fun _ => whence ≠ .other) →
      stops .missingOperation)
    (reasons : ∀ files node target, OpenEntry vfs filesp files want.toNat
      (files.fdArray want.toNat) node →
      seeksTo vfs (files.fdArray want.toNat) node pos whence = some target →
      StopsIn (fun ino => sfsTryseek ino target) vfs.sfs node stops) :
    Meets stops (fileSeek filesp want pos whence) vfs
      (SlotUsed vfs filesp want fun file node => Sought vfs file node pos whence) := by
  apply balanced.meets_bind_fd2file plain
  · intro within files node opened
    have used : Meets stops (withFile filesp want.toNat fun file => do
        let node ← fileNode file
        let pos ← seekTarget file node pos whence
        vopTryseek node pos
        let file ← getFile filesp want.toNat
        setFile filesp want.toNat { file with pos := pos }) vfs
        (Repositions vfs filesp files want.toNat (files.fdArray want.toNat)
          (Sought vfs (files.fdArray want.toNat) node pos whence)) := by
      apply opened.meets_withFile
      apply meets_bind_run (run_fileNode opened.held)
      have referenced : 0 < VfsState.refCount
          (vfs.setFile filesp files want.toNat (files.fdArray want.toNat).acquired) node := by
        have same := opened.referenced
        cases node <;> exact same
      have sought := @meets_seek
        (vfs.setFile filesp files want.toNat (files.fdArray want.toNat).acquired) node filesp
        want.toNat _ _ stops pos whence plain balanced.sound.setFile referenced setFile_found
        Files.setFile_self
        (fun absent valid => missing fun finds => absent (by
          have present := finds within files node opened valid
          cases node <;> exact present))
        (fun target isTarget => reasons files node target opened (by
          cases whence <;> cases node <;> exact isTarget))
      apply sought.weaken fun _ => id
      rintro result after ⟨pos', moves, holds⟩
      refine ⟨pos', moves, ?_⟩
      rcases holds with refused | ⟨target, isTarget, rest⟩
      · exact Or.inl refused
      · refine Or.inr ⟨target, ?_, rest⟩
        cases whence <;> cases node <;> exact isTarget
    apply used.weaken fun _ => id
    exact fun result after repositions => Or.inr ⟨files, node, opened, repositions⟩
  · exact fun _ => Or.inl ⟨rfl, _, rfl⟩

/-! ## Balanced calls -/

/-- A call on one entry that leaves the state balanced. -/
theorem Balanced.closed (balanced : Balanced lost vfs) (found : vfs.files filesp = some files)
    (inside : fd < filesStructNentry) (isOpen : (files.fdArray fd).status = .opened) :
    Meets NotMissing (fdArrayClose filesp fd) vfs fun result after => result = .ok () ∧
      Balanced lost after ∧ after.filesCreated = vfs.filesCreated ∧ after.bootfs = vfs.bootfs ∧
      after.files = (vfs.setFile filesp files fd
        { files.fdArray fd with status := .none, openCount := 0 }).files := by
  have settled := balanced.settled filesp files fd found
  unfold File.Settled at settled
  rw [isOpen] at settled
  obtain ⟨impossible, _⟩ | ⟨_, once, present⟩ := settled
  · cases impossible
  obtain ⟨node, held⟩ := Option.ne_none_iff_exists'.mp present
  have isHeld : (files.fdArray fd).held = some node := by rw [File.held, if_pos isOpen, held]
  obtain ⟨referenced, alive⟩ := balanced.referenced (balanced.created filesp files found) inside
    ((openNode_of_found found).trans isHeld)
  apply (meets_fdArrayClose found rfl isOpen once held balanced.sound alive referenced).weaken
    fun _ => id
  rintro result after ⟨rfl, moves⟩
  have free : File.held { files.fdArray fd with status := .none, openCount := 0 } = none := rfl
  have change : ∀ other, (-just node) other =
      share (isNode other) (File.held { files.fdArray fd with status := .none, openCount := 0 }) -
        share (isNode other) (files.fdArray fd).held := by
    intro other
    rw [free, isHeld, share_isNode, share_isNode, Pi.neg_apply]
    exact (zero_sub _).symm
  refine ⟨rfl, ?_, moves.filesCreated, moves.bootfs, moves.files⟩
  exact balanced.setSlot found inside (Or.inl ⟨rfl, rfl⟩) moves
    (fun other => (change other).trans (add_zero _).symm) change (fun _ => (add_zero _).symm)
    fun _ => le_refl (0 : Int)

end UCore.Vfs
