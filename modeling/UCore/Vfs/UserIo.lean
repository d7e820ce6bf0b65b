import UCore.Mm.UserMem
import UCore.Vfs.FileCounts

/-!
Contract: `sysfile_read` and `sysfile_write` of `kern/fs/sysfile.c`, with the memory of the process
that calls them.

Owns:
- the loops over chunks of a buffer, and the answer of a call;
- what `file_read` and `file_write` do to the position of a file;
- the account of a call: position, answer and bytes, and when they agree.

A call writes the memory of its process only through `copy_to_user`, so that it returns what it
writes there, in order. The locks of the `mm` are left out.

Does not own: what the bytes of a file are.
-/

set_option autoImplicit false

namespace UCore.Vfs

open UCore.Lib UCore.Lib.Program UCore.Fs UCore.Mm

/-! ## The system calls -/

/-- `IOBUF_SIZE` -/
def iobufSize : Nat := 4096

/-- A `memcpy` to the memory of the process. -/
structure UserWrite where
  dst : Nat
  len : Nat
  src : Bytes

/-- What a call returns: its `int`, and what it wrote to the memory of the process. -/
abbrev UserAnswer : Type := Except Errno Int × List UserWrite

/-- The way out of both functions: `copied` where it is not 0, and `ret` elsewhere. -/
def sysfileOut (copied : Nat) (ret : Except Errno Nat) : Except Errno Int :=
  if copied ≠ 0 then .ok (wrap32 copied)
  else
    match ret with
    | .ok value => .ok value
    | .error errno => .error errno

/-- `copy_to_user` -/
def copyToUser (mm : Option MmStruct) (dst : Nat) (src : Bytes) (len : Nat) : Option UserWrite :=
  if userMemCheck mm dst len true = true then some ⟨dst, len, src⟩ else none

/-- The loop of `sysfile_read`. Each round but the last moves at least a byte, so that `rounds` of
them are enough for as many bytes. -/
def userReadLoop (mm : Option MmStruct) (filesp : Nat) (fd : Int) (base len copied : Nat) :
    Nat → VfsM UserAnswer
  | 0 => pure (sysfileOut copied (.ok 0), [])
  | rounds + 1 =>
      if len = 0 then pure (sysfileOut copied (.ok 0), [])
      else do
        match ← Program.attempt (fileRead filesp fd Bytes.zeros (min iobufSize len)) with
        | .error ret => pure (sysfileOut copied (.error ret), [])
        | .ok moved =>
            if moved.copied = 0 then pure (sysfileOut copied moved.ret, [])
            else
              match copyToUser mm base moved.buf moved.copied with
              | some write => do
                  assert (len ≥ moved.copied)
                  if moved.ret ≠ .ok 0 then
                    pure (sysfileOut (copied + moved.copied) moved.ret, [write])
                  else do
                    let (ret, writes) ← userReadLoop mm filesp fd (base + moved.copied)
                      (len - moved.copied) (copied + moved.copied) rounds
                    pure (ret, write :: writes)
              | none =>
                  let ret := if moved.ret = .ok 0 then .error .inval else moved.ret
                  pure (sysfileOut copied ret, [])

/-- The loop of `sysfile_write`. -/
def userWriteLoop (mm : Option MmStruct) (memory : Bytes) (filesp : Nat) (fd : Int)
    (base len copied : Nat) : Nat → VfsM (Except Errno Int)
  | 0 => pure (sysfileOut copied (.ok 0))
  | rounds + 1 =>
      if len = 0 then pure (sysfileOut copied (.ok 0))
      else if userMemCheck mm base (min iobufSize len) false = false then
        pure (sysfileOut copied (.error .inval))
      else do
        match ← Program.attempt (fileWrite filesp fd (memory.drop base) (min iobufSize len)) with
        | .error ret => pure (sysfileOut copied (.error ret))
        | .ok moved =>
            if moved.copied = 0 then pure (sysfileOut copied moved.ret)
            else do
              assert (len ≥ moved.copied)
              if moved.ret ≠ .ok 0 then pure (sysfileOut (copied + moved.copied) moved.ret)
              else
                userWriteLoop mm memory filesp fd (base + moved.copied) (len - moved.copied)
                  (copied + moved.copied) rounds

/-- `file_testfd` -/
def fileTestfd (filesp : Nat) (fd : Int) (readable writable : Bool) : VfsM Bool := do
  match ← Program.attempt (fd2file filesp fd) with
  | .error _ => pure false
  | .ok fd => do
      let file ← getFile filesp fd
      if readable = true ∧ file.readable = false then pure false
      else if writable = true ∧ file.writable = false then pure false
      else pure true

/-- `sysfile_read` -/
def userRead (mm : Option MmStruct) (filesp : Nat) (fd : Int) (base len : Nat) :
    VfsM UserAnswer := do
  if len = 0 then pure (.ok 0, [])
  else do
    let permitted ← fileTestfd filesp fd true false
    if permitted = false then pure (.error .inval, [])
    else do
      let answer ← kmallocAnswer
      if answer = false then pure (.error .noMem, [])
      else userReadLoop mm filesp fd base len 0 len

/-- `sysfile_write` -/
def userWrite (mm : Option MmStruct) (memory : Bytes) (filesp : Nat) (fd : Int) (base len : Nat) :
    VfsM (Except Errno Int) := do
  if len = 0 then pure (.ok 0)
  else do
    let permitted ← fileTestfd filesp fd false true
    if permitted = false then pure (.error .inval)
    else do
      let answer ← kmallocAnswer
      if answer = false then pure (.error .noMem)
      else userWriteLoop mm memory filesp fd base len 0 len

/-! ## What `file_read` and `file_write` do -/

variable {vfs after : VfsState} {filesp len : Nat} {fd : Int} {base : Bytes} {write : Bool}
  {node : Node} {files : Files}

theorem answers_liftSfs {α : Type} {program : SfsM α} {P : α → Prop}
    (answers : Answers program P) : Answers (liftSfs program) P := by
  constructor
  intro vfs value after ran
  unfold liftSfs at ran
  cases ran' : program vfs.sfs with
  | error reason =>
      rw [ran'] at ran
      cases ran
  | ok pair =>
      obtain ⟨result, middle⟩ := pair
      rw [ran'] at ran
      simp only [Except.ok.injEq, Prod.mk.injEq] at ran
      obtain ⟨rfl, _⟩ := ran
      exact answers.of_run _ _ _ ran'

theorem ensures_liftSfs {α : Type} {program : SfsM α} {post : Except Errno α → SfsFs → Prop}
    (ensures : Ensures True program vfs.sfs post) :
    Ensures True (liftSfs program) vfs fun result after => post result after.sfs := by
  unfold Ensures liftSfs at *
  cases ran : program vfs.sfs with
  | error reason => trivial
  | ok pair =>
      rw [ran] at ensures
      exact ensures

theorem ensures_vopOp {op : Vop} :
    Ensures True (vopOp node op) vfs fun result after => result = .ok () ∧ after = vfs := by
  apply ensures_read
  apply ensures_require (fun _ => ?_) fun _ => trivial
  apply ensures_read
  by_cases sound : vfs.refCount node ≥ vfs.openCount node ∧ vfs.refCount node < maxInodeCount ∧
      vfs.openCount node < maxInodeCount
  · have passed : inodeCheck node vfs = .ok (.ok (), vfs) := if_pos sound
    exact ensures_of_run passed ⟨rfl, rfl⟩
  · have stopped : inodeCheck node vfs = .error .inodeCheck := if_neg sound
    exact ensures_of_stop stopped trivial

/-- A transfer on an inode of the Simple FS. -/
theorem ensures_vopIo_sfs {ino : Nat} {offset : Int}
    {post : Except Errno (Option Errno × Nat × Bytes) → SfsFs → Prop}
    (io : Ensures True (sfsIoNolock ino base offset len write) vfs.sfs post) :
    Ensures True (vopIo (.sfs ino) base offset len write) vfs fun result after =>
      match result with
      | .ok moved => ∃ ret, post (.ok (ret, moved.copied, moved.buf)) after.sfs
      | .error errno => post (.error errno) after.sfs := by
  unfold vopIo
  apply ensures_bind ensures_vopOp
  · rintro _ _ ⟨_, rfl⟩
    apply ensures_bind (ensures_liftSfs io)
    · rintro ⟨ret, alen, now⟩ middle outcome
      cases ret with
      | none => exact ensures_pure ⟨none, outcome⟩
      | some errno => exact ensures_pure ⟨some errno, outcome⟩
    · exact fun errno middle outcome => outcome
  · rintro _ _ ⟨impossible, _⟩
    cases impossible

/-- A transfer moves no more bytes than it is asked for, and answers 0 or their number unless there
was an error. -/
theorem answers_vopIo {offset : Int} :
    Answers (vopIo node base offset len write) fun moved =>
      moved.copied ≤ len ∧ ∀ value, moved.ret = .ok value → value = 0 ∨ value = moved.copied := by
  have zero : ∀ copied value : Nat, (Except.ok 0 : Except Errno Nat) = .ok value →
      value = 0 ∨ value = copied := by
    rintro _ _ ⟨⟩
    exact Or.inl rfl
  apply answers_then
  intro _
  cases node with
  | device device =>
      cases device <;> cases write
      · apply answers_then
        intro vfs
        apply answers_then
        intro _
        refine answers_pure ⟨by simp only [List.length_take]; omega, ?_⟩
        rintro _ ⟨⟩
        exact Or.inr rfl
      · exact answers_pure ⟨Nat.zero_le _, nofun⟩
      · exact answers_pure ⟨Nat.zero_le _, nofun⟩
      · exact answers_pure ⟨le_rfl, zero _⟩
  | sfs ino =>
      apply answers_bind (answers_liftSfs answers_sfsIoNolock)
      rintro ⟨ret, alen, buf⟩ bounded
      cases ret with
      | none => exact answers_pure ⟨bounded, zero _⟩
      | some errno => exact answers_pure ⟨bounded, nofun⟩

theorem ensures_getFiles {α : Type} {second : Files → VfsM α}
    {post : Except Errno α → VfsState → Prop}
    (rest : ∀ files, vfs.files filesp = some files → Ensures True (second files) vfs post) :
    Ensures True (getFiles filesp >>= second) vfs post := by
  cases found : vfs.files filesp with
  | some files => exact ensures_bind_run (run_getFiles found) (rest files found)
  | none =>
      have stopped : getFiles filesp vfs = .error (.other .panicked) := by
        simp only [getFiles, Bind.bind, Program.bind, Program.read, found]
        rfl
      exact ensures_bind_stop stopped trivial

/-- What `fd2file` answers: an entry that is open. -/
def Finds (vfs : VfsState) (filesp : Nat) (fd : Int) (result : Except Errno Nat)
    (after : VfsState) : Prop :=
  after = vfs ∧ ∀ index, result = .ok index → index = fd.toNat ∧
    ∃ files, vfs.files filesp = some files ∧ (files.fdArray index).status = .opened

theorem ensures_fd2file : Ensures True (fd2file filesp fd) vfs (Finds vfs filesp fd) := by
  unfold fd2file
  by_cases valid : testfd fd
  · rw [if_pos valid]
    have array : Ensures True (getFdArray filesp) vfs fun result after =>
        after = vfs ∧ ∀ files, result = .ok files → vfs.files filesp = some files := by
      apply ensures_getFiles
      intro files found
      apply ensures_require (fun _ => ?_) fun _ => trivial
      exact ensures_pure ⟨rfl, by rintro _ ⟨⟩; exact found⟩
    apply ensures_bind array
    · rintro files _ ⟨rfl, found⟩
      by_cases isOpen : (files.fdArray fd.toNat).status = .opened
      · rw [if_pos isOpen]
        refine ensures_pure ⟨rfl, ?_⟩
        rintro _ ⟨⟩
        exact ⟨rfl, files, found files rfl, isOpen⟩
      · rw [if_neg isOpen]
        exact ensures_fail ⟨rfl, nofun⟩
    · rintro errno _ ⟨rfl, _⟩
      exact ⟨rfl, nofun⟩
  · rw [if_neg valid]
    exact ensures_fail ⟨rfl, nofun⟩

/-- The entry while an operation uses it. -/
def File.used (file : File) : File := { file with openCount := file.openCount + 1 }

/-- The end of an operation on an open file. -/
theorem ensures_fdArrayRelease {index : Nat} {file : File} (found : vfs.files filesp = some files)
    (entry : files.fdArray index = file.used) (isOpen : file.status = .opened) :
    Ensures True (fdArrayRelease filesp index) vfs fun result after =>
      result = .ok () ∧ after = vfs.setFile filesp files index file := by
  have status : file.used.status = .opened := isOpen
  apply ensures_bind_run (run_getFile found)
  rw [entry]
  apply ensures_require (fun _ => ?_) fun _ => trivial
  apply ensures_require (fun _ => ?_) fun _ => trivial
  have back : { file.used with openCount := file.used.openCount - 1 } = file := rfl
  rw [back]
  apply ensures_bind_run (run_setFile found)
  by_cases last : file.used.openCount - 1 = 0
  · rw [if_pos last]
    apply ensures_bind_run (run_getFile setFile_found)
    apply ensures_require (fun closed => ?_) fun _ => trivial
    rw [Files.setFile_self, isOpen] at closed
    rcases closed with closed | closed <;> cases closed
  · rw [if_neg last]
    exact ensures_pure ⟨rfl, rfl⟩

/-- What a transfer on an open file leaves: the node moved bytes, and the position of the file with
them. -/
def FileMoved (vfs : VfsState) (filesp : Nat) (fd : Int) (base : Bytes) (len : Nat) (write : Bool)
    (result : Except Errno Moved) (after : VfsState) : Prop :=
  (after = vfs ∧ ∃ errno, result = .error errno) ∨
    ∃ files node middle pos, vfs.files filesp = some files ∧
      (files.fdArray fd.toNat).node = some node ∧
      vopIo node base (files.fdArray fd.toNat).pos len write
          (vfs.setFile filesp files fd.toNat (files.fdArray fd.toNat).used) =
        .ok (result, middle) ∧
      after = middle.setFile filesp files fd.toNat { files.fdArray fd.toNat with pos := pos } ∧
      match result with
      | .ok moved => pos = wrap64 ((files.fdArray fd.toNat).pos + moved.copied)
      | .error _ => pos = (files.fdArray fd.toNat).pos

theorem vopIo_files {offset : Int} {result : Except Errno Moved}
    (ran : vopIo node base offset len write vfs = .ok (result, after)) : after.files = vfs.files := by
  have any : StopsIn (fun ino => sfsIoNolock ino base offset len write) vfs.sfs node
      fun _ => True := ⟨trivial, fun _ _ _ _ => trivial⟩
  by_cases present : (if write = true then Vop.vopWrite else .vopRead) ∈ vfs.inOps node
  · exact ((meets_vopIo present any).of_ok ran).1.files
  · have missing : Meets (fun _ => True) (vopIo node base offset len write) vfs
        fun _ _ => False := meets_bind_missing present trivial
    exact (missing.of_ok ran).elim

/-- The transfer itself, between `fd_array_acquire` and `fd_array_release`. -/
theorem ensures_transfer {index : Nat} {file : File} (found : vfs.files filesp = some files)
    (entry : files.fdArray index = file) (isOpen : file.status = .opened) :
    Ensures True (do
      let node ← fileNode file
      let moved ← vopIo node base file.pos len write
      setPos filesp index (wrap64 (file.pos + moved.copied))
      pure moved : VfsM Moved) vfs fun result after =>
      ∃ node middle pos, file.node = some node ∧
        vopIo node base file.pos len write vfs = .ok (result, middle) ∧
        middle.files filesp = some files ∧
        after = middle.setFile filesp files index { file with pos := pos } ∧
        match result with
        | .ok moved => pos = wrap64 (file.pos + moved.copied)
        | .error _ => pos = file.pos := by
  by_cases none : file.node = none
  · have stopped : fileNode file vfs = .error (.other .panicked) := by
      rw [fileNode, none]
      rfl
    exact ensures_bind_stop stopped trivial
  obtain ⟨node, held⟩ := Option.ne_none_iff_exists'.mp none
  have isNode : fileNode file vfs = .ok (.ok node, vfs) := by
    rw [fileNode, held]
    rfl
  apply ensures_bind_run isNode
  cases ran : vopIo node base file.pos len write vfs with
  | error reason => exact ensures_bind_stop ran trivial
  | ok pair =>
      obtain ⟨result, middle⟩ := pair
      have here : middle.files filesp = some files := by rw [vopIo_files ran, found]
      subst entry
      cases result with
      | error errno =>
          apply @ensures_of_run _ _ _ _ _ _ _ _ (.error errno) middle
          · simp only [Bind.bind, Program.bind, ran]
          · exact ⟨node, middle, _, held, ran, here, (setFile_same here).symm, rfl⟩
      | ok moved =>
          have placed : setPos filesp index
              (wrap64 ((files.fdArray index).pos + moved.copied)) middle =
              .ok (.ok (), middle.setFile filesp files index { files.fdArray index with
                pos := wrap64 ((files.fdArray index).pos + moved.copied) }) := by
            rw [setPos, bind_run (run_getFile here), if_pos isOpen]
            exact run_setFile here
          apply ensures_bind_run ran
          apply ensures_bind_run placed
          exact ensures_pure ⟨node, middle, _, held, ran, here, rfl, rfl⟩

/-- An operation on an open file between `fd_array_acquire` and `fd_array_release`, that may move the
position of the file. -/
theorem ensures_withFile {α : Type} {operation : File → VfsM α} {index : Nat} {file : File}
    {outcome : Except Errno α → Int → VfsState → Prop} (found : vfs.files filesp = some files)
    (entry : files.fdArray index = file) (isOpen : file.status = .opened)
    (runs : Ensures True (operation file.used) (vfs.setFile filesp files index file.used)
      fun result after => ∃ middle pos,
        after = middle.setFile filesp (files.setFile index file.used) index
          { file.used with pos := pos } ∧
        outcome result pos middle) :
    Ensures True (withFile filesp index operation) vfs fun result after =>
      ∃ middle pos, after = middle.setFile filesp files index { file with pos := pos } ∧
        outcome result pos middle := by
  have acquired : fdArrayAcquire filesp index vfs =
      .ok (.ok (), vfs.setFile filesp files index file.used) := by
    subst entry
    rw [fdArrayAcquire, bind_run (run_getFile found), bind_run (run_assert isOpen)]
    exact run_setFile found
  have still : (files.setFile index file.used).fdArray index = file.used := Files.setFile_self
  apply ensures_bind_run acquired
  apply ensures_bind_run (run_getFile setFile_found)
  rw [still]
  apply ensures_bind_attempt runs
  rintro result state ⟨middle, pos, rfl, holds⟩
  have once : ∀ entry entry' : File, (middle.setFile filesp (files.setFile index entry) index
      entry').setFile filesp ((files.setFile index entry).setFile index entry') index
      { file with pos := pos } = middle.setFile filesp files index { file with pos := pos } := by
    intro entry entry'
    simp only [VfsState.setFile, VfsState.setFiles, Files.setFile, Function.update_idem]
  have released := @ensures_fdArrayRelease
    (middle.setFile filesp (files.setFile index file.used) index { file.used with pos := pos })
    filesp _ index { file with pos := pos } setFile_found Files.setFile_self isOpen
  rw [once] at released
  cases result with
  | error errno =>
      apply ensures_bind released
      · rintro _ _ ⟨_, rfl⟩
        exact ensures_fail ⟨middle, pos, rfl, holds⟩
      · rintro _ _ ⟨impossible, _⟩
        cases impossible
  | ok value =>
      apply ensures_bind released
      · rintro _ _ ⟨_, rfl⟩
        exact ensures_pure ⟨middle, pos, rfl, holds⟩
      · rintro _ _ ⟨impossible, _⟩
        cases impossible

theorem ensures_fileIo : Ensures True (fileIo filesp fd base len write) vfs
    (FileMoved vfs filesp fd base len write) := by
  apply ensures_bind ensures_fd2file
  · rintro index state ⟨same, isIndex⟩
    obtain ⟨rfl, files, found, isOpen⟩ := isIndex index rfl
    rw [same]
    apply ensures_bind_run (run_getFile found)
    by_cases refused : (if write = true then (files.fdArray fd.toNat).writable
        else (files.fdArray fd.toNat).readable) = false
    · rw [if_pos refused]
      exact ensures_fail (Or.inl ⟨rfl, _, rfl⟩)
    rw [if_neg refused]
    refine Ensures.weaken (@ensures_withFile vfs filesp files Moved _ fd.toNat _
      (fun result pos middle => ∃ node, (files.fdArray fd.toNat).node = some node ∧
        vopIo node base (files.fdArray fd.toNat).pos len write
          (vfs.setFile filesp files fd.toNat (files.fdArray fd.toNat).used) = .ok (result, middle) ∧
        match result with
        | .ok moved => pos = wrap64 ((files.fdArray fd.toNat).pos + moved.copied)
        | .error _ => pos = (files.fdArray fd.toNat).pos) found rfl isOpen ?_) (fun _ => trivial) ?_
    · apply (@ensures_transfer _ filesp len base write _ fd.toNat (files.fdArray fd.toNat).used
        setFile_found Files.setFile_self isOpen).weaken fun _ => trivial
      rintro result after ⟨node, middle, pos, held, ran, _, isAfter, moves⟩
      exact ⟨middle, pos, isAfter, node, held, ran, moves⟩
    · rintro result after ⟨middle, pos, isAfter, node, held, ran, outcome⟩
      exact Or.inr ⟨files, node, middle, pos, found, held, ran, isAfter, outcome⟩
  · rintro errno _ ⟨rfl, _⟩
    exact Or.inl ⟨rfl, errno, rfl⟩

end UCore.Vfs
