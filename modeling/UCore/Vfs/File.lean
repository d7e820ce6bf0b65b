import UCore.Vfs.Lookup

/-!
Contract: the open files of processes, `kern/fs/file.c` and `kern/fs/fs.c`.

Owns:
- the files array: allocating, opening, closing and duplicating its entries;
- the operations on open files;
- creating, duplicating and destroying the files structure of a process.

The field `fd` of a file is its index and never changes, so it is left out. `filesp` is the files
structure of the current process.

Does not own: processes.
-/

set_option autoImplicit false

namespace UCore.Vfs

open UCore.Lib UCore.Fs

/-! ## The files array -/

/-- An entry after `fd_array_init`. The other fields are set before they are used. -/
def File.initial : File where
  status := .none
  readable := false
  writable := false
  pos := 0
  node := none
  openCount := 0

/-- `get_fd_array` -/
def getFdArray (filesp : Nat) : VfsM Files := do
  let files ← getFiles filesp
  assert (files.filesCount > 0)
  pure files

def getFile (filesp fd : Nat) : VfsM File := do
  let files ← getFiles filesp
  pure (files.fdArray fd)

def setFile (filesp fd : Nat) (file : File) : VfsM Unit := do
  let files ← getFiles filesp
  Program.modify fun vfs =>
    vfs.setFiles filesp { files with fdArray := Function.update files.fdArray fd file }

def testfd (fd : Int) : Prop := fd ≥ 0 ∧ fd < filesStructNentry

instance (fd : Int) : Decidable (testfd fd) := inferInstanceAs (Decidable (_ ∧ _))

/-- `NO_FD` -/
def noFd : Int := -0x9527

def fdArrayAlloc (filesp : Nat) (fd : Int) : VfsM Nat := do
  let files ← getFdArray filesp
  let found : Except Errno Nat :=
    if fd = noFd then
      match (List.range filesStructNentry).find? fun fd => (files.fdArray fd).status = .none with
      | none => .error .maxOpen
      | some fd => .ok fd
    else if testfd fd then
      if (files.fdArray fd.toNat).status = .none then .ok fd.toNat else .error .busy
    else .error .inval
  match found with
  | .error ret => Program.fail ret
  | .ok fd => do
      assert ((files.fdArray fd).openCount = 0)
      setFile filesp fd { files.fdArray fd with status := .init, node := none }
      pure fd

def closeNode : Option Node → VfsM Unit
  | none => Program.stop (.other .panicked)
  | some node => vfsClose node

def fdArrayFree (filesp fd : Nat) : VfsM Unit := do
  let file ← getFile filesp fd
  assert (file.status = .init ∨ file.status = .closed)
  assert (file.openCount = 0)
  if file.status = .closed then closeNode file.node else pure ()
  setFile filesp fd { file with status := .none }

def fdArrayAcquire (filesp fd : Nat) : VfsM Unit := do
  let file ← getFile filesp fd
  assert (file.status = .opened)
  setFile filesp fd { file with openCount := file.openCount + 1 }

def fdArrayRelease (filesp fd : Nat) : VfsM Unit := do
  let file ← getFile filesp fd
  assert (file.status = .opened ∨ file.status = .closed)
  assert (file.openCount > 0)
  setFile filesp fd { file with openCount := file.openCount - 1 }
  if file.openCount - 1 = 0 then fdArrayFree filesp fd else pure ()

def fdArrayOpen (filesp fd : Nat) : VfsM Unit := do
  let file ← getFile filesp fd
  assert (file.status = .init ∧ file.node ≠ none)
  setFile filesp fd { file with status := .opened, openCount := file.openCount + 1 }

def fdArrayClose (filesp fd : Nat) : VfsM Unit := do
  let file ← getFile filesp fd
  assert (file.status = .opened)
  assert (file.openCount > 0)
  setFile filesp fd { file with status := .closed, openCount := file.openCount - 1 }
  if file.openCount - 1 = 0 then fdArrayFree filesp fd else pure ()

/-- The node of an open file. -/
def fileNode (file : File) : VfsM Node :=
  match file.node with
  | none => Program.stop (.other .panicked)
  | some node => pure node

/-- Duplicates the file at `fd` of the array of `filesp` into an entry of `target`. -/
def fdArrayDup (target targetFd filesp fd : Nat) : VfsM Unit := do
  let targetFile ← getFile target targetFd
  let file ← getFile filesp fd
  assert (targetFile.status = .init ∧ file.status = .opened)
  let node ← fileNode file
  inodeRefInc node
  inodeOpenInc node
  setFile target targetFd { targetFile with
    pos := file.pos
    readable := file.readable
    writable := file.writable
    node := some node }
  fdArrayOpen target targetFd

def fd2file (filesp : Nat) (fd : Int) : VfsM Nat :=
  if testfd fd then do
    let files ← getFdArray filesp
    if (files.fdArray fd.toNat).status = .opened then pure fd.toNat else Program.fail .inval
  else Program.fail .inval

/-! ## Operations on open files -/

def fileOpen (filesp : Nat) (path : Path) (openFlags : Nat) : VfsM Nat :=
  let mode := accmode openFlags
  if mode ≠ oRdonly ∧ mode ≠ oWronly ∧ mode ≠ oRdwr then Program.fail .inval
  else do
    let fd ← fdArrayAlloc filesp noFd
    match ← Program.attempt (vfsOpen filesp path openFlags) with
    | .error ret => do
        fdArrayFree filesp fd
        Program.fail ret
    | .ok node => do
        let file ← getFile filesp fd
        let opened (pos : Int) : VfsM Nat := do
          setFile filesp fd { file with
            pos := pos
            node := some node
            readable := decide (mode = oRdonly ∨ mode = oRdwr)
            writable := decide (mode = oWronly ∨ mode = oRdwr) }
          fdArrayOpen filesp fd
          pure fd
        if hasFlag openFlags oAppend = true then
          match ← Program.attempt (vopFstat node) with
          | .error ret => do
              vfsClose node
              fdArrayFree filesp fd
              Program.fail ret
          | .ok stat => opened stat.size
        else opened 0

def fileClose (filesp : Nat) (fd : Int) : VfsM Unit := do
  let fd ← fd2file filesp fd
  fdArrayClose filesp fd

/-- Runs an operation on an open file between `fd_array_acquire` and `fd_array_release`. -/
def withFile {α : Type} (filesp fd : Nat) (operation : File → VfsM α) : VfsM α := do
  fdArrayAcquire filesp fd
  let file ← getFile filesp fd
  match ← Program.attempt (operation file) with
  | .error ret => do
      fdArrayRelease filesp fd
      Program.fail ret
  | .ok value => do
      fdArrayRelease filesp fd
      pure value

def setPos (filesp fd : Nat) (pos : Int) : VfsM Unit := do
  let file ← getFile filesp fd
  if file.status = .opened then setFile filesp fd { file with pos := pos } else pure ()

/-- `file_read` and `file_write` -/
def fileIo (filesp : Nat) (fd : Int) (base : Bytes) (len : Nat) (write : Bool) : VfsM Moved := do
  let fd ← fd2file filesp fd
  let file ← getFile filesp fd
  if (if write = true then file.writable else file.readable) = false then Program.fail .inval
  else withFile filesp fd fun file => do
    let node ← fileNode file
    let moved ← vopIo node base file.pos len write
    setPos filesp fd (wrap64 (file.pos + moved.copied))
    pure moved

def fileRead (filesp : Nat) (fd : Int) (base : Bytes) (len : Nat) : VfsM Moved :=
  fileIo filesp fd base len false

def fileWrite (filesp : Nat) (fd : Int) (base : Bytes) (len : Nat) : VfsM Moved :=
  fileIo filesp fd base len true

inductive Whence
  | set
  | cur
  | fromEnd
  | other
deriving DecidableEq, Repr

/-- The position that a seek asks for. -/
def seekTarget (file : File) (node : Node) (pos : Int) : Whence → VfsM Int
  | .set => pure pos
  | .cur => pure (wrap64 (pos + file.pos))
  | .fromEnd => do
      let stat ← vopFstat node
      pure (wrap64 (pos + stat.size))
  | .other => Program.fail .inval

def fileSeek (filesp : Nat) (fd : Int) (pos : Int) (whence : Whence) : VfsM Unit := do
  let fd ← fd2file filesp fd
  withFile filesp fd fun file => do
    let node ← fileNode file
    let pos ← seekTarget file node pos whence
    vopTryseek node pos
    let file ← getFile filesp fd
    setFile filesp fd { file with pos := pos }

def fileFstat (filesp : Nat) (fd : Int) : VfsM Stat := do
  let fd ← fd2file filesp fd
  withFile filesp fd fun file => do
    let node ← fileNode file
    vopFstat node

def fileFsync (filesp : Nat) (fd : Int) : VfsM Unit := do
  let fd ← fd2file filesp fd
  withFile filesp fd fun file => do
    let node ← fileNode file
    vopFsync node

/-- The entry, and the offset after it. -/
def fileGetdirentry (filesp : Nat) (fd : Int) (offset : Int) : VfsM (DiskEntry × Int) := do
  let fd ← fd2file filesp fd
  withFile filesp fd fun file => do
    let node ← fileNode file
    let entry ← vopGetdirentry node offset
    pure (entry, wrap64 (offset + sfsDentrySize))

def fileDup (filesp : Nat) (fd1 fd2 : Int) : VfsM Nat := do
  let fd1 ← fd2file filesp fd1
  let fd2 ← fdArrayAlloc filesp fd2
  fdArrayDup filesp fd2 filesp fd1
  pure fd2

/-! ## Files structures -/

def filesCreate : VfsM Nat := do
  kmalloc
  let vfs ← Program.read
  let filesp := vfs.filesCreated
  Program.modify fun vfs =>
    { vfs.setFiles filesp ⟨none, 0, fun _ => File.initial⟩ with filesCreated := filesp + 1 }
  pure filesp

/-- The loops over the entries of a files array, from entry `fd` on. -/
def eachFile (operation : Nat → VfsM Unit) (fd : Nat) : Nat → VfsM Unit
  | 0 => pure ()
  | left + 1 => do
      operation fd
      eachFile operation (fd + 1) left

def closeOpened (filesp fd : Nat) : VfsM Unit := do
  let file ← getFile filesp fd
  if file.status = .opened then fdArrayClose filesp fd else pure ()

def kfreeFiles (filesp : Nat) : VfsM Unit :=
  Program.modify fun vfs => { vfs with files := Function.update vfs.files filesp none }

def filesDestroy (filesp : Nat) : VfsM Unit := do
  let files ← getFiles filesp
  assert (files.filesCount = 0)
  match files.pwd with
  | none => pure ()
  | some pwd => inodeRefDec pwd
  eachFile (fun fd => do
    closeOpened filesp fd
    let file ← getFile filesp fd
    assert (file.status = .none)) 0 filesStructNentry
  kfreeFiles filesp

/-- Closes all files but `stdin` and `stdout`. -/
def filesCloseall (filesp : Nat) : VfsM Unit := do
  let files ← getFiles filesp
  assert (files.filesCount > 0)
  eachFile (closeOpened filesp) 2 (filesStructNentry - 2)

def dupOpened (target filesp fd : Nat) : VfsM Unit := do
  let file ← getFile filesp fd
  if file.status = .opened then do
    let targetFile ← getFile target fd
    setFile target fd { targetFile with status := .init }
    fdArrayDup target fd filesp fd
  else pure ()

def dupFiles (target filesp : Nat) : VfsM Unit := do
  let targetFiles ← getFiles target
  let files ← getFiles filesp
  assert (targetFiles.filesCount = 0 ∧ files.filesCount > 0)
  Program.modify fun vfs => vfs.setFiles target { targetFiles with pwd := files.pwd }
  match files.pwd with
  | none => pure ()
  | some pwd => inodeRefInc pwd
  eachFile (dupOpened target filesp) 0 filesStructNentry

def filesCountInc (filesp : Nat) : VfsM Unit := do
  let files ← getFiles filesp
  Program.modify fun vfs => vfs.setFiles filesp { files with filesCount := files.filesCount + 1 }

/-- The files structure of a new process: `copy_files`. `dup_files` never fails. -/
def copyFiles (share : Bool) (filesp : Nat) : VfsM Nat := do
  if share = true then do
    filesCountInc filesp
    pure filesp
  else do
    let target ← filesCreate
    dupFiles target filesp
    filesCountInc target
    pure target

def putFiles (filesp : Nat) : VfsM Unit := do
  let files ← getFiles filesp
  Program.modify fun vfs => vfs.setFiles filesp { files with filesCount := files.filesCount - 1 }
  if files.filesCount - 1 = 0 then filesDestroy filesp else pure ()

end UCore.Vfs
