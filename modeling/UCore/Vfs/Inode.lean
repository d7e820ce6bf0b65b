import UCore.Fs.SfsIo

/-!
Contract: inodes of the virtual file system and the operations on them, `kern/fs/vfs/inode.c`,
`kern/fs/devs` and the operation tables of `kern/fs/sfs/sfs_inode.c`.

Owns:
- the state of the virtual file system over the Simple FS mounted on `disk0`, with the open files
  of the processes;
- the operation tables, and the checks that every call through a table makes;
- reference and open counts, and the operations of devices, directories and files.

The node of `disk0` itself is never handed out, since a file system is mounted on it, and is left
out. A call to `kmalloc` is answered by the state. Locks are taken and released inside each call,
so they are left out; a read of `stdin` delivers what is typed before it is broken off.

Does not own: paths and open files.
-/

set_option autoImplicit false

namespace UCore.Vfs

open UCore.Lib UCore.Fs

inductive Device
  | stdin
  | stdout
deriving DecidableEq, Repr

/-- A `struct inode`, an inode of the Simple FS by its number. -/
inductive Node
  | device (device : Device)
  | sfs (ino : Nat)
deriving DecidableEq, Repr

/-- The entries of an operation table. -/
inductive Vop
  | vopOpen
  | vopClose
  | vopRead
  | vopWrite
  | vopFstat
  | vopFsync
  | vopNamefile
  | vopGetdirentry
  | vopReclaim
  | vopGettype
  | vopTryseek
  | vopTruncate
  | vopCreate
  | vopLookup
  | vopIoctl
deriving DecidableEq, Repr

def devNodeOps : List Vop :=
  [.vopOpen, .vopClose, .vopRead, .vopWrite, .vopFstat, .vopIoctl, .vopGettype, .vopTryseek,
    .vopLookup]

def sfsNodeDirops : List Vop :=
  [.vopOpen, .vopClose, .vopFstat, .vopFsync, .vopNamefile, .vopGetdirentry, .vopReclaim,
    .vopGettype, .vopLookup]

def sfsNodeFileops : List Vop :=
  [.vopOpen, .vopClose, .vopRead, .vopWrite, .vopFstat, .vopFsync, .vopReclaim, .vopGettype,
    .vopTryseek, .vopTruncate]

def maxInodeCount : Nat := 0x10000

/-! The flags of `open`. -/

def oRdonly : Nat := 0

def oWronly : Nat := 1

def oRdwr : Nat := 2

def oCreat : Nat := 0x4

def oExcl : Nat := 0x8

def oTrunc : Nat := 0x10

def oAppend : Nat := 0x20

def oAccmode : Nat := 3

/-- `flags & flag` -/
def hasFlag (flags flag : Nat) : Bool := decide (flags &&& flag ≠ 0)

def accmode (flags : Nat) : Nat := flags &&& oAccmode

/-! ## The state -/

inductive FdStatus
  | none
  | init
  | opened
  | closed
deriving DecidableEq, Repr

/-- `struct file` -/
structure File where
  status : FdStatus
  readable : Bool
  writable : Bool
  pos : Int
  node : Option Node
  openCount : Nat

/-- `struct files_struct` with its array. -/
structure Files where
  pwd : Option Node
  filesCount : Nat
  fdArray : Nat → File

/-- `FILES_STRUCT_NENTRY`: files of 56 bytes in what `struct files_struct` leaves of a page. -/
def filesStructNentry : Nat := 72

/-- The files structures are numbered in the order of their creation; `filesCreated` of them were
made, and a freed one is `none`. -/
structure VfsState where
  sfs : SfsFs
  deviceRefs : Device → Nat
  openCounts : Node → Nat
  bootfs : Option Node
  files : Nat → Option Files
  filesCreated : Nat
  kmallocs : Nat → Bool
  typed : List UInt8

/-- How a call can fail to return: in the Simple FS, at an operation that the table of an inode
lacks, in `inode_check`, or at another assertion or panic. -/
inductive VfsStop
  | sfs (reason : Stop)
  | missingOperation
  | inodeCheck
  | other (reason : Stop)
deriving DecidableEq, Repr

abbrev VfsM : Type → Type := Program VfsState Errno VfsStop

def liftSfs {α : Type} (program : SfsM α) : VfsM α := fun vfs =>
  match program vfs.sfs with
  | .error reason => .error (.sfs reason)
  | .ok (result, after) => .ok (result, { vfs with sfs := after })

def assert (condition : Prop) [Decidable condition] : VfsM Unit :=
  Program.require (.other .assertFailed) condition

/-- The answer of the next call to `kmalloc`. -/
def kmallocAnswer : VfsM Bool := do
  let vfs ← Program.read
  Program.modify fun vfs => { vfs with kmallocs := fun index => vfs.kmallocs (index + 1) }
  pure (vfs.kmallocs 0)

/-- `kmalloc`, or `-E_NO_MEM`. -/
def kmalloc : VfsM Unit := do
  let answer ← kmallocAnswer
  if answer = true then pure () else Program.fail .noMem

namespace VfsState

/-- `inode_ref_count` -/
def refCount (vfs : VfsState) : Node → Nat
  | .device device => vfs.deviceRefs device
  | .sfs ino =>
      match vfs.sfs.inodes ino with
      | none => 0
      | some sin => sin.refCount

/-- `inode_open_count` -/
def openCount (vfs : VfsState) : Node → Nat
  | .device device => vfs.openCounts (.device device)
  | .sfs ino =>
      match vfs.sfs.inodes ino with
      | none => 0
      | some _ => vfs.openCounts (.sfs ino)

/-- The table of an inode in memory: `sfs_get_ops` chose it when the inode was loaded. -/
def inOps (vfs : VfsState) : Node → List Vop
  | .device _ => devNodeOps
  | .sfs ino =>
      match vfs.sfs.inodes ino with
      | none => []
      | some sin => if sin.din.type = sfsTypeDir then sfsNodeDirops else sfsNodeFileops

def setOpenCount (vfs : VfsState) (node : Node) (count : Nat) : VfsState :=
  { vfs with openCounts := Function.update vfs.openCounts node count }

def setFiles (vfs : VfsState) (filesp : Nat) (files : Files) : VfsState :=
  { vfs with files := Function.update vfs.files filesp (some files) }

end VfsState

/-! ## Operations and counts -/

def inodeCheck (node : Node) : VfsM Unit := do
  let vfs ← Program.read
  Program.require .inodeCheck (vfs.refCount node ≥ vfs.openCount node ∧
    vfs.refCount node < maxInodeCount ∧ vfs.openCount node < maxInodeCount)

/-- `__vop_op` -/
def vopOp (node : Node) (op : Vop) : VfsM Unit := do
  let vfs ← Program.read
  Program.require .missingOperation (op ∈ vfs.inOps node)
  inodeCheck node

/-- `sfs_fsync` through the table of the inode. -/
def vopFsync (node : Node) : VfsM Unit := do
  vopOp node .vopFsync
  match node with
  | .device _ => Program.stop .missingOperation
  | .sfs ino => liftSfs (sfsFsync ino)

/-- `dev_close` returns; `sfs_close` syncs the inode. -/
def vopClose (node : Node) : VfsM Unit := do
  vopOp node .vopClose
  match node with
  | .device _ => pure ()
  | .sfs _ => vopFsync node

/-- `sfs_reclaim`, with the checks of the operations that it calls. -/
def sfsReclaimNode (ino : Nat) : VfsM Unit := do
  let sin ← liftSfs (getSin ino)
  if sin.reclaimCount = 1 ∧ sin.refCount = 0 ∧ sin.din.nlinks = 0 then
    vopOp (.sfs ino) .vopTruncate
  else pure ()
  liftSfs (sfsReclaim ino)
  -- `inode_kill`
  let vfs ← Program.read
  assert (vfs.openCounts (.sfs ino) = 0)

def vopReclaim (node : Node) : VfsM Unit := do
  vopOp node .vopReclaim
  match node with
  | .device _ => Program.stop .missingOperation
  | .sfs ino => sfsReclaimNode ino

def setRefCount (node : Node) (count : Nat) : VfsM Unit :=
  match node with
  | .device device => Program.modify fun vfs =>
      { vfs with deviceRefs := Function.update vfs.deviceRefs device count }
  | .sfs ino => liftSfs do
      let sin ← getSin ino
      setSin ino { sin with refCount := count }

def inodeRefInc (node : Node) : VfsM Unit := do
  let vfs ← Program.read
  setRefCount node (vfs.refCount node + 1)

/-- What `vop_reclaim` answers is only reported. -/
def inodeRefDec (node : Node) : VfsM Unit := do
  let vfs ← Program.read
  assert (vfs.refCount node > 0)
  setRefCount node (vfs.refCount node - 1)
  if vfs.refCount node - 1 = 0 then do
    let _ ← Program.attempt (vopReclaim node)
    pure ()
  else pure ()

def inodeOpenInc (node : Node) : VfsM Unit :=
  Program.modify fun vfs => vfs.setOpenCount node (vfs.openCounts node + 1)

/-- What `vop_close` answers is only reported. -/
def inodeOpenDec (node : Node) : VfsM Unit := do
  let vfs ← Program.read
  assert (vfs.openCount node > 0)
  Program.modify fun vfs => vfs.setOpenCount node (vfs.openCounts node - 1)
  if vfs.openCount node - 1 = 0 then do
    let _ ← Program.attempt (vopClose node)
    pure ()
  else pure ()

/-! ## Opening, reading and writing -/

/-- `dev_open`, `sfs_opendir` or `sfs_openfile`. -/
def vopOpen (node : Node) (openFlags : Nat) : VfsM Unit := do
  vopOp node .vopOpen
  match node with
  | .device device =>
      if hasFlag openFlags (oCreat ||| oTrunc ||| oExcl ||| oAppend) = true then
        Program.fail .inval
      else
        match device with
        | .stdin => if openFlags ≠ oRdonly then Program.fail .inval else pure ()
        | .stdout => if openFlags ≠ oWronly then Program.fail .inval else pure ()
  | .sfs ino => do
      let sin ← liftSfs (getSin ino)
      if sin.din.type = sfsTypeDir then
        if accmode openFlags ≠ oRdonly then Program.fail .isDir
        else if hasFlag openFlags oAppend = true then Program.fail .isDir
        else pure ()
      else pure ()

/-- What a transfer returns, the number of bytes it moved and the buffer. A read of `stdin` returns
a positive number. -/
structure Moved where
  ret : Except Errno Nat
  copied : Nat
  buf : Bytes

/-- `sfs_io` -/
def sfsIo (ino : Nat) (buf : Bytes) (offset : Int) (len : Nat) (write : Bool) : VfsM Moved := do
  let (ret, alen, buf) ← liftSfs (sfsIoNolock ino buf offset len write)
  match ret with
  | none => pure ⟨.ok 0, alen, buf⟩
  | some errno => pure ⟨.error errno, alen, buf⟩

/-- `stdin_io` and `stdout_io` -/
def deviceIo (device : Device) (buf : Bytes) (len : Nat) (write : Bool) : VfsM Moved := do
  match device, write with
  | .stdin, false => do
      let vfs ← Program.read
      let characters := vfs.typed.take len
      Program.modify fun vfs => { vfs with typed := vfs.typed.drop len }
      pure ⟨.ok characters.length, characters.length,
        buf.overlay 0 characters.length fun position => characters.getD position 0⟩
  | .stdout, true => pure ⟨.ok 0, len, buf⟩
  | _, _ => pure ⟨.error .inval, 0, buf⟩

def vopIo (node : Node) (buf : Bytes) (offset : Int) (len : Nat) (write : Bool) : VfsM Moved := do
  vopOp node (if write = true then .vopWrite else .vopRead)
  match node with
  | .device device => deviceIo device buf len write
  | .sfs ino => sfsIo ino buf offset len write

/-- The modes of a `struct stat`. -/
inductive Mode
  | regular
  | directory
  | link
  | character
deriving DecidableEq, Repr

/-- `dev_gettype` and `sfs_gettype` -/
def vopGettype (node : Node) : VfsM Mode := do
  vopOp node .vopGettype
  match node with
  | .device _ => pure .character
  | .sfs ino => do
      let sin ← liftSfs (getSin ino)
      if sin.din.type = sfsTypeDir then pure .directory
      else if sin.din.type = sfsTypeFile then pure .regular
      else if sin.din.type = sfsTypeLink then pure .link
      else Program.stop (.other .panicked)

/-- `struct stat` -/
structure Stat where
  mode : Mode
  nlinks : Nat
  blocks : Nat
  size : Nat

/-- `dev_fstat` and `sfs_fstat` -/
def vopFstat (node : Node) : VfsM Stat := do
  vopOp node .vopFstat
  let mode ← vopGettype node
  match node with
  | .device _ => pure ⟨mode, 1, 0, 0⟩
  | .sfs ino => do
      let sin ← liftSfs (getSin ino)
      pure ⟨mode, sin.din.nlinks, sin.din.blocks, sin.din.size⟩

/-- `dev_tryseek` refuses, since neither device has blocks. -/
def vopTryseek (node : Node) (pos : Int) : VfsM Unit := do
  vopOp node .vopTryseek
  match node with
  | .device _ => Program.fail .inval
  | .sfs ino => liftSfs (sfsTryseek ino pos)

def vopTruncate (node : Node) (len : Int) : VfsM Unit := do
  vopOp node .vopTruncate
  match node with
  | .device _ => Program.stop .missingOperation
  | .sfs ino => liftSfs (sfsTruncfile ino len)

end UCore.Vfs
