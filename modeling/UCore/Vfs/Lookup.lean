import UCore.Vfs.Inode

/-!
Contract: directories and paths, `sfs_lookup` of `kern/fs/sfs/sfs_inode.c` and `vfslookup.c`,
`vfspath.c`, `vfsfile.c`, `vfsdev.c` and `vfs.c` of `kern/fs/vfs`.

Owns:
- reading the entries of a directory and searching it for a name;
- choosing where the lookup of a path starts, and looking it up;
- opening and closing an inode by path, and the working directory.

A path is the list of its bytes before the final zero. The functions that use the files of the
current process are given them as `filesp`.

Does not own: open files.
-/

set_option autoImplicit false

namespace UCore.Vfs

open UCore.Lib UCore.Fs

abbrev Path := List UInt8

def slash : UInt8 := 47

def colon : UInt8 := 58

def sfsMaxFnameLen : Nat := 255

/-- `sfs_dentry_size` -/
def sfsDentrySize : Nat := sfsMaxFnameLen + 1

/-- `struct sfs_disk_entry` -/
structure DiskEntry where
  ino : Nat
  name : List UInt8

/-- `sizeof(struct sfs_disk_entry)` -/
def diskEntrySize : Nat := 4 + sfsDentrySize

/-- An entry on disk. Its last byte is overwritten by a zero. -/
def DiskEntry.ofBytes (bytes : Bytes) : DiskEntry where
  ino := bytes.number 0 4
  name := ((List.range sfsMaxFnameLen).map fun position => bytes (4 + position)).takeWhile
    fun byte => byte ≠ 0

/-! ## Directories -/

def sfsDirentReadNolock (ino slot : Nat) : SfsM DiskEntry := do
  let sin ← getSin ino
  Fs.assert (sin.din.type = sfsTypeDir ∧ slot < sin.din.blocks)
  let block ← sfsBmapLoadNolock ino slot
  let inuse ← sfsBlockInuse block
  Fs.assert (inuse = true)
  let bytes ← sfsRbuf diskEntrySize block 0
  pure (DiskEntry.ofBytes bytes)

/-- The loop of `sfs_dirent_search_nolock` over `nslots` entries from `slot` on. -/
def direntSearch (ino : Nat) (name : List UInt8) (slot : Nat) : Nat → SfsM Nat
  | 0 => Program.fail .noEnt
  | nslots + 1 => do
      let entry ← sfsDirentReadNolock ino slot
      if entry.ino ≠ 0 ∧ name = entry.name then pure entry.ino
      else direntSearch ino name (slot + 1) nslots

def sfsDirentSearchNolock (ino : Nat) (name : List UInt8) : VfsM Nat := do
  Program.require (.sfs .assertFailed) (name.length ≤ sfsMaxFnameLen)
  kmalloc
  liftSfs do
    let sin ← getSin ino
    direntSearch ino name 0 sin.din.blocks

/-- What `sfs_load_inode` does before it allocates the inode. -/
def sfsReadDin (ino : Nat) : SfsM Unit := do
  let inuse ← sfsBlockInuse ino
  Fs.assert (inuse = true)
  let bytes ← sfsRbuf diskInodeSize ino 0
  Fs.assert ((DiskInode.ofBytes bytes).nlinks ≠ 0)

/-- `sfs_load_inode`, with the allocations that a new inode needs. -/
def loadInode (ino : Nat) : VfsM Unit := do
  let vfs ← Program.read
  match vfs.sfs.inodes ino with
  | some _ => liftSfs (sfsLoadInode ino)
  | none => do
      kmalloc
      let answer ← kmallocAnswer
      if answer = true then do
        liftSfs (sfsLoadInode ino)
        Program.modify fun vfs => vfs.setOpenCount (.sfs ino) 0
      else do
        liftSfs (sfsReadDin ino)
        Program.fail .noMem

def sfsLookupOnce (ino : Nat) (name : List UInt8) : VfsM Node := do
  let found ← sfsDirentSearchNolock ino name
  loadInode found
  pure (.sfs found)

def sfsLookup (ino : Nat) (path : Path) : VfsM Node := do
  Program.require (.sfs .assertFailed) (path ≠ [] ∧ path.head? ≠ some slash)
  inodeRefInc (.sfs ino)
  let sin ← liftSfs (getSin ino)
  if sin.din.type ≠ sfsTypeDir then do
    inodeRefDec (.sfs ino)
    Program.fail .notDir
  else do
    match ← Program.attempt (sfsLookupOnce ino path) with
    | .error ret => do
        inodeRefDec (.sfs ino)
        Program.fail ret
    | .ok subnode => do
        inodeRefDec (.sfs ino)
        pure subnode

/-- `dev_lookup` or `sfs_lookup` -/
def vopLookup (node : Node) (path : Path) : VfsM Node := do
  vopOp node .vopLookup
  match node with
  | .device _ =>
      if path ≠ [] then Program.fail .noEnt
      else do
        inodeRefInc node
        pure node
  | .sfs ino => sfsLookup ino path

/-- The loop of `sfs_getdirentry_sub_nolock` over `nslots` entries from `index` on. -/
def getdirentrySub (ino : Nat) (index slot : Nat) : Nat → SfsM DiskEntry
  | 0 => Program.fail .noEnt
  | nslots + 1 => do
      let entry ← sfsDirentReadNolock ino index
      if entry.ino ≠ 0 then
        if slot = 0 then pure entry
        else getdirentrySub ino (index + 1) (slot - 1) nslots
      else getdirentrySub ino (index + 1) slot nslots

/-- `sfs_getdirentry` into a buffer of `sfs_dentry_size` bytes. -/
def sfsGetdirentry (ino : Nat) (offset : Int) : VfsM DiskEntry := do
  kmalloc
  if offset < 0 ∨ offset % sfsDentrySize ≠ 0 then Program.fail .inval
  else liftSfs do
    let sin ← getSin ino
    let slot := u32 (offset.toNat / sfsDentrySize)
    if slot > sin.din.blocks then Program.fail .noEnt
    else getdirentrySub ino 0 slot sin.din.blocks

def vopGetdirentry (node : Node) (offset : Int) : VfsM DiskEntry := do
  vopOp node .vopGetdirentry
  match node with
  | .device _ => Program.stop .missingOperation
  | .sfs ino => sfsGetdirentry ino offset

/-! ## Where a path starts -/

def getFiles (filesp : Nat) : VfsM Files := do
  let vfs ← Program.read
  match vfs.files filesp with
  | none => Program.stop (.other .panicked)
  | some files => pure files

def vfsGetCurdir (filesp : Nat) : VfsM Node := do
  let files ← getFiles filesp
  match files.pwd with
  | none => Program.fail .noEnt
  | some node => do
      inodeRefInc node
      pure node

def vfsGetBootfs : VfsM Node := do
  let vfs ← Program.read
  match vfs.bootfs with
  | none => Program.fail .noEnt
  | some node => do
      inodeRefInc node
      pure node

def sfsGetRoot : VfsM Node := do
  match ← Program.attempt (loadInode sfsBlknRoot) with
  | .error _ => Program.stop (.other .panicked)
  | .ok () => pure (.sfs sfsBlknRoot)

/-- The names of the devices. -/
def stdinName : Path := [115, 116, 100, 105, 110]

def stdoutName : Path := [115, 116, 100, 111, 117, 116]

def disk0Name : Path := [100, 105, 115, 107, 48]

def vfsGetRoot (devname : Path) : VfsM Node :=
  if devname = disk0Name then sfsGetRoot
  else if devname = stdoutName then do
    inodeRefInc (.device .stdout)
    pure (.device .stdout)
  else if devname = stdinName then do
    inodeRefInc (.device .stdin)
    pure (.device .stdin)
  else Program.fail .noDev

/-- The root of the file system that a node is in: `fsop_get_root(node->in_fs)`. -/
def nodeRoot : Node → VfsM Node
  | .device _ => Program.stop (.other .assertFailed)
  | .sfs _ => sfsGetRoot

/-- What the scan of `get_device` stops at: the bytes before the first colon or slash. -/
def pathHead (path : Path) : Path := path.takeWhile fun byte => byte ≠ colon ∧ byte ≠ slash

def skipSlashes (path : Path) : Path := path.dropWhile fun byte => byte = slash

/-- Where to start, and the rest of the path. -/
def getDevice (filesp : Nat) (path : Path) : VfsM (Node × Path) := do
  let head := pathHead path
  match path.drop head.length with
  | [] => do
      let node ← vfsGetCurdir filesp
      pure (node, path)
  | stopped :: rest =>
      if stopped = slash then
        if head ≠ [] then do
          let node ← vfsGetCurdir filesp
          pure (node, path)
        else do
          let node ← vfsGetBootfs
          pure (node, skipSlashes rest)
      else if head ≠ [] then do
        let node ← vfsGetRoot head
        pure (node, skipSlashes rest)
      else do
        let node ← vfsGetCurdir filesp
        let root ← nodeRoot node
        inodeRefDec node
        pure (root, skipSlashes rest)

def vfsLookup (filesp : Nat) (path : Path) : VfsM Node := do
  let (node, rest) ← getDevice filesp path
  if rest ≠ [] then
    match ← Program.attempt (vopLookup node rest) with
    | .error ret => do
        inodeRefDec node
        Program.fail ret
    | .ok found => do
        inodeRefDec node
        pure found
  else pure node

/-- What `vfs_lookup` leaves of a path: the colon after a device is overwritten by a zero. -/
def lookedUpPath (path : Path) : Path :=
  let head := pathHead path
  if head ≠ [] ∧ (path.drop head.length).head? = some colon then head else path

/-- The directory, and the name in it. -/
def vfsLookupParent (filesp : Nat) (path : Path) : VfsM (Node × Path) := getDevice filesp path

/-! ## The working directory -/

def vfsSetCurdir (filesp : Nat) (dir : Node) : VfsM Unit := do
  let files ← getFiles filesp
  if files.pwd = some dir then pure ()
  else do
    let mode ← vopGettype dir
    if mode ≠ .directory then Program.fail .notDir
    else do
      inodeRefInc dir
      Program.modify fun vfs => vfs.setFiles filesp { files with pwd := some dir }
      match files.pwd with
      | none => pure ()
      | some old => inodeRefDec old

def vfsChdir (filesp : Nat) (path : Path) : VfsM Unit := do
  let node ← vfsLookup filesp path
  match ← Program.attempt (vfsSetCurdir filesp node) with
  | .error ret => do
      inodeRefDec node
      Program.fail ret
  | .ok () => inodeRefDec node

/-- `change_bootfs` -/
def changeBootfs (node : Node) : VfsM Unit := do
  let vfs ← Program.read
  Program.modify fun vfs => { vfs with bootfs := some node }
  match vfs.bootfs with
  | none => pure ()
  | some old => inodeRefDec old

/-- The name has one colon, at its end. -/
def vfsSetBootfs (filesp : Nat) (fsname : Path) : VfsM Unit :=
  if (fsname.dropWhile fun byte => byte ≠ colon) ≠ [colon] then Program.fail .inval
  else do
    vfsChdir filesp fsname
    let node ← vfsGetCurdir filesp
    changeBootfs node

/-! ## Opening and closing -/

/-- The part of `vfs_open` that follows the checks of the flags. No table has `vop_create`. -/
def vfsOpenNode (filesp : Nat) (path : Path) (openFlags : Nat) : VfsM Node := do
  let excl := hasFlag openFlags oExcl
  let create := hasFlag openFlags oCreat
  match ← Program.attempt (vfsLookup filesp path) with
  | .error ret =>
      if ret = .noEnt ∧ create = true then do
        let (dir, _) ← vfsLookupParent filesp (lookedUpPath path)
        vopOp dir .vopCreate
        Program.stop .missingOperation
      else Program.fail ret
  | .ok node =>
      if excl = true ∧ create = true then Program.fail .alreadyExists
      else do
        match ← Program.attempt (vopOpen node openFlags) with
        | .error ret => do
            inodeRefDec node
            Program.fail ret
        | .ok () => do
            inodeOpenInc node
            if hasFlag openFlags oTrunc = true ∨ create = true then do
              match ← Program.attempt (vopTruncate node 0) with
              | .error ret => do
                  inodeOpenDec node
                  inodeRefDec node
                  Program.fail ret
              | .ok () => pure node
            else pure node

def vfsOpen (filesp : Nat) (path : Path) (openFlags : Nat) : VfsM Node :=
  let canWrite := accmode openFlags = oWronly ∨ accmode openFlags = oRdwr
  if ¬ canWrite ∧ accmode openFlags ≠ oRdonly then Program.fail .inval
  else if hasFlag openFlags oTrunc = true ∧ ¬ canWrite then Program.fail .inval
  else vfsOpenNode filesp path openFlags

def vfsClose (node : Node) : VfsM Unit := do
  inodeOpenDec node
  inodeRefDec node

end UCore.Vfs
