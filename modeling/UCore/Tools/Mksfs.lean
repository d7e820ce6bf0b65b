import UCore.Fs.Sfs
import UCore.Libs.Hash

/-!
Contract: the builder of Simple FS images, `tools/mksfs.c`.

Owns:
- the image under construction with the inodes and index blocks that are cached until the end;
- `create_sfs`, the functions that add files, links and directories, and `close_sfs`.

A cached inode or block is named by its block number, which no other has. The directory that is
packed is given entry by entry in the order of `readdir`, and the content of a regular file by its
inode number on the host. Calls to the host succeed: where one fails, `mksfs` ends with `bug` and
leaves no image.

Does not own: how the kernel reads the image.
-/

set_option autoImplicit false

namespace UCore.Tools

open UCore.Lib UCore.Fs

/-! ## The data -/

/-- The ways `mksfs` can end without an image. -/
inductive MksfsStop
  | bug
  | assertFailed
deriving DecidableEq, Repr

def sfsMaxNblks : Nat := 1024 * 512

def sfsMaxFnameLen : Nat := 255

def hashListSize : Nat := 1024

/-- `hash32` and, as only the lower 32 bits are used, `hash64`. -/
def hashBucket (value : Nat) : Nat := Libs.hash32 value 10

/-- `struct cache_inode`, whose `struct inode` is `din` and `dbIndirect`. -/
structure CacheInode where
  din : DiskInode
  dbIndirect : Nat
  real : Nat
  nblks : Nat
  l1 : Option Nat
  l2 : Option Nat

/-- `sizeof(struct inode)` -/
def cacheInodeSize : Nat := 68

/-- `struct inode` -/
def CacheInode.toBytes (inode : CacheInode) : Bytes :=
  inode.din.toBytes.overlay diskInodeSize 4 (Bytes.ofNumber inode.dbIndirect)

/-- `struct sfs_fs` with the image file. `inodeList` and `blockList` are all hash lists together,
the newest element first, each element with what it is found by: an inode with the inode number of
the host, a block with the number of its hash list. `entry` is the static variable of
`add_entry`. -/
structure Mksfs where
  blocks : Nat
  unusedBlocks : Nat
  info : Bytes
  ninos : Nat
  nextIno : Nat
  inodes : Nat → Option CacheInode
  inodeList : List (Nat × Nat)
  cacheBlocks : Nat → Option Bytes
  blockList : List (Nat × Nat)
  entry : Bytes
  img : Nat → Bytes

abbrev MksfsM : Type → Type := Program Mksfs Empty MksfsStop

def bug {α : Type} : MksfsM α := Program.stop .bug

def assertThat (condition : Prop) [Decidable condition] : MksfsM Unit :=
  Program.require .assertFailed condition

namespace Mksfs

def setInode (sfs : Mksfs) (ino : Nat) (inode : CacheInode) : Mksfs :=
  { sfs with inodes := Function.update sfs.inodes ino (some inode) }

def setCache (sfs : Mksfs) (ino : Nat) (cache : Bytes) : Mksfs :=
  { sfs with cacheBlocks := Function.update sfs.cacheBlocks ino (some cache) }

def setBlock (sfs : Mksfs) (ino : Nat) (block : Bytes) : Mksfs :=
  { sfs with img := Function.update sfs.img ino block }

end Mksfs

/-! ## Blocks and inodes -/

def sfsAllocIno : MksfsM Nat := do
  let sfs ← Program.read
  if sfs.nextIno < sfs.ninos then do
    Program.modify fun sfs =>
      { sfs with unusedBlocks := sfs.unusedBlocks - 1, nextIno := sfs.nextIno + 1 }
    pure sfs.nextIno
  else bug

/-- `alloc_cache_block`, which is only called for a new block: the hash list is that of the number
0 it is called with. -/
def allocCacheBlock : MksfsM Nat := do
  let ino ← sfsAllocIno
  Program.modify fun sfs =>
    { sfs.setCache ino Bytes.zeros with blockList := (hashBucket 0, ino) :: sfs.blockList }
  pure ino

def searchCacheBlock (ino : Nat) : MksfsM (Option Nat) := do
  let sfs ← Program.read
  if (hashBucket ino, ino) ∈ sfs.blockList then pure (some ino) else pure none

/-- A new inode. Its number is given only for the root. -/
def allocCacheInode (real ino type : Nat) : MksfsM Nat := do
  let ino ← if ino ≠ 0 then pure ino else sfsAllocIno
  Program.modify fun sfs =>
    { sfs.setInode ino ⟨⟨0, type, 0, 0, fun _ => 0, 0⟩, 0, real, 0, none, none⟩ with
      inodeList := (real, ino) :: sfs.inodeList }
  pure ino

def searchCacheInode (real : Nat) : MksfsM (Option Nat) := do
  let sfs ← Program.read
  pure ((sfs.inodeList.find? fun element => element.1 = real).map Prod.snd)

def getInode (ino : Nat) : MksfsM CacheInode := do
  let sfs ← Program.read
  match sfs.inodes ino with
  | none => Program.stop .assertFailed
  | some inode => pure inode

def updateInode (ino : Nat) (change : CacheInode → CacheInode) : MksfsM Unit := do
  let inode ← getInode ino
  Program.modify fun sfs => sfs.setInode ino (change inode)

def getCache (ino : Nat) : MksfsM Bytes := do
  let sfs ← Program.read
  match sfs.cacheBlocks ino with
  | none => Program.stop .assertFailed
  | some cache => pure cache

/-- `data[index] = value` for the words of a cached block. -/
def setWord (ino index value : Nat) : MksfsM Unit := do
  let cache ← getCache ino
  Program.modify fun sfs => sfs.setCache ino (cache.overlay (4 * index) 4 (Bytes.ofNumber value))

def writeBlock (data : Bytes) (len ino : Nat) : MksfsM Unit := do
  let sfs ← Program.read
  assertThat (len ≤ sfsBlksize ∧ ino < sfs.ninos)
  Program.modify fun sfs =>
    sfs.setBlock ino (if len = sfsBlksize then data else Bytes.zeros.overlay 0 len data)

/-- The text that `snprintf` puts in the superblock. -/
def infoText : Bytes := fun position =>
  UInt8.ofNat (("simple file system".toList.map Char.toNat).getD position 0)

/-- `create_sfs` for an image file of `imgSize` bytes with the contents `img`. What `safe_malloc`
returned held `memory`; the rest of the fields are set. -/
def createSfs (imgSize : Nat) (img : Nat → Bytes) (memory entry : Bytes) : MksfsM Unit := do
  let ninos :=
    if u32 (imgSize / sfsBlksize) > sfsMaxNblks then sfsMaxNblks else u32 (imgSize / sfsBlksize)
  let nextIno := sfsBlknFreemap + (ninos + sfsBlkbits - 1) / sfsBlkbits
  if nextIno ≥ ninos then bug
  else do
    Program.modify fun _ =>
      { blocks := ninos, unusedBlocks := ninos - nextIno,
        info := memory.overlay 0 19 infoText, ninos := ninos, nextIno := nextIno, inodes := fun _ => none, inodeList := [],
        cacheBlocks := fun _ => none, blockList := [], entry := entry, img := img }
    let _ ← allocCacheInode 0 sfsBlknRoot sfsTypeDir
    pure ()

/-! ## Appending to files and directories -/

def sfsL1Nblks : Nat := sfsBlkNentry + sfsNdirect

/-- `SFS_LN_NBLKS` -/
def sfsLnNblks : Nat := sfsMaxFileSize / sfsBlksize

/-- The new values of `*cbp` and `*inop`. -/
def updateCache (cb : Option Nat) (ino : Nat) : MksfsM Nat := do
  if ino = 0 then allocCacheBlock
  else if cb = some ino then pure ino
  else do
    let found ← searchCacheBlock ino
    assertThat (found = some ino)
    pure ino

/-- The slot for the next block of a file. -/
def appendSlot (file ino : Nat) : MksfsM Unit := do
  let inode ← getInode file
  if inode.nblks < sfsNdirect then
    updateInode file fun inode =>
      { inode with din := { inode.din with
          direct := Function.update inode.din.direct inode.nblks ino } }
  else if inode.nblks < sfsL1Nblks then do
    let l1 ← updateCache inode.l1 inode.din.indirect
    updateInode file fun inode =>
      { inode with l1 := some l1, din := { inode.din with indirect := l1 } }
    setWord l1 (inode.nblks - sfsNdirect) ino
  else do
    let nblks := inode.nblks - sfsL1Nblks
    let l2 ← updateCache inode.l2 inode.dbIndirect
    updateInode file fun inode => { inode with l2 := some l2, dbIndirect := l2 }
    let data2 ← getCache l2
    let l1 ← updateCache inode.l1 (data2.number (4 * (nblks / sfsBlkNentry)) 4)
    updateInode file fun inode => { inode with l1 := some l1 }
    setWord l2 (nblks / sfsBlkNentry) l1
    setWord l1 (nblks % sfsBlkNentry) ino

def appendBlock (file size ino : Nat) : MksfsM Unit := do
  assertThat (size ≤ sfsBlksize)
  let inode ← getInode file
  if inode.nblks ≥ sfsLnNblks then bug
  else do
    appendSlot file ino
    updateInode file fun inode =>
      { inode with
        nblks := inode.nblks + 1
        din := { inode.din with
          size := u32 (inode.din.size + size), blocks := u32 (inode.din.blocks + 1) } }

/-- `sizeof(entry->name)` -/
def entryNameSize : Nat := 256

/-- `entry->ino = ino, strcpy(entry->name, name)` -/
def fillEntry (entry : Bytes) (ino : Nat) (name : List UInt8) : Bytes :=
  (entry.overlay 0 4 (Bytes.ofNumber ino)).overlay 4 (name.length + 1) fun position =>
    name.getD position 0

def addEntry (current file : Nat) (name : List UInt8) : MksfsM Unit := do
  let inode ← getInode current
  assertThat (inode.din.type = sfsTypeDir ∧ name.length ≤ sfsMaxFnameLen)
  Program.modify fun sfs => { sfs with entry := fillEntry sfs.entry file name }
  let entryIno ← sfsAllocIno
  let sfs ← Program.read
  writeBlock sfs.entry entryNameSize entryIno
  appendBlock current entryNameSize entryIno
  updateInode file fun inode =>
    { inode with din := { inode.din with nlinks := (inode.din.nlinks + 1) % 2 ^ 16 } }

/-! ## The tree -/

/-- The content of a regular file of the host. -/
structure HostFile where
  length : Nat
  bytes : Bytes

/-- The entries of a directory of the host from one on, without `.` and `..`: regular files,
symbolic links with the length and the bytes of their targets, directories, and what is neither. -/
inductive HostDir
  | nil
  | file (name : List UInt8) (real : Nat) (rest : HostDir)
  | link (name : List UInt8) (real length : Nat) (target : Bytes) (rest : HostDir)
  | dir (name : List UInt8) (real : Nat) (inner rest : HostDir)
  | special (name : List UInt8) (rest : HostDir)

/-- `name[0] == '.'` -/
def isHidden (name : List UInt8) : Bool := decide (name.head? = some 46)

/-- The loop of `open_file`: `nblks` more blocks, from the block `index` on. -/
def openFileLoop (file : Nat) (content : HostFile) (index : Nat) : Nat → MksfsM Unit
  | 0 => pure ()
  | nblks + 1 => do
      let ret := min sfsBlksize (content.length - sfsBlksize * index)
      let ino ← sfsAllocIno
      writeBlock (content.bytes.drop (sfsBlksize * index)) ret ino
      appendBlock file ret ino
      openFileLoop file content (index + 1) nblks

/-- `open_file`. Each `read` but the last gives a whole block. -/
def openFile (file : Nat) (content : HostFile) : MksfsM Unit :=
  openFileLoop file content 0 ((content.length + (sfsBlksize - 1)) / sfsBlksize)

def openLink (file length : Nat) (target : Bytes) : MksfsM Unit := do
  let ino ← sfsAllocIno
  let ret := min sfsBlksize length
  if ret = sfsBlksize then bug
  else do
    writeBlock target ret ino
    appendBlock file ret ino

def addFile (files : Nat → HostFile) (current : Nat) (name : List UInt8) (real : Nat) :
    MksfsM Unit := do
  match ← searchCacheInode real with
  | some file => addEntry current file name
  | none => do
      let file ← allocCacheInode real 0 sfsTypeFile
      openFile file (files real)
      addEntry current file name

def addLink (current : Nat) (name : List UInt8) (real length : Nat) (target : Bytes) :
    MksfsM Unit := do
  let file ← allocCacheInode real 0 sfsTypeLink
  openLink file length target
  addEntry current file name

/-- The loop of `open_dir` in the directory `current`. The branch of a directory holds `add_dir`,
with `open_dir` up to its loop. -/
def openDirLoop (files : Nat → HostFile) (current : Nat) : HostDir → MksfsM Unit
  | .nil => pure ()
  | .file name real rest => do
      if isHidden name = true then pure ()
      else if name.length > sfsMaxFnameLen then bug
      else addFile files current name real
      openDirLoop files current rest
  | .link name real length target rest => do
      if isHidden name = true then pure ()
      else if name.length > sfsMaxFnameLen then bug
      else addLink current name real length target
      openDirLoop files current rest
  | .dir name real inner rest => do
      if isHidden name = true then pure ()
      else if name.length > sfsMaxFnameLen then bug
      else do
        let found ← searchCacheInode real
        assertThat (found = none)
        let child ← allocCacheInode real 0 sfsTypeDir
        addEntry child child [46]
        addEntry child current [46, 46]
        openDirLoop files child inner
        addEntry current child name
      openDirLoop files current rest
  | .special name rest => do
      if isHidden name = true then pure ()
      else if name.length > sfsMaxFnameLen then bug
      else pure ()
      openDirLoop files current rest

/-- `open_dir` for the root. -/
def openRoot (files : Nat → HostFile) (home : HostDir) : MksfsM Unit := do
  addEntry sfsBlknRoot sfsBlknRoot [46]
  addEntry sfsBlknRoot sfsBlknRoot [46, 46]
  openDirLoop files sfsBlknRoot home

/-! ## Closing -/

/-- The bits from `start` on, `count` of them, in the words of a block. -/
def setBits (data : Nat → Nat) (start : Nat) : Nat → Nat → Nat
  | 0 => data
  | count + 1 =>
      setBits (Function.update data (start / 32) (data (start / 32) ||| 1 <<< (start % 32)))
        (start + 1) count

/-- The words of a block as bytes. -/
def wordBytes (data : Nat → Nat) : Bytes := fun position =>
  Bytes.ofNumber (data (position / 4)) (position % 4)

/-- The block of the free map from the block `i` of the file system on. -/
def freemapBlock (ninos nextIno i : Nat) : Bytes :=
  if i + sfsBlkbits > nextIno then
    let start := if i < nextIno then nextIno - i else 0
    let last := if i + sfsBlkbits > ninos then ninos - i else sfsBlkbits
    wordBytes (setBits (fun _ => 0) start (last - start))
  else Bytes.zeros

/-- The loop over the free map, for `nblks` more blocks. -/
def writeFreemap (i ino : Nat) : Nat → MksfsM Unit
  | 0 => pure ()
  | nblks + 1 => do
      let sfs ← Program.read
      writeBlock (freemapBlock sfs.ninos sfs.nextIno i) sfsBlksize ino
      writeFreemap (i + sfsBlkbits) (ino + 1) nblks

/-- `struct sfs_super` -/
def superBytes (sfs : Mksfs) : Bytes := fun position =>
  if position < 4 then Bytes.ofNumber 0x2f8dbe2a position
  else if position < 8 then Bytes.ofNumber sfs.blocks (position - 4)
  else if position < 12 then Bytes.ofNumber sfs.unusedBlocks (position - 8)
  else sfs.info (position - 12)

/-- What is written of the hash lists `i`: their blocks, then their inodes. -/
def bucketWrites (sfs : Mksfs) (i : Nat) : List (Bytes × Nat × Nat) :=
  ((sfs.blockList.filter fun element => element.1 = i).filterMap fun element =>
    (sfs.cacheBlocks element.2).map fun cache => (cache, sfsBlksize, element.2)) ++
  (sfs.inodeList.filter fun element => hashBucket element.1 = i).filterMap fun element =>
    (sfs.inodes element.2).map fun inode => (inode.toBytes, cacheInodeSize, element.2)

def flush : List (Bytes × Nat × Nat) → MksfsM Unit
  | [] => pure ()
  | (data, len, ino) :: rest => do
      writeBlock data len ino
      flush rest

/-- `close_sfs` -/
def closeSfs : MksfsM Unit := do
  let sfs ← Program.read
  writeFreemap 0 sfsBlknFreemap ((sfs.ninos + (sfsBlkbits - 1)) / sfsBlkbits)
  writeBlock (superBytes sfs) 44 sfsBlknSuper
  flush ((List.range hashListSize).flatMap (bucketWrites sfs))

/-- `main`: the image of `home` in a file of `imgSize` bytes. -/
def mksfs (imgSize : Nat) (img : Nat → Bytes) (memory entry : Bytes) (files : Nat → HostFile)
    (home : HostDir) : MksfsM Unit := do
  createSfs imgSize img memory entry
  openRoot files home
  closeSfs

end UCore.Tools
