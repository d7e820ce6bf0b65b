import Mathlib.Logic.Function.Basic
import UCore.Lib.Bytes
import UCore.Lib.Program
import UCore.Machine

/-!
Contract: the data of the Simple FS and its block I/O, `kern/fs/sfs/sfs.h`, `sfs_io.c` and
`bitmap.c`.

Owns:
- the in-memory state of a mounted file system over its disk, and the layout of an inode on disk;
- reading and writing blocks and parts of blocks through the disk device;
- the free map and its operations.

A free bit is a `true` of the free map. The block number given to the device is the byte offset
of the block, a product of `uint32_t`, divided again by the block size. Locks are taken and
released inside each call and no call waits, so they are left out.

Does not own: inodes and their block maps.
-/

set_option autoImplicit false

namespace UCore.Fs

open UCore.Lib

def sfsBlksize : Nat := 4096

def sfsNdirect : Nat := 12

/-- The number of entries of an indirect block. -/
def sfsBlkNentry : Nat := 1024

def sfsMaxFileSize : Nat := 1024 * 1024 * 128

def sfsBlknSuper : Nat := 0

def sfsBlknRoot : Nat := 1

def sfsBlknFreemap : Nat := 2

/-- The number of bits of a block of the free map. -/
def sfsBlkbits : Nat := 32768

def sfsTypeFile : Nat := 1

def sfsTypeDir : Nat := 2

def sfsTypeLink : Nat := 3

/-- The error codes that the functions of the file system return. -/
inductive Errno
  | inval
  | noMem
  | noEnt
  | busy
  | noDev
  | isDir
  | notDir
  | maxOpen
  | alreadyExists
deriving DecidableEq, Repr

/-- `struct sfs_disk_inode` -/
structure DiskInode where
  size : Nat
  type : Nat
  nlinks : Nat
  blocks : Nat
  direct : Nat → Nat
  indirect : Nat

/-- `sizeof(struct sfs_disk_inode)` -/
def diskInodeSize : Nat := 64

namespace DiskInode

def toBytes (din : DiskInode) : Bytes := fun position =>
  if position < 4 then Bytes.ofNumber din.size position
  else if position < 6 then Bytes.ofNumber din.type (position - 4)
  else if position < 8 then Bytes.ofNumber din.nlinks (position - 6)
  else if position < 12 then Bytes.ofNumber din.blocks (position - 8)
  else if position < 60 then
    Bytes.ofNumber (din.direct ((position - 12) / 4)) ((position - 12) % 4)
  else Bytes.ofNumber din.indirect (position - 60)

def ofBytes (bytes : Bytes) : DiskInode where
  size := bytes.number 0 4
  type := bytes.number 4 2
  nlinks := bytes.number 6 2
  blocks := bytes.number 8 4
  direct := fun index => bytes.number (12 + 4 * index) 4
  indirect := bytes.number 60 4

/-! Reading back an inode that was written to its block. -/

section Stored

variable {din : DiskInode} {block : Bytes}

theorem stored_number {offset width value : Nat} (inside : offset + width ≤ diskInodeSize)
    (bytes : ∀ position, position < width →
      din.toBytes (offset + position) = UInt8.ofNat (value / 256 ^ position)) :
    (block.overlay 0 diskInodeSize din.toBytes).number offset width = value % 256 ^ width := by
  apply Bytes.number_of_bytes
  intro position low
  rw [Bytes.overlay_inside (Nat.zero_le _) (by omega), Nat.sub_zero]
  exact bytes position low

theorem stored_size :
    (ofBytes (block.overlay 0 diskInodeSize din.toBytes)).size = din.size % 2 ^ 32 := by
  apply @stored_number din block 0 4 din.size (by decide)
  intro position low
  rw [Nat.zero_add, toBytes, if_pos low]
  rfl

theorem stored_type :
    (ofBytes (block.overlay 0 diskInodeSize din.toBytes)).type = din.type % 2 ^ 16 := by
  apply @stored_number din block 4 2 din.type (by decide)
  intro position low
  rw [toBytes, if_neg (by omega), if_pos (by omega), Nat.add_sub_cancel_left]
  rfl

theorem stored_nlinks :
    (ofBytes (block.overlay 0 diskInodeSize din.toBytes)).nlinks = din.nlinks % 2 ^ 16 := by
  apply @stored_number din block 6 2 din.nlinks (by decide)
  intro position low
  rw [toBytes, if_neg (by omega), if_neg (by omega), if_pos (by omega), Nat.add_sub_cancel_left]
  rfl

theorem stored_blocks :
    (ofBytes (block.overlay 0 diskInodeSize din.toBytes)).blocks = din.blocks % 2 ^ 32 := by
  apply @stored_number din block 8 4 din.blocks (by decide)
  intro position low
  rw [toBytes, if_neg (by omega), if_neg (by omega), if_neg (by omega), if_pos (by omega),
    Nat.add_sub_cancel_left]
  rfl

theorem stored_direct {index : Nat} (inside : index < sfsNdirect) :
    (ofBytes (block.overlay 0 diskInodeSize din.toBytes)).direct index =
      din.direct index % 2 ^ 32 := by
  unfold sfsNdirect at inside
  apply @stored_number din block (12 + 4 * index) 4 (din.direct index)
    (by unfold diskInodeSize; omega)
  intro position low
  have slot : (12 + 4 * index + position - 12) / 4 = index := by omega
  have byte : (12 + 4 * index + position - 12) % 4 = position := by omega
  rw [toBytes, if_neg (by omega), if_neg (by omega), if_neg (by omega), if_neg (by omega),
    if_pos (by omega), slot, byte]
  rfl

theorem stored_indirect :
    (ofBytes (block.overlay 0 diskInodeSize din.toBytes)).indirect = din.indirect % 2 ^ 32 := by
  apply @stored_number din block 60 4 din.indirect (by decide)
  intro position low
  rw [toBytes, if_neg (by omega), if_neg (by omega), if_neg (by omega), if_neg (by omega),
    if_neg (by omega), Nat.add_sub_cancel_left]
  rfl

end Stored

end DiskInode

/-- `struct sfs_inode`, with the reference count of its `struct inode`. -/
structure SfsInode where
  din : DiskInode
  dirty : Bool
  reclaimCount : Nat
  refCount : Nat

/-- `struct sfs_fs` with the device it is mounted on. The inodes in memory are found by number, as
through the hash list. -/
structure SfsFs where
  blocks : Nat
  unusedBlocks : Nat
  superDirty : Bool
  freemapBits : Nat
  freemap : Nat → Bool
  dBlocks : Nat
  disk : Nat → Bytes
  inodes : Nat → Option SfsInode

abbrev SfsM : Type → Type := Program SfsFs Errno Stop

def assert (condition : Prop) [Decidable condition] : SfsM Unit :=
  Program.require .assertFailed condition

namespace SfsFs

def setBlock (sfs : SfsFs) (blkno : Nat) (block : Bytes) : SfsFs :=
  { sfs with disk := Function.update sfs.disk blkno block }

def setInode (sfs : SfsFs) (ino : Nat) (sin : SfsInode) : SfsFs :=
  { sfs with inodes := Function.update sfs.inodes ino (some sin) }

def setFree (sfs : SfsFs) (ino : Nat) (free : Bool) : SfsFs :=
  { sfs with freemap := Function.update sfs.freemap ino free }

end SfsFs

/-! ## Blocks -/

/-- The block of the device at a byte offset, for one block of I/O: `disk0_io`. -/
def disk0Block (offset : Nat) : SfsM Nat := do
  let sfs ← Program.read
  if offset % sfsBlksize ≠ 0 then Program.fail .inval
  else if offset / sfsBlksize + 1 > sfs.dBlocks then Program.fail .inval
  else pure (offset / sfsBlksize)

/-- The checks of `sfs_rwblock_nolock`, and the block of the device it goes to. -/
def sfsRwblockNolock (blkno : Nat) (check : Bool) : SfsM Nat := do
  let sfs ← Program.read
  assert ((blkno ≠ 0 ∨ check = false) ∧ blkno < sfs.blocks)
  disk0Block (u32 (blkno * sfsBlksize))

def sfsReadblockNolock (blkno : Nat) (check : Bool) : SfsM Bytes := do
  let block ← sfsRwblockNolock blkno check
  let sfs ← Program.read
  pure (sfs.disk block)

def sfsWriteblockNolock (blkno : Nat) (check : Bool) (buf : Bytes) : SfsM Unit := do
  let block ← sfsRwblockNolock blkno check
  Program.modify fun sfs => sfs.setBlock block buf

/-- `sfs_rblock` into a buffer of which `done` bytes are filled. -/
def sfsRblock (buf : Bytes) (done : Nat) (blkno : Nat) : Nat → SfsM Bytes
  | 0 => pure buf
  | nblks + 1 => do
      let block ← sfsReadblockNolock blkno true
      sfsRblock (buf.overlay done sfsBlksize block) (done + sfsBlksize) (blkno + 1) nblks

def sfsWblock (buf : Bytes) (blkno : Nat) : Nat → SfsM Unit
  | 0 => pure ()
  | nblks + 1 => do
      sfsWriteblockNolock blkno true buf
      sfsWblock (buf.drop sfsBlksize) (blkno + 1) nblks

/-- What `sfs_rbuf` copies: the bytes of the block from `offset` on, `len` of which are used. -/
def sfsRbuf (len blkno offset : Nat) : SfsM Bytes := do
  assert (offset < sfsBlksize ∧ offset + len ≤ sfsBlksize)
  let block ← sfsReadblockNolock blkno true
  pure (block.drop offset)

def sfsWbuf (buf : Bytes) (len blkno offset : Nat) : SfsM Unit := do
  assert (offset < sfsBlksize ∧ offset + len ≤ sfsBlksize)
  let block ← sfsReadblockNolock blkno true
  sfsWriteblockNolock blkno true (block.overlay offset len buf)

def sfsClearBlock (blkno : Nat) : Nat → SfsM Unit
  | 0 => pure ()
  | nblks + 1 => do
      sfsWriteblockNolock blkno true Bytes.zeros
      sfsClearBlock (blkno + 1) nblks

/-! ## The free map -/

/-- The first free bit, word by word and in each word bit by bit. -/
def firstFree (sfs : SfsFs) : Option Nat := (List.range sfs.freemapBits).find? sfs.freemap

def bitmapAlloc : SfsM Nat := do
  let sfs ← Program.read
  match firstFree sfs with
  | none => Program.fail .noMem
  | some index => do
      Program.modify fun sfs => sfs.setFree index false
      pure index

def bitmapTest (index : Nat) : SfsM Bool := do
  let sfs ← Program.read
  assert (index < sfs.freemapBits)
  pure (sfs.freemap index)

def bitmapFree (index : Nat) : SfsM Unit := do
  let free ← bitmapTest index
  assert (free = false)
  Program.modify fun sfs => sfs.setFree index true

def sfsBlockInuse (ino : Nat) : SfsM Bool := do
  let sfs ← Program.read
  if ino ≠ 0 ∧ ino < sfs.blocks then do
    let free ← bitmapTest ino
    pure (!free)
  else Program.stop .panicked

def sfsBlockAlloc : SfsM Nat := do
  let ino ← bitmapAlloc
  let sfs ← Program.read
  assert (sfs.unusedBlocks > 0)
  Program.modify fun sfs =>
    { sfs with unusedBlocks := sfs.unusedBlocks - 1, superDirty := true }
  let inuse ← sfsBlockInuse ino
  assert (inuse = true)
  sfsClearBlock ino 1
  pure ino

def sfsBlockFree (ino : Nat) : SfsM Unit := do
  let inuse ← sfsBlockInuse ino
  assert (inuse = true)
  bitmapFree ino
  Program.modify fun sfs =>
    { sfs with unusedBlocks := sfs.unusedBlocks + 1, superDirty := true }

end UCore.Fs
