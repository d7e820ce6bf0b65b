import UCore.Fs.SfsInode
import UCore.Lib.Ledger

/-!
Contract: who owns the blocks of a mounted file system.

Owns:
- the references to blocks: metadata, inodes, indirect blocks, and the slots of each inode;
- `Consistent`: free map and superblock agree exactly with the references;
- what reading, writing, allocating and freeing one block do under it.

An inode that is not in memory is the one on disk. The slots of an inode are its direct blocks
followed by the entries of its indirect block.

Does not own: what a slot's block contains.
-/

set_option autoImplicit false

namespace UCore.Fs

open UCore.Lib

/-! ## References -/

inductive Reference
  | metadata (block : Nat)
  | inode (ino : Nat)
  | indirect (ino : Nat)
  | slot (ino index : Nat)
deriving DecidableEq, Repr

/-- The number of slots of an inode. -/
def slotCount : Nat := sfsNdirect + sfsBlkNentry

def dinOf (sfs : SfsFs) (ino : Nat) : DiskInode :=
  match sfs.inodes ino with
  | some sin => sin.din
  | none => DiskInode.ofBytes (sfs.disk ino)

/-- The entry at `index` of an indirect block. -/
def entryOf (block : Bytes) (index : Nat) : Nat := block.number (index * 4) 4

/-- The block in a slot, 0 where the slot is empty. -/
def slotOf (disk : Nat → Bytes) (din : DiskInode) (index : Nat) : Nat :=
  if index < sfsNdirect then din.direct index
  else if index < slotCount ∧ din.indirect ≠ 0 then
    entryOf (disk din.indirect) (index - sfsNdirect)
  else 0

def slotAt (sfs : SfsFs) (ino index : Nat) : Nat := slotOf sfs.disk (dinOf sfs ino) index

/-- The superblock, and the blocks of the free map. -/
def IsMetadata (sfs : SfsFs) (block : Nat) : Prop :=
  block = sfsBlknSuper ∨ (sfsBlknFreemap ≤ block ∧
    block < sfsBlknFreemap + (sfs.blocks + (sfsBlkbits - 1)) / sfsBlkbits)

instance (sfs : SfsFs) (block : Nat) : Decidable (IsMetadata sfs block) :=
  inferInstanceAs (Decidable (_ ∨ _))

/-- A block number, where 0 stands for none. -/
def present (block : Nat) : Option Nat := if block = 0 then none else some block

@[simp] theorem present_zero : present 0 = none := rfl

theorem present_of_ne {block : Nat} (nonzero : block ≠ 0) : present block = some block :=
  if_neg nonzero

theorem present_eq_some {block found : Nat} :
    present block = some found ↔ block = found ∧ found ≠ 0 := by
  unfold present
  split_ifs with zero
  · constructor
    · intro impossible
      cases impossible
    · rintro ⟨rfl, nonzero⟩
      exact absurd zero nonzero
  · constructor
    · intro same
      obtain rfl := Option.some.inj same
      exact ⟨rfl, zero⟩
    · rintro ⟨rfl, _⟩
      rfl

/-- The block that each reference holds, for the inodes `inos` of the image. -/
def target (sfs : SfsFs) (inos : List Nat) : Reference → Option Nat
  | .metadata block => if IsMetadata sfs block then some block else none
  | .inode ino => if ino ∈ inos then some ino else none
  | .indirect ino => if ino ∈ inos then present (dinOf sfs ino).indirect else none
  | .slot ino index => if ino ∈ inos then present (slotAt sfs ino index) else none

/-- The block pointers of an inode in memory are those on disk. -/
def SamePointers (left right : DiskInode) : Prop :=
  (∀ index, index < sfsNdirect → left.direct index = right.direct index) ∧
    left.indirect = right.indirect

/-- The device holds every block of the file system, and is small enough for `uint32_t` byte
offsets, as every device of this kernel is. -/
structure OnDevice (sfs : SfsFs) : Prop where
  fits : sfs.blocks ≤ sfs.dBlocks
  small : sfs.dBlocks < 2 ^ 20
  mapped : sfs.blocks ≤ sfs.freemapBits

structure Consistent (sfs : SfsFs) (inos : List Nat) : Prop where
  exact : Exact sfs.blocks sfs.freemap sfs.unusedBlocks (target sfs inos)
  device : OnDevice sfs
  known : ∀ ino sin, sfs.inodes ino = some sin → ino ∈ inos
  clean : ∀ ino sin, sfs.inodes ino = some sin → sin.dirty = false →
    SamePointers sin.din (DiskInode.ofBytes (sfs.disk ino))

/-! ## Running the block operations -/

theorem run_bind {α β : Type} {program : SfsM α} {second : α → SfsM β} {sfs after : SfsFs}
    {value : α} (ran : program sfs = .ok (.ok value, after)) :
    (program >>= second) sfs = second value after := by
  simp only [bind, Program.bind, ran]

theorem run_bind_error {α β : Type} {program : SfsM α} {second : α → SfsM β} {sfs after : SfsFs}
    {ret : Errno} (ran : program sfs = .ok (.error ret, after)) :
    (program >>= second) sfs = .ok (.error ret, after) := by
  simp only [bind, Program.bind, ran]

theorem run_assert {condition : Prop} [Decidable condition] (sfs : SfsFs) (holds : condition) :
    assert condition sfs = .ok (.ok (), sfs) :=
  if_pos holds

/-- A block that can be read and written. -/
def Addressable (sfs : SfsFs) (blkno : Nat) : Prop := blkno ≠ 0 ∧ blkno < sfs.blocks

variable {sfs : SfsFs} {blkno : Nat}

theorem run_rwblock (device : OnDevice sfs) (addressable : Addressable sfs blkno) :
    sfsRwblockNolock blkno true sfs = .ok (.ok blkno, sfs) := by
  obtain ⟨fits, small, _⟩ := device
  obtain ⟨nonzero, inside⟩ := addressable
  have offset : u32 (blkno * sfsBlksize) = blkno * sfsBlksize := by
    apply u32_of_lt
    unfold sfsBlksize
    omega
  have aligned : ¬ blkno * sfsBlksize % sfsBlksize ≠ 0 := by
    rw [Nat.mul_mod_left]
    exact fun absurdity => absurdity rfl
  have number : blkno * sfsBlksize / sfsBlksize = blkno := Nat.mul_div_cancel _ (by decide)
  have contained : ¬ blkno + 1 > sfs.dBlocks := by omega
  unfold sfsRwblockNolock
  rw [run_bind (show Program.read sfs = .ok (.ok sfs, sfs) from rfl),
    run_bind (run_assert sfs ⟨Or.inl nonzero, inside⟩), offset, disk0Block,
    run_bind (show Program.read sfs = .ok (.ok sfs, sfs) from rfl), if_neg aligned, number,
    if_neg contained]
  rfl

theorem run_readblock (device : OnDevice sfs) (addressable : Addressable sfs blkno) :
    sfsReadblockNolock blkno true sfs = .ok (.ok (sfs.disk blkno), sfs) := by
  rw [sfsReadblockNolock, run_bind (run_rwblock device addressable)]
  rfl

theorem run_writeblock (device : OnDevice sfs) (addressable : Addressable sfs blkno) (buf : Bytes) :
    sfsWriteblockNolock blkno true buf sfs = .ok (.ok (), sfs.setBlock blkno buf) := by
  rw [sfsWriteblockNolock, run_bind (run_rwblock device addressable)]
  rfl

theorem run_rbuf {len offset : Nat} (device : OnDevice sfs) (addressable : Addressable sfs blkno)
    (inside : offset < sfsBlksize ∧ offset + len ≤ sfsBlksize) :
    sfsRbuf len blkno offset sfs = .ok (.ok ((sfs.disk blkno).drop offset), sfs) := by
  rw [sfsRbuf, run_bind (run_assert sfs inside), run_bind (run_readblock device addressable)]
  rfl

theorem run_wbuf {len offset : Nat} (device : OnDevice sfs) (addressable : Addressable sfs blkno)
    (inside : offset < sfsBlksize ∧ offset + len ≤ sfsBlksize) (buf : Bytes) :
    sfsWbuf buf len blkno offset sfs =
      .ok (.ok (), sfs.setBlock blkno ((sfs.disk blkno).overlay offset len buf)) := by
  rw [sfsWbuf, run_bind (run_assert sfs inside), run_bind (run_readblock device addressable)]
  exact run_writeblock device addressable _

theorem run_rblock (device : OnDevice sfs) (addressable : Addressable sfs blkno) (buf : Bytes)
    (done : Nat) :
    sfsRblock buf done blkno 1 sfs =
      .ok (.ok (buf.overlay done sfsBlksize (sfs.disk blkno)), sfs) := by
  rw [sfsRblock, run_bind (run_readblock device addressable)]
  rfl

theorem run_wblock (device : OnDevice sfs) (addressable : Addressable sfs blkno) (buf : Bytes) :
    sfsWblock buf blkno 1 sfs = .ok (.ok (), sfs.setBlock blkno buf) := by
  rw [sfsWblock, run_bind (run_writeblock device addressable buf)]
  rfl

theorem run_clear (device : OnDevice sfs) (addressable : Addressable sfs blkno) :
    sfsClearBlock blkno 1 sfs = .ok (.ok (), sfs.setBlock blkno Bytes.zeros) := by
  rw [sfsClearBlock, run_bind (run_writeblock device addressable _)]
  rfl

theorem run_inuse (device : OnDevice sfs) (addressable : Addressable sfs blkno) :
    sfsBlockInuse blkno sfs = .ok (.ok (!sfs.freemap blkno), sfs) := by
  have mapped : blkno < sfs.freemapBits := lt_of_lt_of_le addressable.2 device.mapped
  have tested : bitmapTest blkno sfs = .ok (.ok (sfs.freemap blkno), sfs) := by
    rw [bitmapTest, run_bind (show Program.read sfs = .ok (.ok sfs, sfs) from rfl),
      run_bind (run_assert sfs mapped)]
    rfl
  rw [sfsBlockInuse, run_bind (show Program.read sfs = .ok (.ok sfs, sfs) from rfl),
    if_pos (show blkno ≠ 0 ∧ blkno < sfs.blocks from addressable), run_bind tested]
  rfl

/-- The state after a block was taken from the free map and cleared. -/
def SfsFs.take (sfs : SfsFs) (block : Nat) : SfsFs :=
  { (sfs.setFree block false).setBlock block Bytes.zeros with
    unusedBlocks := sfs.unusedBlocks - 1
    superDirty := true }

/-- The state after a block was given back. -/
def SfsFs.give (sfs : SfsFs) (block : Nat) : SfsFs :=
  { sfs.setFree block true with
    unusedBlocks := sfs.unusedBlocks + 1
    superDirty := true }

theorem run_blockAlloc_none (full : firstFree sfs = none) :
    sfsBlockAlloc sfs = .ok (.error .noMem, sfs) := by
  have failed : bitmapAlloc sfs = .ok (.error .noMem, sfs) := by
    rw [bitmapAlloc, run_bind (show Program.read sfs = .ok (.ok sfs, sfs) from rfl), full]
    rfl
  rw [sfsBlockAlloc, run_bind_error failed]

theorem run_blockAlloc_some {block : Nat} (device : OnDevice sfs)
    (addressable : Addressable sfs block) (first : firstFree sfs = some block)
    (left : 0 < sfs.unusedBlocks) : sfsBlockAlloc sfs = .ok (.ok block, sfs.take block) := by
  have taken : bitmapAlloc sfs = .ok (.ok block, sfs.setFree block false) := by
    rw [bitmapAlloc, run_bind (show Program.read sfs = .ok (.ok sfs, sfs) from rfl), first]
    rfl
  let counted : SfsFs := { sfs.setFree block false with
    unusedBlocks := sfs.unusedBlocks - 1, superDirty := true }
  have countedDevice : OnDevice counted := ⟨device.fits, device.small, device.mapped⟩
  have countedAddressable : Addressable counted block := addressable
  have notFree : counted.freemap block = false := Function.update_self _ _ _
  rw [sfsBlockAlloc, run_bind taken,
    run_bind (show Program.read (sfs.setFree block false) = .ok (.ok _, _) from rfl),
    run_bind (run_assert _ (show (sfs.setFree block false).unusedBlocks > 0 from left)),
    run_bind (show Program.modify (fun sfs : SfsFs =>
      { sfs with unusedBlocks := sfs.unusedBlocks - 1, superDirty := true })
        (sfs.setFree block false) = .ok (.ok (), counted) from rfl),
    run_bind (run_inuse countedDevice countedAddressable),
    run_bind (run_assert counted (by rw [notFree]; rfl)),
    run_bind (run_clear countedDevice countedAddressable)]
  rfl

theorem run_blockFree (device : OnDevice sfs) (addressable : Addressable sfs blkno)
    (used : sfs.freemap blkno = false) :
    sfsBlockFree blkno sfs = .ok (.ok (), sfs.give blkno) := by
  have mapped : blkno < sfs.freemapBits := lt_of_lt_of_le addressable.2 device.mapped
  have tested : bitmapTest blkno sfs = .ok (.ok (sfs.freemap blkno), sfs) := by
    rw [bitmapTest, run_bind (show Program.read sfs = .ok (.ok sfs, sfs) from rfl),
      run_bind (run_assert sfs mapped)]
    rfl
  have freed : bitmapFree blkno sfs = .ok (.ok (), sfs.setFree blkno true) := by
    rw [bitmapFree, run_bind tested, run_bind (run_assert sfs used)]
    rfl
  rw [sfsBlockFree, run_bind (run_inuse device addressable),
    run_bind (run_assert sfs (by rw [used]; rfl)), run_bind freed]
  rfl

end UCore.Fs
