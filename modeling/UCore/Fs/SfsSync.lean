import Mathlib.Data.Nat.Init
import UCore.Fs.SfsBmap

/-!
Contract: syncing a Simple FS and mounting it, `kern/fs/sfs/sfs_fs.c`.

Owns:
- the superblock and the free map as they are on disk;
- `sfs_sync`, which writes the dirty inodes, the superblock and the free map;
- `sfs_do_mount`, and that mounting again what was synced gives the same file system.

The inodes in memory are synced in the order of their numbers. The kernel's list has them in
another order, which makes no difference as each goes to a block of its own. Memory for the
mounted file system is assumed to be there.

Does not own: when the flags are set that say what has to be written.
-/

set_option autoImplicit false

namespace UCore.Fs

open UCore.Lib UCore.Lib.Program

variable {sfs after : SfsFs} {inos : List Nat} {ino : Nat} {sin : SfsInode} {info : Bytes}

/-! ## The superblock and the free map on disk -/

def sfsMagic : Nat := 0x2f8dbe2a

def sfsMaxInfoLen : Nat := 31

/-- `struct sfs_super` -/
structure SfsSuper where
  magic : Nat
  blocks : Nat
  unusedBlocks : Nat
  info : Bytes

/-- `sizeof(struct sfs_super)` -/
def superSize : Nat := 44

namespace SfsSuper

def toBytes (super : SfsSuper) : Bytes := fun position =>
  if position < 4 then Bytes.ofNumber super.magic position
  else if position < 8 then Bytes.ofNumber super.blocks (position - 4)
  else if position < 12 then Bytes.ofNumber super.unusedBlocks (position - 8)
  else super.info (position - 12)

/-- The superblock in a block. Mounting ends its information with a zero. -/
def ofBytes (bytes : Bytes) : SfsSuper where
  magic := bytes.number 0 4
  blocks := bytes.number 4 4
  unusedBlocks := bytes.number 8 4
  info := fun position => if position < sfsMaxInfoLen then bytes (12 + position) else 0

end SfsSuper

/-- The superblock in memory. -/
def SfsFs.super (sfs : SfsFs) (info : Bytes) : SfsSuper :=
  ⟨sfsMagic, sfs.blocks, sfs.unusedBlocks, info⟩

/-- `sfs_freemap_blocks` -/
def sfsFreemapBlocks (blocks : Nat) : Nat := (blocks + (sfsBlkbits - 1)) / sfsBlkbits

/-- `sfs_freemap_bits` -/
def sfsFreemapBits (blocks : Nat) : Nat := sfsFreemapBlocks blocks * sfsBlkbits

/-- The words of the bitmap, byte by byte. -/
def bitmapGetdata (freemap : Nat → Bool) : Bytes := fun position =>
  UInt8.ofNat (Nat.ofBits fun bit : Fin 8 => freemap (8 * position + bit))

/-- A bit of the bitmap in its words. -/
def bitmapBit (data : Bytes) (index : Nat) : Bool := (data (index / 8)).toNat.testBit (index % 8)

theorem bitmapBit_getdata (freemap : Nat → Bool) (index : Nat) :
    bitmapBit (bitmapGetdata freemap) index = freemap index := by
  have low : index % 8 < 8 := Nat.mod_lt _ (by decide)
  have byte : Nat.ofBits (fun bit : Fin 8 => freemap (8 * (index / 8) + bit)) < 2 ^ 8 :=
    Nat.ofBits_lt_two_pow _
  rw [bitmapBit, bitmapGetdata, UInt8.toNat_ofNat', Nat.mod_eq_of_lt byte,
    Nat.testBit_ofBits_lt _ _ low]
  exact congrArg freemap (Nat.div_add_mod index 8)

/-! ## Syncing -/

/-- The list of the inodes in memory. -/
def inodeList (sfs : SfsFs) : List Nat :=
  (List.range sfs.blocks).filter fun ino => (sfs.inodes ino).isSome

/-- The loop over the inodes. What `vop_fsync` returns is ignored. -/
def sfsSyncInodes : List Nat → SfsM Unit
  | [] => pure ()
  | ino :: rest => do
      let _ ← Program.attempt (sfsFsync ino)
      sfsSyncInodes rest

def sfsSyncSuper (info : Bytes) : SfsM Unit := do
  let sfs ← Program.read
  sfsWriteblockNolock sfsBlknSuper false
    (Bytes.zeros.overlay 0 superSize (sfs.super info).toBytes)

def sfsSyncFreemap : SfsM Unit := do
  let sfs ← Program.read
  sfsWblock (bitmapGetdata sfs.freemap) sfsBlknFreemap (sfsFreemapBlocks sfs.blocks)

def setSuperDirty (dirty : Bool) : SfsM Unit :=
  Program.modify fun sfs => { sfs with superDirty := dirty }

def sfsSync (info : Bytes) : SfsM Unit := do
  let sfs ← Program.read
  sfsSyncInodes (inodeList sfs)
  let sfs ← Program.read
  if sfs.superDirty = true then do
    setSuperDirty false
    match ← Program.attempt (sfsSyncSuper info) with
    | .error ret => do
        setSuperDirty true
        Program.fail ret
    | .ok () => do
        match ← Program.attempt sfsSyncFreemap with
        | .error ret => do
            setSuperDirty true
            Program.fail ret
        | .ok () => pure ()
  else pure ()

/-! ## Mounting -/

/-- The free map that mounting reads. -/
def readFreemap (disk : Nat → Bytes) (nbits : Nat) : Nat → Bool := fun index =>
  decide (index < nbits) &&
    bitmapBit (fun position => disk (sfsBlknFreemap + position / sfsBlksize) (position % sfsBlksize))
      index

/-- The file system on a device, and the information in its superblock. -/
def sfsDoMount (dBlocks : Nat) (disk : Nat → Bytes) : Except Stop (Except Errno (SfsFs × Bytes)) :=
  let super := SfsSuper.ofBytes (disk sfsBlknSuper)
  let freemapSizeNbits := sfsFreemapBits super.blocks
  let freemap := readFreemap disk freemapSizeNbits
  if sfsBlknSuper + 1 > dBlocks then .ok (.error .inval)
  else if super.magic ≠ sfsMagic then .ok (.error .inval)
  else if super.blocks > dBlocks then .ok (.error .inval)
  else if freemapSizeNbits = 0 then .error .assertFailed
  else if sfsBlknFreemap + sfsFreemapBlocks super.blocks > dBlocks then .ok (.error .inval)
  else if (List.range freemapSizeNbits).countP freemap ≠ super.unusedBlocks then
    .error .assertFailed
  else .ok (.ok (⟨super.blocks, super.unusedBlocks, false, freemapSizeNbits, freemap, dBlocks, disk,
    fun _ => none⟩, super.info))

/-! ## Mounting again -/

/-- Mounting reads the superblock and the free map that are in memory. -/
structure MetadataOnDisk (info : Bytes) (sfs : SfsFs) : Prop where
  super : SfsSuper.ofBytes (sfs.disk sfsBlknSuper) = sfs.super info
  freemap : readFreemap sfs.disk sfs.freemapBits = sfs.freemap

/-- What mounting makes sure of. -/
structure Format (info : Bytes) (sfs : SfsFs) : Prop where
  nonempty : 0 < sfs.blocks
  freemapBits : sfs.freemapBits = sfsFreemapBits sfs.blocks
  ended : ∀ position, sfsMaxInfoLen ≤ position → info position = 0

theorem SfsSuper.ofBytes_stored {super : SfsSuper} {bytes : Bytes}
    (stored : ∀ position, position < superSize → bytes position = super.toBytes position)
    (magic : super.magic < 2 ^ 32) (blocks : super.blocks < 2 ^ 32)
    (unusedBlocks : super.unusedBlocks < 2 ^ 32)
    (ended : ∀ position, sfsMaxInfoLen ≤ position → super.info position = 0) :
    SfsSuper.ofBytes bytes = super := by
  unfold superSize at stored
  have number : ∀ offset value, offset + 4 ≤ 44 → value < 2 ^ 32 →
      (∀ position, position < 4 →
        super.toBytes (offset + position) = UInt8.ofNat (value / 256 ^ position)) →
      bytes.number offset 4 = value := by
    intro offset value inside small holds
    rw [@Bytes.number_of_bytes _ _ value]
    · exact Nat.mod_eq_of_lt small
    · intro position low
      rw [stored (offset + position) (by omega)]
      exact holds position low
  cases super with
  | mk magicNumber blockNumber unusedNumber information =>
      unfold SfsSuper.ofBytes
      congr 1
      · apply number 0 magicNumber (by omega) magic
        intro position low
        rw [SfsSuper.toBytes, if_pos (by omega), Nat.zero_add]
        rfl
      · apply number 4 blockNumber (by omega) blocks
        intro position low
        rw [SfsSuper.toBytes, if_neg (by omega), if_pos (by omega), Nat.add_sub_cancel_left]
        rfl
      · apply number 8 unusedNumber (by omega) unusedBlocks
        intro position low
        rw [SfsSuper.toBytes, if_neg (by omega), if_neg (by omega), if_pos (by omega),
          Nat.add_sub_cancel_left]
        rfl
      · funext position
        by_cases inside : position < sfsMaxInfoLen
        · have low : 12 + position < 44 := by
            unfold sfsMaxInfoLen at inside
            omega
          rw [if_pos inside, stored (12 + position) low, SfsSuper.toBytes,
            if_neg (by omega), if_neg (by omega), if_neg (by omega), Nat.add_sub_cancel_left]
        · rw [if_neg inside]
          exact (ended position (Nat.not_lt.mp inside)).symm

section Mount

variable (consistent : Consistent sfs inos) (format : Format info sfs)
include consistent format

theorem Consistent.freemapBlocks_inside :
    0 < sfsFreemapBlocks sfs.blocks ∧
      sfsBlknFreemap + sfsFreemapBlocks sfs.blocks ≤ sfs.blocks := by
  have positive := format.nonempty
  have some : 0 < sfsFreemapBlocks sfs.blocks := by
    unfold sfsFreemapBlocks sfsBlkbits
    omega
  refine ⟨some, ?_⟩
  have isMetadata : IsMetadata sfs (sfsBlknFreemap + sfsFreemapBlocks sfs.blocks - 1) := by
    right
    unfold sfsFreemapBlocks at *
    omega
  have inside := consistent.exact.inRange (.metadata _) _ (if_pos isMetadata)
  omega

omit format in
theorem Consistent.unused_small : sfs.unusedBlocks < 2 ^ 32 := by
  have device := consistent.device
  have fits := device.fits
  have small := device.small
  have counted : sfs.unusedBlocks ≤ sfs.blocks := by
    rw [consistent.exact.counted]
    exact (List.countP_le_length).trans_eq List.length_range
  omega

/-- The superblock and the free map were written, byte by byte. -/
theorem MetadataOnDisk.of_stored
    (super : ∀ position, position < superSize →
      sfs.disk sfsBlknSuper position = (sfs.super info).toBytes position)
    (freemap : ∀ position, position < sfsFreemapBlocks sfs.blocks * sfsBlksize →
      sfs.disk (sfsBlknFreemap + position / sfsBlksize) (position % sfsBlksize) =
        bitmapGetdata sfs.freemap position) : MetadataOnDisk info sfs where
  super := by
    have device := consistent.device
    have fits := device.fits
    have small := device.small
    apply SfsSuper.ofBytes_stored super
    · show sfsMagic < 2 ^ 32
      decide
    · show sfs.blocks < 2 ^ 32
      omega
    · exact consistent.unused_small
    · exact format.ended
  freemap := by
    funext index
    unfold readFreemap
    by_cases inside : index < sfs.freemapBits
    · have low : index / 8 < sfsFreemapBlocks sfs.blocks * sfsBlksize := by
        rw [format.freemapBits, sfsFreemapBits] at inside
        unfold sfsBlkbits at inside
        unfold sfsBlksize
        omega
      rw [decide_eq_true inside, Bool.true_and, bitmapBit, freemap _ low]
      exact bitmapBit_getdata sfs.freemap index
    · rw [decide_eq_false inside, Bool.false_and]
      cases free : sfs.freemap index with
      | false => rfl
      | true =>
          have below := consistent.exact.freeInRange index free
          have mapped := consistent.device.mapped
          omega

/-- Mounting the disk again gives the same file system, with no inode in memory. -/
theorem remount (onDisk : MetadataOnDisk info sfs) :
    sfsDoMount sfs.dBlocks sfs.disk =
      .ok (.ok ({ sfs with superDirty := false, inodes := fun _ => none }, info)) := by
  obtain ⟨some, inside⟩ := consistent.freemapBlocks_inside format
  have device := consistent.device
  have fits := device.fits
  have counted := countP_range_beyond consistent.exact.freeInRange device.mapped
  have magic : (sfs.super info).magic = sfsMagic := rfl
  have blocks : (sfs.super info).blocks = sfs.blocks := rfl
  have bits : sfsFreemapBits sfs.blocks ≠ 0 := by
    unfold sfsFreemapBits sfsBlkbits
    omega
  unfold sfsDoMount
  simp only [onDisk.super, blocks, ← format.freemapBits, onDisk.freemap]
  rw [if_neg (by unfold sfsBlknSuper sfsBlknFreemap at *; omega), if_neg (not_not.mpr magic),
    if_neg (by omega), if_neg (format.freemapBits ▸ bits), if_neg (by omega), if_neg]
  · rfl
  · rw [counted, ← consistent.exact.counted]
    exact not_not.mpr rfl

end Mount

/-- What mounting gives: the file system is as on the disk, and no inode is in memory. -/
theorem mounted_of_mount {dBlocks : Nat} {disk : Nat → Bytes}
    (mounts : sfsDoMount dBlocks disk = .ok (.ok (sfs, info))) :
    Format info sfs ∧ MetadataOnDisk info sfs ∧ ∀ ino, sfs.inodes ino = none := by
  unfold sfsDoMount at mounts
  simp only [] at mounts
  split_ifs at mounts with noSuper magic blocks empty short miscounted <;> cases mounts
  have nonempty : 0 < (SfsSuper.ofBytes (disk sfsBlknSuper)).blocks := by
    unfold sfsFreemapBits sfsFreemapBlocks sfsBlkbits at empty
    omega
  refine ⟨⟨nonempty, rfl, ?_⟩, ⟨?_, rfl⟩, fun _ => rfl⟩
  · intro position beyond
    exact if_neg (Nat.not_lt.mpr beyond)
  · exact congrArg (fun number => SfsSuper.mk number _ _ _) (not_not.mp magic)

end UCore.Fs
