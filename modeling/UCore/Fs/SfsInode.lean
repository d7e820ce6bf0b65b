import UCore.Fs.Sfs

/-!
Contract: inodes of the Simple FS and their block maps, `kern/fs/sfs/sfs_inode.c`.

Owns:
- the map from the blocks of a file to blocks of the disk: looking up, allocating and freeing;
- loading, syncing, truncating and reclaiming an inode.

An inode in memory is named by its number. A function that is given an inode stops where that
inode is not in memory: in the kernel it would hold no pointer to it.

Does not own: directories, and reading and writing files.
-/

set_option autoImplicit false

namespace UCore.Fs

open UCore.Lib

def getSin (ino : Nat) : SfsM SfsInode := do
  let sfs ← Program.read
  match sfs.inodes ino with
  | none => Program.stop .panicked
  | some sin => pure sin

def setSin (ino : Nat) (sin : SfsInode) : SfsM Unit :=
  Program.modify fun sfs => sfs.setInode ino sin

def updateDin (ino : Nat) (change : DiskInode → DiskInode) : SfsM Unit := do
  let sin ← getSin ino
  setSin ino { sin with din := change sin.din }

def setDirty (ino : Nat) (dirty : Bool) : SfsM Unit := do
  let sin ← getSin ino
  setSin ino { sin with dirty := dirty }

/-! ## The block map -/

/-- The second half of `sfs_bmap_get_sub_nolock`: a new block for the entry at `index` of the
block `ent`, which is itself new where it is not `entp`. -/
def bmapNewEntry (entp ent index : Nat) : SfsM (Nat × Nat) := do
  let offset := index * 4
  match ← Program.attempt sfsBlockAlloc with
  | .error ret => do
      if ent ≠ entp then sfsBlockFree ent
      Program.fail ret
  | .ok ino => do
      match ← Program.attempt (sfsWbuf (Bytes.ofNumber ino) 4 ent offset) with
      | .error ret => do
          sfsBlockFree ino
          if ent ≠ entp then sfsBlockFree ent
          Program.fail ret
      | .ok () => pure (ent, ino)

/-- The new value of `*entp`, and the block. -/
def sfsBmapGetSubNolock (entp index : Nat) (create : Bool) : SfsM (Nat × Nat) := do
  assert (index < sfsBlkNentry)
  let offset := index * 4
  if entp ≠ 0 then do
    let bytes ← sfsRbuf 4 entp offset
    let ino := bytes.number 0 4
    if ino ≠ 0 ∨ create = false then pure (entp, ino)
    else bmapNewEntry entp entp index
  else if create = false then pure (entp, 0)
  else do
    let ent ← sfsBlockAlloc
    bmapNewEntry entp ent index

/-- The block at `index` of the inode, before the check on the way out. -/
def bmapGetBlock (ino index : Nat) (create : Bool) : SfsM Nat := do
  let sin ← getSin ino
  if index < sfsNdirect then
    if sin.din.direct index = 0 ∧ create = true then do
      let block ← sfsBlockAlloc
      updateDin ino fun din => { din with direct := Function.update din.direct index block }
      setDirty ino true
      pure block
    else pure (sin.din.direct index)
  else if index - sfsNdirect < sfsBlkNentry then do
    let (ent, block) ← sfsBmapGetSubNolock sin.din.indirect (index - sfsNdirect) create
    if ent ≠ sin.din.indirect then do
      assert (sin.din.indirect = 0)
      updateDin ino fun din => { din with indirect := ent }
      setDirty ino true
      pure block
    else pure block
  else Program.stop .panicked

def sfsBmapGetNolock (ino index : Nat) (create : Bool) : SfsM Nat := do
  let block ← bmapGetBlock ino index create
  if block = 0 then pure block
  else do
    let inuse ← sfsBlockInuse block
    assert (inuse = true)
    pure block

def sfsBmapFreeSubNolock (ent index : Nat) : SfsM Unit := do
  let inuse ← sfsBlockInuse ent
  assert (inuse = true ∧ index < sfsBlkNentry)
  let offset := index * 4
  let bytes ← sfsRbuf 4 ent offset
  let ino := bytes.number 0 4
  if ino ≠ 0 then do
    sfsWbuf (Bytes.ofNumber 0) 4 ent offset
    sfsBlockFree ino
  else pure ()

def sfsBmapFreeNolock (ino index : Nat) : SfsM Unit := do
  let sin ← getSin ino
  if index < sfsNdirect then
    if sin.din.direct index ≠ 0 then do
      sfsBlockFree (sin.din.direct index)
      updateDin ino fun din => { din with direct := Function.update din.direct index 0 }
      setDirty ino true
    else pure ()
  else if index - sfsNdirect < sfsBlkNentry then
    if sin.din.indirect ≠ 0 then sfsBmapFreeSubNolock sin.din.indirect (index - sfsNdirect)
    else pure ()
  else pure ()

def sfsBmapLoadNolock (ino index : Nat) : SfsM Nat := do
  let sin ← getSin ino
  assert (index ≤ sin.din.blocks)
  let create : Bool := decide (index = sin.din.blocks)
  let block ← sfsBmapGetNolock ino index create
  let inuse ← sfsBlockInuse block
  assert (inuse = true)
  if create = true then do
    updateDin ino fun din => { din with blocks := din.blocks + 1 }
    pure block
  else pure block

def sfsBmapTruncateNolock (ino : Nat) : SfsM Unit := do
  let sin ← getSin ino
  assert (sin.din.blocks ≠ 0)
  sfsBmapFreeNolock ino (sin.din.blocks - 1)
  updateDin ino fun din => { din with blocks := din.blocks - 1 }
  setDirty ino true

/-! ## Inodes -/

/-- The types of inodes that have operations: `sfs_get_ops`. -/
def sfsGetOps (type : Nat) : SfsM Unit :=
  if type = sfsTypeDir ∨ type = sfsTypeFile then pure () else Program.stop .panicked

def sfsLoadInode (ino : Nat) : SfsM Unit := do
  let sfs ← Program.read
  match sfs.inodes ino with
  | some sin =>
      setSin ino { sin with
        refCount := sin.refCount + 1
        reclaimCount := if sin.refCount + 1 = 1 then sin.reclaimCount + 1 else sin.reclaimCount }
  | none => do
      let inuse ← sfsBlockInuse ino
      assert (inuse = true)
      let bytes ← sfsRbuf diskInodeSize ino 0
      let din := DiskInode.ofBytes bytes
      assert (din.nlinks ≠ 0)
      sfsGetOps din.type
      setSin ino ⟨din, false, 1, 1⟩

def sfsFsync (ino : Nat) : SfsM Unit := do
  let sin ← getSin ino
  if sin.dirty = true then do
    setDirty ino false
    match ← Program.attempt (sfsWbuf sin.din.toBytes diskInodeSize ino 0) with
    | .error ret => do
        setDirty ino true
        Program.fail ret
    | .ok () => pure ()
  else pure ()

/-- Enlarges the inode block by block, from `nblks` blocks on. -/
def truncfileGrow (ino nblks : Nat) : Nat → SfsM Unit
  | 0 => pure ()
  | missing + 1 => do
      let _ ← sfsBmapLoadNolock ino nblks
      truncfileGrow ino (nblks + 1) missing

def truncfileShrink (ino : Nat) : Nat → SfsM Unit
  | 0 => pure ()
  | excess + 1 => do
      sfsBmapTruncateNolock ino
      truncfileShrink ino excess

def sfsTruncfile (ino : Nat) (len : Int) : SfsM Unit := do
  if len < 0 ∨ len > sfsMaxFileSize then Program.fail .inval
  else do
    let length := len.toNat
    let sin ← getSin ino
    let tblks := (length + (sfsBlksize - 1)) / sfsBlksize
    if sin.din.size = length then assert (tblks = sin.din.blocks)
    else do
      if sin.din.blocks < tblks then
        truncfileGrow ino sin.din.blocks (tblks - sin.din.blocks)
      else truncfileShrink ino (sin.din.blocks - tblks)
      let sin ← getSin ino
      assert (sin.din.blocks = tblks)
      updateDin ino fun din => { din with size := length }
      setDirty ino true

/-- `vop_truncate`, which only files have. -/
def vopTruncate (ino : Nat) (len : Int) : SfsM Unit := do
  let sin ← getSin ino
  assert (sin.din.type = sfsTypeFile)
  sfsTruncfile ino len

def sfsTryseek (ino : Nat) (pos : Int) : SfsM Unit := do
  if pos < 0 ∨ pos ≥ sfsMaxFileSize then Program.fail .inval
  else do
    let sin ← getSin ino
    if pos > sin.din.size then vopTruncate ino pos else pure ()

/-- `vop_ref_inc` -/
def vopRefInc (ino : Nat) : SfsM Unit := do
  let sin ← getSin ino
  setSin ino { sin with refCount := sin.refCount + 1 }

def removeSin (ino : Nat) : SfsM Unit :=
  Program.modify fun sfs => { sfs with inodes := Function.update sfs.inodes ino none }

/-- The part of `sfs_reclaim` after its checks. -/
def reclaimUnused (ino : Nat) : SfsM Unit := do
  let sin ← getSin ino
  if sin.din.nlinks = 0 then vopTruncate ino 0 else pure ()
  let sin ← getSin ino
  if sin.dirty = true then sfsFsync ino else pure ()
  let sin ← getSin ino
  removeSin ino
  if sin.din.nlinks = 0 then do
    sfsBlockFree ino
    if sin.din.indirect ≠ 0 then sfsBlockFree sin.din.indirect else pure ()
  else pure ()

def sfsReclaim (ino : Nat) : SfsM Unit := do
  let sin ← getSin ino
  assert (sin.reclaimCount > 0)
  setSin ino { sin with reclaimCount := sin.reclaimCount - 1 }
  if sin.reclaimCount - 1 ≠ 0 ∨ sin.refCount ≠ 0 then Program.fail .busy
  else reclaimUnused ino

/-- `vop_ref_dec`: what `vop_reclaim` answers is only reported. -/
def vopRefDec (ino : Nat) : SfsM Unit := do
  let sin ← getSin ino
  assert (sin.refCount > 0)
  setSin ino { sin with refCount := sin.refCount - 1 }
  if sin.refCount - 1 = 0 then do
    let _ ← Program.attempt (sfsReclaim ino)
    pure ()
  else pure ()

end UCore.Fs
