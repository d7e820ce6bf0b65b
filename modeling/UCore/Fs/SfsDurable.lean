import UCore.Fs.SfsFlags

/-!
Contract: what is on disk after a sync, over runs of calls on a mounted Simple FS.

Owns:
- loading, syncing and reclaiming inodes keep `Durable`;
- `sfs_sync` writes everything that is flagged;
- the runs of calls, and which of them leave a change that no sync writes.

Does not own: when a call flags what it changes.
-/

set_option autoImplicit false

namespace UCore.Fs

open UCore.Lib UCore.Lib.Program

variable {sfs after : SfsFs} {inos : List Nat} {ino index block : Nat} {sin sin' : SfsInode}
  {info : Bytes}

/-! ## Loading, syncing and reclaiming inodes -/

namespace Durable

theorem mounted (durable : Durable inos info sfs) : Mounted inos sfs where
  consistent := durable.consistent
  trimmed ino sin loaded unlinked :=
    absurd unlinked (durable.inode ino sin loaded).storable.linked

/-- An inode in memory changes in its counts only. -/
theorem recount (durable : Durable inos info sfs) (loaded : sfs.inodes ino = some sin)
    (din : sin'.din = sin.din) (dirty : sin'.dirty = sin.dirty) :
    Durable inos info (sfs.setInode ino sin') := by
  have pointers : SamePointers sin'.din sin.din := by
    rw [din]
    exact ⟨fun _ _ => rfl, rfl⟩
  apply durable.change (durable.consistent.setHeader loaded pointers fun isClean => dirty ▸ isClean)
    ⟨rfl, rfl, rfl⟩ (fun other apart => Function.update_of_ne apart _ _) (fun _ _ _ => rfl)
    (Or.inr ⟨rfl, rfl, rfl⟩) (durable.consistent.known ino sin loaded)
  intro found isFound
  obtain rfl := Option.some.inj (setInode_self.symm.trans isFound)
  obtain ⟨storable, clean⟩ := durable.inode ino sin loaded
  refine ⟨din ▸ storable, fun isClean => ?_⟩
  rw [din]
  exact clean (dirty ▸ isClean)

theorem loadInode (durable : Durable inos info sfs) (member : ino ∈ inos) :
    Ensures True (sfsLoadInode ino) sfs fun _ after => Durable inos info after := by
  apply ensures_read
  cases loaded : sfs.inodes ino with
  | some sin =>
      apply ensures_modify_last
      exact durable.recount loaded rfl rfl
  | none =>
      have consistent := durable.consistent
      have addressable := consistent.of_held (target_of_inode member) nofun
      have used := consistent.used (target_of_inode member)
      apply ensures_bind_run (run_inuse consistent.device addressable)
      apply ensures_bind_run (run_assert sfs (by rw [used]; rfl))
      apply ensures_bind_run (run_rbuf consistent.device addressable (by decide))
      simp only [ofBytes_drop_zero]
      apply ensures_assert
      · intro linked
        unfold sfsGetOps
        split_ifs
        · apply ensures_bind_run (show (pure () : SfsM Unit) sfs = .ok (.ok (), sfs) from rfl)
          apply ensures_modify_last
          have fresh := @mounted_fresh sfs inos ino ⟨DiskInode.ofBytes (sfs.disk ino), false, 1, 1⟩
            durable.mounted member loaded rfl linked
          apply durable.change fresh.consistent ⟨rfl, rfl, rfl⟩
            (fun other apart => Function.update_of_ne apart _ _) (fun _ _ _ => rfl)
            (Or.inr ⟨rfl, rfl, rfl⟩) member
          intro found isFound
          obtain rfl := Option.some.inj (setInode_self.symm.trans isFound)
          refine ⟨⟨linked, ?_, ?_, ?_, ?_⟩, fun _ => SameInode.refl _⟩
          · exact Bytes.number_lt _ 0 4
          · exact Bytes.number_lt _ 4 2
          · exact Bytes.number_lt _ 6 2
          · exact Bytes.number_lt _ 8 4
        · unfold Ensures
          simp only [bind, Program.bind, Program.stop]
      · exact fun _ => trivial

end Durable

/-- The state after the inode was synced. -/
def SfsFs.stored (sfs : SfsFs) (ino : Nat) (sin : SfsInode) : SfsFs :=
  if sin.dirty = true then
    (sfs.setInode ino { sin with dirty := false }).setBlock ino
      ((sfs.disk ino).overlay 0 diskInodeSize sin.din.toBytes)
  else sfs

theorem stored_inodes (loaded : sfs.inodes ino = some sin) :
    (sfs.stored ino sin).inodes = Function.update sfs.inodes ino (some { sin with dirty := false }) := by
  unfold SfsFs.stored
  split_ifs with dirty
  · rfl
  · have same : { sin with dirty := false } = sin := by
      rw [Bool.not_eq_true] at dirty
      rw [← dirty]
    rw [same, ← loaded, Function.update_eq_self]

theorem run_fsync (consistent : Consistent sfs inos) (loaded : sfs.inodes ino = some sin) :
    sfsFsync ino sfs = .ok (.ok (), sfs.stored ino sin) := by
  rw [sfsFsync, run_bind (run_getSin loaded), SfsFs.stored]
  by_cases dirty : sin.dirty = true
  · have member := consistent.known ino sin loaded
    have addressable : Addressable (sfs.setInode ino { sin with dirty := false }) ino :=
      consistent.of_held (target_of_inode member) nofun
    have device : OnDevice (sfs.setInode ino { sin with dirty := false }) :=
      consistent.device.congr ⟨rfl, rfl, rfl⟩
    have written := @run_wbuf _ _ diskInodeSize 0 device addressable (by decide) sin.din.toBytes
    rw [if_pos dirty, if_pos dirty, run_bind (run_setDirty loaded), run_bind (run_attempt written)]
    rfl
  · rw [if_neg dirty, if_neg dirty]
    rfl

namespace Durable

/-- The inode on disk is the one that was written. -/
theorem sameInode_stored (durable : Durable inos info sfs) (loaded : sfs.inodes ino = some sin)
    (bytes : Bytes) :
    SameInode (DiskInode.ofBytes (bytes.overlay 0 diskInodeSize sin.din.toBytes)) sin.din := by
  obtain ⟨storable, _⟩ := durable.inode ino sin loaded
  obtain ⟨smallDirect, smallIndirect⟩ := durable.consistent.pointer_small loaded
  constructor
  · constructor
    · rw [DiskInode.stored_size, Nat.mod_eq_of_lt storable.size]
    · rw [DiskInode.stored_type, Nat.mod_eq_of_lt storable.type]
    · rw [DiskInode.stored_nlinks, Nat.mod_eq_of_lt storable.nlinks]
    · rw [DiskInode.stored_blocks, Nat.mod_eq_of_lt storable.blocks]
  · constructor
    · intro index direct
      rw [DiskInode.stored_direct direct, Nat.mod_eq_of_lt (smallDirect index direct)]
    · rw [DiskInode.stored_indirect, Nat.mod_eq_of_lt smallIndirect]

theorem stored (durable : Durable inos info sfs) (loaded : sfs.inodes ino = some sin) :
    Durable inos info (sfs.stored ino sin) := by
  unfold SfsFs.stored
  split_ifs
  · have keeps := keeps_stored durable.mounted loaded rfl
    apply durable.change keeps.mounted.consistent ⟨rfl, rfl, rfl⟩
      (fun other apart => Function.update_of_ne apart _ _)
      (fun _ _ apart => Function.update_of_ne apart _ _) (Or.inr ⟨rfl, rfl, rfl⟩)
      (durable.consistent.known ino sin loaded)
    intro found isFound
    obtain rfl := Option.some.inj (setInode_self.symm.trans isFound)
    refine ⟨(durable.inode ino sin loaded).storable, fun _ => ?_⟩
    rw [show ((sfs.setInode ino { sin with dirty := false }).setBlock ino
      ((sfs.disk ino).overlay 0 diskInodeSize sin.din.toBytes)).disk ino = _ from
      Function.update_self _ _ _]
    exact durable.sameInode_stored loaded _
  · exact durable

/-- A clean inode leaves the memory. -/
theorem dropInode (durable : Durable inos info sfs) (loaded : sfs.inodes ino = some sin)
    (clean : sin.dirty = false) : Durable inos info (sfs.dropInode ino) := by
  have gone : (sfs.dropInode ino).inodes ino = none := Function.update_self _ _ _
  have linked := (durable.inode ino sin loaded).storable.linked
  have stepped := stepped_linked durable.mounted loaded clean linked
  have all : remaining sfs (sfs.dropInode ino) inos = inos := by
    apply remaining_all
    intro other unlinked
    obtain ⟨found, isFound, none⟩ := Option.map_eq_some_iff.mp unlinked
    exact absurd none (durable.inode other found isFound).storable.linked
  unfold Stepped at stepped
  rw [all] at stepped
  apply durable.change stepped.consistent ⟨rfl, rfl, rfl⟩ (fun other apart => dropInode_of_ne apart)
    (fun _ _ _ => rfl) (Or.inr ⟨rfl, rfl, rfl⟩) (durable.consistent.known ino sin loaded)
  intro found isFound
  rw [gone] at isFound
  cases isFound

theorem reclaimUnused (durable : Durable inos info sfs) (loaded : sfs.inodes ino = some sin) :
    Ensures True (reclaimUnused ino) sfs fun _ after => Durable inos info after := by
  have linked := (durable.inode ino sin loaded).storable.linked
  have clean : (sfs.stored ino sin).inodes ino = some { sin with dirty := false } := by
    rw [stored_inodes loaded, Function.update_self]
  have removed : (do
      let sin ← getSin ino
      removeSin ino
      if sin.din.nlinks = 0 then do
        sfsBlockFree ino
        if sin.din.indirect ≠ 0 then sfsBlockFree sin.din.indirect else pure ()
      else pure () : SfsM Unit) (sfs.stored ino sin) =
      .ok (.ok (), (sfs.stored ino sin).dropInode ino) := by
    rw [run_bind (run_getSin clean),
      run_bind (show removeSin ino (sfs.stored ino sin) = .ok (.ok (), _) from rfl), if_neg linked]
    rfl
  have ran : Fs.reclaimUnused ino sfs = .ok (.ok (), (sfs.stored ino sin).dropInode ino) := by
    rw [Fs.reclaimUnused, run_bind (run_getSin loaded), if_neg linked]
    simp only []
    rw [run_bind (run_getSin loaded)]
    by_cases dirty : sin.dirty = true
    · rw [if_pos dirty, run_bind (run_fsync durable.consistent loaded)]
      exact removed
    · have same : sfs.stored ino sin = sfs := by rw [SfsFs.stored, if_neg dirty]
      rw [if_neg dirty]
      rw [same] at removed ⊢
      exact removed
  exact ensures_of_run ran ((durable.stored loaded).dropInode clean rfl)

theorem reclaim (durable : Durable inos info sfs) :
    Ensures True (sfsReclaim ino) sfs fun _ after => Durable inos info after := by
  apply ensures_getSin
  intro sin loaded
  apply ensures_assert
  · intro _
    have kept : Durable inos info
        (sfs.setInode ino { sin with reclaimCount := sin.reclaimCount - 1 }) :=
      durable.recount loaded rfl rfl
    apply ensures_modify
    split_ifs
    · exact ensures_fail kept
    · exact kept.reclaimUnused setInode_self
  · exact fun _ => trivial

theorem refDec (durable : Durable inos info sfs) :
    Ensures True (vopRefDec ino) sfs fun _ after => Durable inos info after := by
  apply ensures_getSin
  intro sin loaded
  apply ensures_assert
  · intro _
    have kept : Durable inos info (sfs.setInode ino { sin with refCount := sin.refCount - 1 }) :=
      durable.recount loaded rfl rfl
    apply ensures_modify
    split_ifs
    · apply ensures_bind_attempt kept.reclaim
      exact fun _ _ kept' => ensures_pure kept'
    · exact ensures_pure kept
  · exact fun _ => trivial

theorem refInc (durable : Durable inos info sfs) :
    Ensures True (vopRefInc ino) sfs fun _ after => Durable inos info after := by
  apply ensures_getSin
  intro sin loaded
  exact ensures_modify_last (durable.recount loaded rfl rfl)

end Durable

/-! ## Syncing -/

/-- What is in memory is the same, but for the flags of the inodes. -/
structure SameMemory (sfs after : SfsFs) : Prop where
  blocks : after.blocks = sfs.blocks
  unusedBlocks : after.unusedBlocks = sfs.unusedBlocks
  freemap : after.freemap = sfs.freemap
  inodes : ∀ ino, (after.inodes ino).map SfsInode.din = (sfs.inodes ino).map SfsInode.din

theorem SameMemory.refl : SameMemory sfs sfs := ⟨rfl, rfl, rfl, fun _ => rfl⟩

theorem SameMemory.trans {middle : SfsFs} (first : SameMemory sfs middle)
    (second : SameMemory middle after) : SameMemory sfs after where
  blocks := second.blocks.trans first.blocks
  unusedBlocks := second.unusedBlocks.trans first.unusedBlocks
  freemap := second.freemap.trans first.freemap
  inodes ino := (second.inodes ino).trans (first.inodes ino)

theorem SameMemory.stored (loaded : sfs.inodes ino = some sin) :
    SameMemory sfs (sfs.stored ino sin) where
  blocks := by
    unfold SfsFs.stored
    split_ifs <;> rfl
  unusedBlocks := by
    unfold SfsFs.stored
    split_ifs <;> rfl
  freemap := by
    unfold SfsFs.stored
    split_ifs <;> rfl
  inodes other := by
    rw [stored_inodes loaded]
    by_cases same : other = ino
    · rw [same, Function.update_self, loaded]
      rfl
    · rw [Function.update_of_ne same]

theorem SameMemory.isSome (same : SameMemory sfs after) (ino : Nat) :
    (after.inodes ino).isSome = (sfs.inodes ino).isSome := by
  have inode := congrArg Option.isSome (same.inodes ino)
  rwa [Option.isSome_map, Option.isSome_map] at inode

/-- The inodes of a list, and those that were clean, are clean. -/
def CleanAfter (inodes : List Nat) (sfs after : SfsFs) : Prop :=
  ∀ ino sin, after.inodes ino = some sin →
    (ino ∈ inodes ∨ ∃ sin', sfs.inodes ino = some sin' ∧ sin'.dirty = false) → sin.dirty = false

/-- Syncing inodes that are in memory does not fail. -/
theorem Durable.syncInodes (durable : Durable inos info sfs) {inodes : List Nat}
    (inMemory : ∀ ino, ino ∈ inodes → (sfs.inodes ino).isSome = true) :
    ∃ after, sfsSyncInodes inodes sfs = .ok (.ok (), after) ∧ Durable inos info after ∧
      SameMemory sfs after ∧ CleanAfter inodes sfs after := by
  induction inodes generalizing sfs with
  | nil =>
      refine ⟨sfs, rfl, durable, SameMemory.refl, ?_⟩
      rintro ino sin loaded (impossible | ⟨sin', was, isClean⟩)
      · cases impossible
      · rw [loaded] at was
        rwa [Option.some.inj was]
  | cons first rest inductionHypothesis =>
      obtain ⟨sin, loaded⟩ := Option.isSome_iff_exists.mp (inMemory first (List.mem_cons_self))
      have one := run_fsync durable.consistent loaded
      have same := SameMemory.stored loaded
      obtain ⟨after, ran, durable', same', clean⟩ := inductionHypothesis (durable.stored loaded)
        fun ino member => by
          rw [same.isSome]
          exact inMemory ino (List.mem_cons_of_mem _ member)
      refine ⟨after, ?_, durable', same.trans same', ?_⟩
      · rw [sfsSyncInodes, run_bind (run_attempt one)]
        exact ran
      · intro ino found isFound before
        apply clean ino found isFound
        by_cases isFirst : ino = first
        · right
          rw [isFirst, stored_inodes loaded, Function.update_self]
          exact ⟨_, rfl, rfl⟩
        · rcases before with member | ⟨sin', was, isClean⟩
          · exact Or.inl ((List.mem_cons.mp member).resolve_left isFirst)
          · right
            rw [stored_inodes loaded, Function.update_of_ne isFirst]
            exact ⟨sin', was, isClean⟩

/-- Consecutive blocks of the disk are written. -/
def SfsFs.setBlocks (sfs : SfsFs) (buf : Bytes) (blkno nblks : Nat) : SfsFs :=
  { sfs with
    disk := fun block =>
      if blkno ≤ block ∧ block < blkno + nblks then buf.drop ((block - blkno) * sfsBlksize)
      else sfs.disk block }

theorem drop_drop (bytes : Bytes) (first second : Nat) :
    (bytes.drop first).drop second = bytes.drop (first + second) := by
  funext position
  rw [Bytes.drop, Bytes.drop, Bytes.drop, Nat.add_assoc]

theorem run_wblocks {buf : Bytes} {blkno nblks : Nat} (device : OnDevice sfs) (positive : 0 < blkno)
    (inside : blkno + nblks ≤ sfs.blocks) :
    sfsWblock buf blkno nblks sfs = .ok (.ok (), sfs.setBlocks buf blkno nblks) := by
  induction nblks generalizing sfs buf blkno with
  | zero =>
      have same : sfs.setBlocks buf blkno 0 = sfs := by
        have disk : (fun block => if blkno ≤ block ∧ block < blkno + 0 then
            buf.drop ((block - blkno) * sfsBlksize) else sfs.disk block) = sfs.disk := by
          funext block
          exact if_neg (by omega)
        rw [SfsFs.setBlocks, disk]
      rw [same]
      rfl
  | succ nblks inductionHypothesis =>
      have addressable : Addressable sfs blkno := ⟨by omega, by omega⟩
      have device' : OnDevice (sfs.setBlock blkno buf) := device.congr ⟨rfl, rfl, rfl⟩
      have rest := @inductionHypothesis (sfs.setBlock blkno buf) (buf.drop sfsBlksize) (blkno + 1)
        device' (by omega) (show blkno + 1 + nblks ≤ sfs.blocks by omega)
      rw [sfsWblock, run_bind (run_writeblock device addressable buf), rest]
      have disk : ((sfs.setBlock blkno buf).setBlocks (buf.drop sfsBlksize) (blkno + 1) nblks).disk =
          (sfs.setBlocks buf blkno (nblks + 1)).disk := by
        funext block
        simp only [SfsFs.setBlocks, SfsFs.setBlock, drop_drop]
        by_cases isFirst : block = blkno
        · subst isFirst
          rw [if_neg (by omega), if_pos (by omega), Function.update_self, Nat.sub_self, Nat.zero_mul]
          funext position
          rw [Bytes.drop, Nat.zero_add]
        · rw [Function.update_of_ne isFirst]
          by_cases beyond : blkno + 1 ≤ block ∧ block < blkno + 1 + nblks
          · rw [if_pos beyond, if_pos (by omega)]
            congr 1
            have steps : block - blkno = block - (blkno + 1) + 1 := by omega
            rw [steps, Nat.add_mul, Nat.one_mul, Nat.add_comm]
          · rw [if_neg beyond, if_neg (by omega)]
      have whole : (sfs.setBlock blkno buf).setBlocks (buf.drop sfsBlksize) (blkno + 1) nblks =
          sfs.setBlocks buf blkno (nblks + 1) := by
        unfold SfsFs.setBlocks at disk ⊢
        simp only [SfsFs.setBlock] at disk ⊢
        rw [disk]
      rw [whole]

/-- The state after superblock and free map were written. -/
def SfsFs.storeMetadata (sfs : SfsFs) (info : Bytes) : SfsFs :=
  ({ sfs with superDirty := false }.setBlock sfsBlknSuper
    (Bytes.zeros.overlay 0 superSize (sfs.super info).toBytes)).setBlocks (bitmapGetdata sfs.freemap)
    sfsBlknFreemap (sfsFreemapBlocks sfs.blocks)

theorem storeMetadata_disk (notMetadata : ¬ IsMetadata sfs block) :
    (sfs.storeMetadata info).disk block = sfs.disk block := by
  have notFreemap : ¬ (sfsBlknFreemap ≤ block ∧
      block < sfsBlknFreemap + sfsFreemapBlocks sfs.blocks) := fun inside => notMetadata (Or.inr inside)
  have notSuper : block ≠ sfsBlknSuper := fun same => notMetadata (Or.inl same)
  exact (if_neg notFreemap).trans (Function.update_of_ne notSuper _ _)

theorem run_syncSuper (device : OnDevice sfs) (nonempty : 0 < sfs.blocks) :
    sfsSyncSuper info sfs = .ok (.ok (), sfs.setBlock sfsBlknSuper
      (Bytes.zeros.overlay 0 superSize (sfs.super info).toBytes)) := by
  have fits := device.fits
  have found : sfsRwblockNolock sfsBlknSuper false sfs = .ok (.ok sfsBlknSuper, sfs) := by
    rw [sfsRwblockNolock, run_bind (show Program.read sfs = .ok (.ok sfs, sfs) from rfl),
      run_bind (run_assert sfs ⟨Or.inr rfl, nonempty⟩), disk0Block,
      run_bind (show Program.read sfs = .ok (.ok sfs, sfs) from rfl), if_neg (by decide), if_neg]
    · rfl
    · show ¬ 0 + 1 > sfs.dBlocks
      omega
  rw [sfsSyncSuper, run_bind (show Program.read sfs = .ok (.ok sfs, sfs) from rfl),
    sfsWriteblockNolock, run_bind found]
  rfl

theorem run_syncMetadata (consistent : Consistent sfs inos) (format : Format info sfs) :
    (do
      setSuperDirty false
      match ← Program.attempt (sfsSyncSuper info) with
      | .error ret => do
          setSuperDirty true
          Program.fail ret
      | .ok () => do
          match ← Program.attempt sfsSyncFreemap with
          | .error ret => do
              setSuperDirty true
              Program.fail ret
          | .ok () => pure () : SfsM Unit) sfs = .ok (.ok (), sfs.storeMetadata info) := by
  obtain ⟨_, inside⟩ := consistent.freemapBlocks_inside format
  have device : OnDevice { sfs with superDirty := false } := consistent.device.congr ⟨rfl, rfl, rfl⟩
  have super := @run_syncSuper { sfs with superDirty := false } info device format.nonempty
  let written := { sfs with superDirty := false }.setBlock sfsBlknSuper
    (Bytes.zeros.overlay 0 superSize (sfs.super info).toBytes)
  have device' : OnDevice written := device.congr ⟨rfl, rfl, rfl⟩
  have freemap : sfsSyncFreemap written = .ok (.ok (), sfs.storeMetadata info) :=
    run_wblocks device' (by decide) inside
  rw [run_bind (show setSuperDirty false sfs = .ok (.ok (), { sfs with superDirty := false }) from rfl),
    run_bind (run_attempt super)]
  exact run_bind (run_attempt freemap)

/-- Only the blocks of the metadata are written. -/
theorem Consistent.storeMetadata (consistent : Consistent sfs inos) :
    Consistent (sfs.storeMetadata info) inos := by
  have notMetadata : ∀ reference block, target sfs inos reference = some block →
      (∀ place, reference ≠ .metadata place) → ¬ IsMetadata sfs block := by
    intro reference block held proper isMetadata
    exact proper block (consistent.exact.once _ _ _ held (if_pos isMetadata))
  have inode : ∀ ino, ino ∈ inos → (sfs.storeMetadata info).disk ino = sfs.disk ino :=
    fun ino member => storeMetadata_disk (notMetadata _ _ (target_of_inode member) nofun)
  have dins : ∀ ino, ino ∈ inos → dinOf (sfs.storeMetadata info) ino = dinOf sfs ino :=
    fun ino member => dinOf_congr rfl fun _ => inode ino member
  have sameTarget : target (sfs.storeMetadata info) inos = target sfs inos := by
    apply target_congr (show (sfs.storeMetadata info).blocks = sfs.blocks from rfl)
    · exact fun ino member => congrArg DiskInode.indirect (dins ino member)
    · intro ino member index
      unfold slotAt
      rw [dins ino member]
      apply slotOf_congr ⟨fun _ _ => rfl, rfl⟩
      intro nonzero
      exact storeMetadata_disk (notMetadata _ _ (target_of_indirect member nonzero) nofun)
  refine ⟨?_, consistent.device.congr ⟨rfl, rfl, rfl⟩, consistent.known, ?_⟩
  · rw [sameTarget]
    exact consistent.exact
  · intro ino sin loaded isClean
    rw [inode ino (consistent.known ino sin loaded)]
    exact consistent.clean ino sin loaded isClean

theorem storeMetadata_onDisk (consistent : Consistent sfs inos) (format : Format info sfs) :
    MetadataOnDisk info (sfs.storeMetadata info) := by
  have format' : Format info (sfs.storeMetadata info) := format.congr ⟨rfl, rfl, rfl⟩
  apply MetadataOnDisk.of_stored consistent.storeMetadata format'
  · intro position inside
    have disk : (sfs.storeMetadata info).disk sfsBlknSuper =
        Bytes.zeros.overlay 0 superSize (sfs.super info).toBytes := by
      have notFreemap : ¬ (sfsBlknFreemap ≤ sfsBlknSuper ∧
          sfsBlknSuper < sfsBlknFreemap + sfsFreemapBlocks sfs.blocks) :=
        fun inside => absurd inside.1 (by decide)
      rw [SfsFs.storeMetadata, SfsFs.setBlocks]
      simp only []
      rw [if_neg notFreemap]
      exact Function.update_self sfsBlknSuper
        (Bytes.zeros.overlay 0 superSize (sfs.super info).toBytes) sfs.disk
    rw [disk, Bytes.overlay_inside (Nat.zero_le _) (by omega)]
    rfl
  · intro position inside
    have block : position / sfsBlksize < sfsFreemapBlocks sfs.blocks :=
      Nat.div_lt_of_lt_mul (lt_of_lt_of_eq inside (Nat.mul_comm _ _))
    have disk : (sfs.storeMetadata info).disk (sfsBlknFreemap + position / sfsBlksize) =
        (bitmapGetdata sfs.freemap).drop (position / sfsBlksize * sfsBlksize) := by
      have place : sfsBlknFreemap ≤ sfsBlknFreemap + position / sfsBlksize ∧
          sfsBlknFreemap + position / sfsBlksize < sfsBlknFreemap + sfsFreemapBlocks sfs.blocks :=
        ⟨Nat.le_add_right _ _, Nat.add_lt_add_left block _⟩
      refine (if_pos place).trans ?_
      rw [Nat.add_sub_cancel_left]
    rw [disk, Bytes.drop, Nat.div_add_mod']
    rfl

theorem Durable.storeMetadata (durable : Durable inos info sfs) :
    Durable inos info (sfs.storeMetadata info) where
  consistent := durable.consistent.storeMetadata
  inode ino sin loaded := by
    have kept := durable.inode ino sin loaded
    have notMetadata : ¬ IsMetadata sfs ino := by
      intro isMetadata
      have twice := durable.consistent.exact.once (.metadata ino) (.inode ino) ino (if_pos isMetadata)
        (target_of_inode (durable.consistent.known ino sin loaded))
      cases twice
    refine ⟨kept.storable, ?_⟩
    rw [storeMetadata_disk notMetadata]
    exact kept.clean
  format := durable.format.congr ⟨rfl, rfl, rfl⟩
  metadata _ := storeMetadata_onDisk durable.consistent durable.format

theorem mem_inodeList (consistent : Consistent sfs inos) :
    ino ∈ inodeList sfs ↔ (sfs.inodes ino).isSome = true := by
  rw [inodeList, List.mem_filter, List.mem_range]
  refine and_iff_right_of_imp fun inMemory => ?_
  obtain ⟨sin, loaded⟩ := Option.isSome_iff_exists.mp inMemory
  exact consistent.inode_small (consistent.known ino sin loaded)

/-- `sfs_sync` returns 0, and nothing is flagged after it. -/
theorem Durable.sync (durable : Durable inos info sfs) :
    ∃ after, sfsSync info sfs = .ok (.ok (), after) ∧ Durable inos info after ∧
      SameMemory sfs after ∧ after.superDirty = false ∧
      ∀ ino sin, after.inodes ino = some sin → sin.dirty = false := by
  obtain ⟨middle, ran, durable', same, clean⟩ :=
    durable.syncInodes fun ino member => (mem_inodeList durable.consistent).mp member
  have allClean : ∀ ino sin, middle.inodes ino = some sin → sin.dirty = false := by
    intro ino sin loaded
    apply clean ino sin loaded (Or.inl _)
    rw [mem_inodeList durable.consistent, ← same.isSome, loaded]
    rfl
  have start : sfsSync info sfs = (if middle.superDirty = true then do
      setSuperDirty false
      match ← Program.attempt (sfsSyncSuper info) with
      | .error ret => do
          setSuperDirty true
          Program.fail ret
      | .ok () => do
          match ← Program.attempt sfsSyncFreemap with
          | .error ret => do
              setSuperDirty true
              Program.fail ret
          | .ok () => pure ()
      else pure () : SfsM Unit) middle := by
    rw [sfsSync, run_bind (show Program.read sfs = .ok (.ok sfs, sfs) from rfl), run_bind ran]
    exact run_bind (show Program.read middle = .ok (.ok middle, middle) from rfl)
  by_cases dirty : middle.superDirty = true
  · refine ⟨middle.storeMetadata info, ?_, durable'.storeMetadata, ?_, rfl, allClean⟩
    · rw [start, if_pos dirty]
      exact run_syncMetadata durable'.consistent durable'.format
    · exact same.trans ⟨rfl, rfl, rfl, fun _ => rfl⟩
  · refine ⟨middle, ?_, durable', same, Bool.not_eq_true _ ▸ dirty, allClean⟩
    rw [start, if_neg dirty]
    rfl

/-! ## Runs -/

inductive VolumeCall
  | io (ino : Nat) (buf : Bytes) (offset : Int) (length : Nat) (write : Bool)
  | tryseek (ino : Nat) (pos : Int)
  | truncate (ino : Nat) (len : Int)
  | loadInode (ino : Nat)
  | refInc (ino : Nat)
  | refDec (ino : Nat)
  | reclaim (ino : Nat)
  | fsync (ino : Nat)
  | sync

def VolumeCall.run (info : Bytes) : VolumeCall → SfsM Unit
  | .io ino buf offset length write => do
      let _ ← sfsIoNolock ino buf offset length write
      pure ()
  | .tryseek ino pos => sfsTryseek ino pos
  | .truncate ino len => vopTruncate ino len
  | .loadInode ino => sfsLoadInode ino
  | .refInc ino => vopRefInc ino
  | .refDec ino => vopRefDec ino
  | .reclaim ino => sfsReclaim ino
  | .fsync ino => sfsFsync ino
  | .sync => sfsSync info

/-- The calls on a mounted volume with the inodes `inos`. A call may return an error. -/
def volumeMachine (inos : List Nat) (info : Bytes) : Machine SfsFs VolumeCall Stop where
  Admits _ call :=
    match call with
    | .loadInode ino => ino ∈ inos
    | _ => True
  answer sfs call :=
    match call.run info sfs with
    | .error stop => .error stop
    | .ok (_, after) => .ok after

/-- Every block that a call adds to a file is flagged. -/
def VolumeCall.Flags (sfs : SfsFs) : VolumeCall → Prop
  | .io ino _ offset length write => IoFlags sfs ino offset length write
  | .tryseek ino pos => ∀ sin, sfs.inodes ino = some sin → pos < sfsMaxFileSize →
      pos > sin.din.size → TruncateFlags sfs ino pos
  | .truncate ino len => TruncateFlags sfs ino len
  | _ => True

/-- What is not flagged is on disk as it is in memory. -/
structure NothingLost (info : Bytes) (sfs : SfsFs) : Prop where
  inode : ∀ ino sin, sfs.inodes ino = some sin → sin.dirty = false →
    SameInode (DiskInode.ofBytes (sfs.disk ino)) sin.din
  metadata : sfs.superDirty = false → MetadataOnDisk info sfs

/-- Mounting the disk again gives superblock and free map as in memory, and the inodes in memory
are those on disk. -/
structure RemountsAs (info : Bytes) (sfs synced : SfsFs) : Prop where
  memory : SameMemory sfs synced
  mounts : sfsDoMount synced.dBlocks synced.disk =
    .ok (.ok ({ synced with superDirty := false, inodes := fun _ => none }, info))
  inode : ∀ ino sin, synced.inodes ino = some sin →
    SameInode (DiskInode.ofBytes (synced.disk ino)) sin.din

theorem Lost.not_nothingLost (lost : Lost ino after) : ¬ NothingLost info after := by
  obtain ⟨sin, loaded, isClean, differs⟩ := lost
  exact fun nothing => differs (nothing.inode ino sin loaded isClean)

namespace Durable

theorem nothingLost (durable : Durable inos info sfs) : NothingLost info sfs :=
  ⟨fun ino sin loaded => (durable.inode ino sin loaded).clean, durable.metadata⟩

theorem vopTruncate {len : Int} (durable : Durable inos info sfs)
    (flags : TruncateFlags sfs ino len) :
    Ensures True (vopTruncate ino len) sfs fun _ after => Durable inos info after := by
  apply ensures_getSin
  intro sin loaded
  apply ensures_assert
  · exact fun _ => durable.truncfile loaded flags
  · exact fun _ => trivial

theorem vopTruncate_extended {len : Int} (durable : Durable inos info sfs)
    (unflagged : ¬ TruncateFlags sfs ino len) :
    Ensures True (Fs.vopTruncate ino len) sfs fun _ after => ∃ sin added sin',
      sfs.inodes ino = some sin ∧ sin.dirty = false ∧ 0 < added ∧
        Extended inos ino sfs sin added after sin' ∧ sin'.dirty = false := by
  apply ensures_getSin
  intro sin loaded
  apply ensures_assert
  · exact fun _ => durable.truncfile_extended unflagged
  · exact fun _ => trivial

theorem vopTruncate_lost {len : Int} (durable : Durable inos info sfs)
    (unflagged : ¬ TruncateFlags sfs ino len) :
    Ensures True (Fs.vopTruncate ino len) sfs fun _ after => Lost ino after := by
  apply (durable.vopTruncate_extended unflagged).weaken id
  rintro _ after ⟨sin, added, sin', loaded, wasClean, positive, extended, isClean⟩
  exact ⟨sin', extended.advanced.loaded, isClean,
    extended.lost durable loaded positive wasClean⟩

theorem call {call : VolumeCall} (durable : Durable inos info sfs)
    (admitted : (volumeMachine inos info).Admits sfs call) (flags : call.Flags sfs) :
    Ensures True (call.run info) sfs fun _ after => Durable inos info after := by
  cases call with
  | io ino buf offset length write =>
      exact ensures_bind (durable.io flags) (fun _ _ kept => ensures_pure kept) fun _ _ kept => kept
  | tryseek ino pos =>
      show Ensures True (sfsTryseek ino pos) sfs _
      unfold sfsTryseek
      split_ifs with invalid
      · exact ensures_fail durable
      · apply ensures_getSin
        intro sin loaded
        split_ifs with beyond
        · exact durable.vopTruncate (flags sin loaded (by omega) beyond)
        · exact ensures_pure durable
  | truncate ino len => exact durable.vopTruncate flags
  | loadInode ino => exact durable.loadInode admitted
  | refInc ino => exact durable.refInc
  | refDec ino => exact durable.refDec
  | reclaim ino => exact durable.reclaim
  | fsync ino =>
      show Ensures True (sfsFsync ino) sfs _
      cases loaded : sfs.inodes ino with
      | none =>
          apply ensures_getSin
          intro sin isLoaded
          rw [loaded] at isLoaded
          cases isLoaded
      | some sin =>
          exact ensures_of_run (run_fsync durable.consistent loaded) (durable.stored loaded)
  | sync =>
      obtain ⟨after, ran, kept, _⟩ := durable.sync
      exact ensures_of_run ran kept

theorem call_lost {call : VolumeCall} (durable : Durable inos info sfs)
    (unflagged : ¬ call.Flags sfs) :
    Ensures True (call.run info) sfs fun _ after => ∃ ino, Lost ino after := by
  cases call with
  | io ino buf offset length write =>
      apply ensures_bind (durable.io_lost unflagged)
      · exact fun _ _ lost => ensures_pure ⟨ino, lost⟩
      · exact fun _ _ lost => ⟨ino, lost⟩
  | tryseek ino pos =>
      unfold VolumeCall.Flags at unflagged
      push Not at unflagged
      obtain ⟨sin, loaded, limited, beyond, unflagged⟩ := unflagged
      show Ensures True (sfsTryseek ino pos) sfs _
      rw [sfsTryseek, if_neg (by omega)]
      apply ensures_bind_run (run_getSin loaded)
      rw [if_pos beyond]
      exact (durable.vopTruncate_lost unflagged).weaken id fun _ _ lost => ⟨ino, lost⟩
  | truncate ino len =>
      exact (durable.vopTruncate_lost unflagged).weaken id fun _ _ lost => ⟨ino, lost⟩
  | loadInode | refInc | refDec | reclaim | fsync | sync => exact absurd trivial unflagged

theorem step {call : VolumeCall} (durable : Durable inos info sfs)
    (step : (volumeMachine inos info).Step sfs call after) :
    (call.Flags sfs → Durable inos info after) ∧ (NothingLost info after → call.Flags sfs) := by
  obtain ⟨admitted, answered⟩ := step
  unfold volumeMachine at answered
  cases ran : call.run info sfs with
  | error stop =>
      simp only [ran] at answered
      cases answered
  | ok pair =>
      simp only [ran] at answered
      cases answered
      constructor
      · exact fun flags => (durable.call admitted flags).of_ok ran
      · intro nothing
        by_contra unflagged
        obtain ⟨ino, lost⟩ := (durable.call_lost unflagged).of_ok ran
        exact lost.not_nothingLost nothing

/-- A volume that was mounted. -/
theorem of_mount {dBlocks : Nat} {disk : Nat → Bytes}
    (mounts : sfsDoMount dBlocks disk = .ok (.ok (sfs, info))) (consistent : Consistent sfs inos) :
    Durable inos info sfs := by
  obtain ⟨format, onDisk, unloaded⟩ := mounted_of_mount mounts
  refine ⟨consistent, ?_, format, fun _ => onDisk⟩
  intro ino sin loaded
  rw [unloaded ino] at loaded
  cases loaded

theorem remountsAs (durable : Durable inos info sfs) :
    ∃ synced, sfsSync info sfs = .ok (.ok (), synced) ∧ RemountsAs info sfs synced := by
  obtain ⟨synced, ran, kept, same, metadata, clean⟩ := durable.sync
  refine ⟨synced, ran, same, ?_, ?_⟩
  · exact remount kept.consistent kept.format (kept.metadata metadata)
  · exact fun ino sin loaded => (kept.inode ino sin loaded).clean (clean ino sin loaded)

end Durable

/-- Where every call flags the blocks that it adds, whatever is not flagged is on disk in each
state of a run from a mounted volume, and mounting the volume again after a sync gives what was in
memory. A call that does not flag them leaves a clean inode that is not on disk. -/
theorem sfs_sync_durable {dBlocks : Nat} {disk : Nat → Bytes} {calls : List VolumeCall}
    (mounts : sfsDoMount dBlocks disk = .ok (.ok (sfs, info))) (consistent : Consistent sfs inos)
    (run : Run ((volumeMachine inos info).StepMeeting fun sfs call => call.Flags sfs) sfs calls
      after) :
    NothingLost info after ∧
      (∃ synced, sfsSync info after = .ok (.ok (), synced) ∧ RemountsAs info after synced) ∧
      ∀ call final, (volumeMachine inos info).Step after call final →
        (NothingLost info final ↔ call.Flags after) := by
  have durable : Durable inos info after :=
    run.invariant (Durable inos info) (fun _ _ _ kept step => (kept.step step.1).1 step.2)
      (Durable.of_mount mounts consistent)
  refine ⟨durable.nothingLost, durable.remountsAs, ?_⟩
  intro call final step
  obtain ⟨keeps, flags⟩ := durable.step step
  exact ⟨flags, fun isFlagged => (keeps isFlagged).nothingLost⟩

/-! ## A volume with an indirect block -/

/-- A file of 13 blocks, the last of which is the first entry of the indirect block. -/
def longDin : DiskInode :=
  ⟨53248, sfsTypeFile, 1, 13, fun index => if index < 12 then 3 + index else 0, 15⟩

/-- Eighteen blocks: the inode 1 has the blocks 3 to 14 and 16 and the indirect block 15, and the
block 17 is free. -/
def longSfs : SfsFs where
  blocks := 18
  unusedBlocks := 1
  superDirty := false
  freemapBits := 32768
  freemap := fun block => decide (block = 17)
  dBlocks := 18
  disk := fun block =>
    if block = 1 then Bytes.zeros.overlay 0 diskInodeSize longDin.toBytes
    else if block = 15 then Bytes.zeros.overlay 0 4 (Bytes.ofNumber 16)
    else Bytes.zeros
  inodes := fun _ => none

theorem longSfs_din : dinOf longSfs 1 =
    DiskInode.ofBytes (Bytes.zeros.overlay 0 diskInodeSize longDin.toBytes) := rfl

theorem longSfs_indirect : (dinOf longSfs 1).indirect = 15 := by
  rw [longSfs_din, DiskInode.stored_indirect]
  rfl

theorem longSfs_slot (index : Nat) : slotAt longSfs 1 index =
    if index < 12 then 3 + index else if index = 12 then 16 else 0 := by
  by_cases direct : index < sfsNdirect
  · have low : index < 12 := direct
    rw [slotAt, slotOf_direct direct, longSfs_din, DiskInode.stored_direct direct, if_pos low]
    show (if index < 12 then 3 + index else 0) % 2 ^ 32 = 3 + index
    rw [if_pos low]
    omega
  · have beyond : ¬ index < 12 := direct
    rw [if_neg beyond]
    by_cases inside : index < slotCount
    · have linked : (dinOf longSfs 1).indirect ≠ 0 := by
        rw [longSfs_indirect]
        decide
      rw [slotAt, slotOf_entry direct inside linked, longSfs_indirect]
      show (Bytes.zeros.overlay 0 4 (Bytes.ofNumber 16)).number ((index - 12) * 4) 4 = _
      by_cases first : index = 12
      · rw [if_pos first, first]
        exact Bytes.number_overlay_same (by decide)
      · rw [if_neg first, Bytes.number_overlay_apart (by omega), Bytes.number_zeros]
    · have notFirst : index ≠ 12 := by
        rintro rfl
        exact inside (by decide)
      rw [slotAt, slotOf_empty direct (Or.inl (Nat.not_lt.mp inside)), if_neg notFirst]

theorem longSfs_target {reference : Reference} {block : Nat} :
    target longSfs [1] reference = some block ↔
      (reference = .metadata 0 ∧ block = 0) ∨ (reference = .inode 1 ∧ block = 1) ∨
        (reference = .metadata 2 ∧ block = 2) ∨ (reference = .indirect 1 ∧ block = 15) ∨
        (reference = .slot 1 (block - 3) ∧ 3 ≤ block ∧ block < 15) ∨
        (reference = .slot 1 12 ∧ block = 16) := by
  cases reference with
  | metadata place =>
      have isMetadata : IsMetadata longSfs place ↔ place = 0 ∨ place = 2 := by
        show place = 0 ∨ (2 ≤ place ∧ place < 3) ↔ _
        omega
      unfold target
      simp only [isMetadata, Option.ite_none_right_eq_some, Option.some.injEq,
        Reference.metadata.injEq, reduceCtorEq, false_and, false_or, or_false]
      omega
  | inode ino =>
      unfold target
      simp only [List.mem_singleton, Option.ite_none_right_eq_some, Option.some.injEq,
        Reference.inode.injEq, reduceCtorEq, false_and, false_or, or_false]
      omega
  | indirect ino =>
      by_cases same : ino = 1
      · subst same
        rw [target, if_pos (List.mem_singleton.mpr rfl), longSfs_indirect, present_of_ne (by decide)]
        simp [eq_comm]
      · rw [target, if_neg (by simpa using same)]
        simp [same]
  | slot ino index =>
      by_cases same : ino = 1
      · subst same
        rw [target, if_pos (List.mem_singleton.mpr rfl), present_eq_some, longSfs_slot]
        simp only [reduceCtorEq, false_and, false_or, Reference.slot.injEq, true_and]
        split_ifs <;> omega
      · rw [target, if_neg (by simpa using same)]
        simp [same]

theorem longSfs_consistent : Consistent longSfs [1] where
  exact := {
    inRange := by
      intro reference block held
      show block < 18
      have cases := longSfs_target.mp held
      omega
    once := by
      intro reference other block held held'
      rcases longSfs_target.mp held with
          ⟨rfl, first⟩ | ⟨rfl, first⟩ | ⟨rfl, first⟩ | ⟨rfl, first⟩ | ⟨rfl, first⟩ | ⟨rfl, first⟩ <;>
        rcases longSfs_target.mp held' with
          ⟨rfl, second⟩ | ⟨rfl, second⟩ | ⟨rfl, second⟩ | ⟨rfl, second⟩ | ⟨rfl, second⟩ |
            ⟨rfl, second⟩ <;>
        first | rfl | omega
    used_iff := by
      intro block inside
      have bound : block < 18 := inside
      have free : longSfs.freemap block = false ↔ block ≠ 17 := decide_eq_false_iff_not
      rw [free]
      constructor
      · intro used
        have place : block = 0 ∨ block = 1 ∨ block = 2 ∨ block = 15 ∨ block = 16 ∨
            (3 ≤ block ∧ block < 15) := by omega
        rcases place with rfl | rfl | rfl | rfl | rfl | direct
        · exact ⟨_, longSfs_target.mpr (Or.inl ⟨rfl, rfl⟩)⟩
        · exact ⟨_, longSfs_target.mpr (Or.inr (Or.inl ⟨rfl, rfl⟩))⟩
        · exact ⟨_, longSfs_target.mpr (Or.inr (Or.inr (Or.inl ⟨rfl, rfl⟩)))⟩
        · exact ⟨_, longSfs_target.mpr (Or.inr (Or.inr (Or.inr (Or.inl ⟨rfl, rfl⟩))))⟩
        · exact ⟨_, longSfs_target.mpr
            (Or.inr (Or.inr (Or.inr (Or.inr (Or.inr ⟨rfl, rfl⟩)))))⟩
        · exact ⟨_, longSfs_target.mpr
            (Or.inr (Or.inr (Or.inr (Or.inr (Or.inl ⟨rfl, direct⟩)))))⟩
      · rintro ⟨reference, held⟩
        have cases := longSfs_target.mp held
        omega
    freeInRange := by
      intro block isFree
      have last : block = 17 := of_decide_eq_true isFree
      exact last ▸ (by decide : 17 < 18)
    counted := rfl }
  device := ⟨by decide, by decide, by decide⟩
  known _ _ loaded := nomatch loaded
  clean _ _ loaded := nomatch loaded

/-- The volume as it is on its disk. -/
def longVolume : SfsFs := longSfs.storeMetadata Bytes.zeros

theorem longVolume_consistent : Consistent longVolume [1] := longSfs_consistent.storeMetadata

theorem longVolume_mounts :
    sfsDoMount longVolume.dBlocks longVolume.disk = .ok (.ok (longVolume, Bytes.zeros)) := by
  have format : Format Bytes.zeros longSfs := ⟨by decide, by decide, fun _ _ => rfl⟩
  exact remount longVolume_consistent (format.congr ⟨rfl, rfl, rfl⟩)
    (storeMetadata_onDisk longSfs_consistent format)

/-- The volume with the inode in memory. -/
def longOpen : SfsFs :=
  longVolume.setInode 1 ⟨DiskInode.ofBytes (longVolume.disk 1), false, 1, 1⟩

theorem longOpen_din : (dinOf longOpen 1) = dinOf longSfs 1 := dinOf_loaded setInode_self

/-- Loading an inode that has links and is a file. -/
theorem run_loadInode (consistent : Consistent sfs inos) (member : ino ∈ inos)
    (absent : sfs.inodes ino = none) (linked : (DiskInode.ofBytes (sfs.disk ino)).nlinks ≠ 0)
    (isFile : (DiskInode.ofBytes (sfs.disk ino)).type = sfsTypeFile) :
    sfsLoadInode ino sfs =
      .ok (.ok (), sfs.setInode ino ⟨DiskInode.ofBytes (sfs.disk ino), false, 1, 1⟩) := by
  have addressable := consistent.of_held (target_of_inode member) nofun
  have used := consistent.used (target_of_inode member)
  have whole : (sfs.disk ino).drop 0 = sfs.disk ino := by
    funext position
    rw [Bytes.drop, Nat.zero_add]
  have bytes : sfsRbuf diskInodeSize ino 0 sfs = .ok (.ok (sfs.disk ino), sfs) := by
    rw [run_rbuf consistent.device addressable (by decide), whole]
  rw [sfsLoadInode, run_bind (show Program.read sfs = .ok (.ok sfs, sfs) from rfl), absent]
  simp only []
  rw [run_bind (run_inuse consistent.device addressable),
    run_bind (run_assert sfs (by rw [used]; rfl)), run_bind bytes, run_bind (run_assert sfs linked),
    sfsGetOps, if_pos (Or.inr isFile)]
  rfl

theorem longOpen_step : (volumeMachine [1] Bytes.zeros).Step longVolume (.loadInode 1) longOpen := by
  have linked : (dinOf longSfs 1).nlinks ≠ 0 := by
    rw [longSfs_din, DiskInode.stored_nlinks]
    decide
  have isFile : (dinOf longSfs 1).type = sfsTypeFile := by
    rw [longSfs_din, DiskInode.stored_type]
    decide
  have ran := run_loadInode longVolume_consistent (List.mem_singleton.mpr rfl) rfl linked isFile
  refine ⟨List.mem_singleton.mpr rfl, ?_⟩
  unfold volumeMachine
  simp only [VolumeCall.run, ran]
  rfl

theorem longOpen_slot (index : Nat) : slotAt longOpen 1 index =
    if index < 12 then 3 + index else if index = 12 then 16 else 0 := by
  rw [← longSfs_slot]
  unfold slotAt
  rw [longOpen_din]
  apply slotOf_congr ⟨fun _ _ => rfl, rfl⟩
  intro _
  rw [longSfs_indirect]
  have notMetadata : ¬ IsMetadata longSfs 15 := by
    show ¬ (15 = 0 ∨ (2 ≤ 15 ∧ 15 < 3))
    decide
  have same : longOpen.disk = (longSfs.storeMetadata Bytes.zeros).disk := rfl
  rw [same]
  exact storeMetadata_disk notMetadata

theorem longDin_stored : (dinOf longSfs 1).blocks = 13 ∧ (dinOf longSfs 1).size = 53248 ∧
    (dinOf longSfs 1).type = sfsTypeFile := by
  rw [longSfs_din, DiskInode.stored_blocks, DiskInode.stored_size, DiskInode.stored_type]
  decide

theorem longOpen_durable : Durable [1] Bytes.zeros longOpen :=
  ((Durable.of_mount longVolume_mounts longVolume_consistent).step longOpen_step).1 trivial

theorem longOpen_linked : (dinOf longOpen 1).indirect ≠ 0 := by
  rw [longOpen_din, longSfs_indirect]
  decide

/-- The blocks 13 and 14 of the file take a free block each. -/
theorem longOpen_cost : growthCost longOpen 1 13 1 = 1 ∧ growthCost longOpen 1 13 2 = 2 := by
  have slots : slotAt longOpen 1 13 = 0 ∧ slotAt longOpen 1 14 = 0 := by
    rw [longOpen_slot, longOpen_slot]
    decide
  constructor
  · rw [growthCost, emptySlots, emptySlots, slots.1]
    simp [longOpen_linked, slotCount, sfsNdirect, sfsBlkNentry]
  · rw [growthCost, emptySlots, emptySlots, emptySlots, slots.1, slots.2]
    simp [longOpen_linked, slotCount, sfsNdirect, sfsBlkNentry]

/-- There is a free block for the fourteenth block of the file. -/
theorem longOpen_flagged : TruncateFlags longOpen 1 57344 := by
  obtain ⟨blocks, _, _⟩ := longDin_stored
  intro sin loaded _ _
  obtain rfl : SfsInode.mk (dinOf longSfs 1) false 1 1 = sin :=
    Option.some.inj (setInode_self.symm.trans loaded)
  right
  have missing : fileBlocks (Int.toNat 57344) - 13 = 1 := by decide
  rw [missingBlocks, show (dinOf longSfs 1).blocks = 13 from blocks, missing, longOpen_cost.1]
  exact Nat.le_refl 1

/-- Growing the file to fifteen blocks takes two free blocks, of which there is only one, and no
new indirect block. -/
theorem longOpen_unflagged : ¬ TruncateFlags longOpen 1 61440 := by
  obtain ⟨blocks, _, _⟩ := longDin_stored
  obtain ⟨one, two⟩ := longOpen_cost
  let sin : SfsInode := ⟨dinOf longSfs 1, false, 1, 1⟩
  have loaded : longOpen.inodes 1 = some sin := setInode_self
  have missing : missingBlocks sin 61440 = 2 := by
    rw [missingBlocks, show sin.din.blocks = 13 from blocks]
    decide
  have unused : longOpen.unusedBlocks = 1 := rfl
  intro flags
  have grows := flags sin loaded (by decide) (by decide)
  rw [missing, GrowthFlagged, show sin.din.blocks = 13 from blocks, unused, two] at grows
  rcases grows with (dirty | full | ⟨place, low, room, _, direct | none⟩) | enough
  · cases dirty
  · omega
  · unfold sfsNdirect at direct
    omega
  · exact longOpen_linked none
  · omega

theorem longOpen_returns :
    ∃ result after, vopTruncate 1 61440 longOpen = .ok (result, after) := by
  obtain ⟨blocks, size, isFile⟩ := longDin_stored
  let sin : SfsInode := ⟨dinOf longSfs 1, false, 1, 1⟩
  have loaded : longOpen.inodes 1 = some sin := setInode_self
  have file : RegularFile longOpen 1 sin := by
    refine ⟨loaded, isFile, ?_, ?_⟩
    · rw [show sin.din.blocks = 13 from blocks, show sin.din.size = 53248 from size]
      rfl
    · intro index low _
      rw [show sin.din.blocks = 13 from blocks] at low
      rw [longOpen_slot]
      split_ifs <;> omega
  have mapped : ¬ ¬ (61440 : Int) ≤ mappedSize := by
    unfold mappedSize slotCount sfsNdirect sfsBlkNentry sfsBlksize
    omega
  obtain ⟨result, after, ran, _⟩ :=
    (ensures_truncate longOpen_durable.consistent file).returns mapped
  refine ⟨result, after, ?_⟩
  rw [vopTruncate, run_bind (run_getSin loaded), run_bind (run_assert longOpen isFile)]
  exact ran

/-- Syncing clean inodes writes none of them. -/
theorem run_syncInodes_clean {inodes : List Nat} (clean : ∀ ino, ino ∈ inodes →
    ∃ sin, sfs.inodes ino = some sin ∧ sin.dirty = false) :
    sfsSyncInodes inodes sfs = .ok (.ok (), sfs) := by
  induction inodes with
  | nil => rfl
  | cons ino rest inductionHypothesis =>
      obtain ⟨sin, loaded, isClean⟩ := clean ino List.mem_cons_self
      have one : sfsFsync ino sfs = .ok (.ok (), sfs) := by
        rw [sfsFsync, run_bind (run_getSin loaded), isClean]
        rfl
      rw [sfsSyncInodes, run_bind (run_attempt one)]
      exact inductionHypothesis fun other member => clean other (List.mem_cons_of_mem _ member)

/-- Where all inodes are clean, a sync writes at most the metadata. -/
theorem run_sync_clean (consistent : Consistent sfs inos) (format : Format info sfs)
    (clean : ∀ ino sin, sfs.inodes ino = some sin → sin.dirty = false) :
    ∃ after, sfsSync info sfs = .ok (.ok (), after) ∧ after.inodes = sfs.inodes ∧
      ∀ block, ¬ IsMetadata sfs block → after.disk block = sfs.disk block := by
  have none : sfsSyncInodes (inodeList sfs) sfs = .ok (.ok (), sfs) := by
    apply run_syncInodes_clean
    intro ino member
    obtain ⟨sin, loaded⟩ := Option.isSome_iff_exists.mp ((mem_inodeList consistent).mp member)
    exact ⟨sin, loaded, clean ino sin loaded⟩
  by_cases dirty : sfs.superDirty = true
  · refine ⟨sfs.storeMetadata info, ?_, rfl, fun block => storeMetadata_disk⟩
    rw [sfsSync, run_bind (show Program.read sfs = .ok (.ok sfs, sfs) from rfl), run_bind none,
      run_bind (show Program.read sfs = .ok (.ok sfs, sfs) from rfl), if_pos dirty]
    exact run_syncMetadata consistent format
  · refine ⟨sfs, ?_, rfl, fun _ _ => rfl⟩
    rw [sfsSync, run_bind (show Program.read sfs = .ok (.ok sfs, sfs) from rfl), run_bind none,
      run_bind (show Program.read sfs = .ok (.ok sfs, sfs) from rfl), if_neg dirty]
    rfl

/-- Neither a truncate that does not flag its growth nor the sync after it writes the number of
blocks to disk. -/
theorem longOpen_unsynced {len : Int} (unflagged : ¬ TruncateFlags longOpen 1 len)
    (returns : ∃ result after, vopTruncate 1 len longOpen = .ok (result, after)) :
    ∃ grown after sin,
    Run (volumeMachine [1] Bytes.zeros).Step longVolume [.loadInode 1, .truncate 1 len] grown ∧
    sfsSync Bytes.zeros grown = .ok (.ok (), after) ∧
    Run (volumeMachine [1] Bytes.zeros).Step longVolume
      [.loadInode 1, .truncate 1 len, .sync] after ∧
    after.inodes 1 = some sin ∧ sin.dirty = false ∧
    (DiskInode.ofBytes (after.disk 1)).blocks ≠ sin.din.blocks := by
  obtain ⟨result, middle, ran⟩ := returns
  have truncated : (volumeMachine [1] Bytes.zeros).Step longOpen (.truncate 1 len) middle := by
    refine ⟨trivial, ?_⟩
    unfold volumeMachine
    simp only [VolumeCall.run, ran]
  have grown := (longOpen_durable.vopTruncate_extended unflagged).of_ok ran
  obtain ⟨sin, added, sin', loaded, wasClean, positive, extended, isClean⟩ := grown
  have advanced := extended.advanced
  have format := longOpen_durable.format.congr advanced.settled.device
  have clean : ∀ ino found, middle.inodes ino = some found → found.dirty = false := by
    intro ino found isFound
    obtain rfl := List.mem_singleton.mp (advanced.consistent.known ino found isFound)
    rwa [← Option.some.inj (advanced.loaded.symm.trans isFound)]
  obtain ⟨after, synced, inodes, disk⟩ := run_sync_clean advanced.consistent format clean
  have syncs : (volumeMachine [1] Bytes.zeros).Step middle .sync after := by
    refine ⟨trivial, ?_⟩
    unfold volumeMachine
    simp only [VolumeCall.run, synced]
  refine ⟨middle, after, sin', .cons longOpen_step (.single truncated), synced,
    .cons longOpen_step (.cons truncated (.single syncs)), ?_, isClean, ?_⟩
  · rw [inodes]
    exact advanced.loaded
  · have notMetadata : ¬ IsMetadata middle 1 := by
      intro isMetadata
      have twice := advanced.consistent.exact.once (.metadata 1) (.inode 1) 1 (if_pos isMetadata)
        (target_of_inode (List.mem_singleton.mpr rfl))
      cases twice
    have lost := extended.advanced.settled.fixed 1 fun movable =>
      movable.2 (List.mem_singleton.mpr rfl)
    have stored := ((longOpen_durable.inode 1 sin loaded).clean wasClean).header.blocks
    rw [disk 1 notMetadata, lost, stored, extended.blocks]
    omega

/-- A truncate that runs out of free blocks while it adds entries to an indirect block: neither it
nor the sync after it, which answers 0, writes the number of blocks to disk, and the inode is clean. -/
theorem sfs_truncfile_unsynced : ∃ grown after sin,
    sfsDoMount longVolume.dBlocks longVolume.disk = .ok (.ok (longVolume, Bytes.zeros)) ∧
    Run (volumeMachine [1] Bytes.zeros).Step longVolume [.loadInode 1, .truncate 1 61440] grown ∧
    sfsSync Bytes.zeros grown = .ok (.ok (), after) ∧
    Run (volumeMachine [1] Bytes.zeros).Step longVolume
      [.loadInode 1, .truncate 1 61440, .sync] after ∧
    after.inodes 1 = some sin ∧ sin.dirty = false ∧
    (DiskInode.ofBytes (after.disk 1)).blocks ≠ sin.din.blocks := by
  obtain ⟨grown, after, sin, grows, synced, run, loaded, isClean, differs⟩ :=
    longOpen_unsynced longOpen_unflagged longOpen_returns
  exact ⟨grown, after, sin, longVolume_mounts, grows, synced, run, loaded, isClean, differs⟩

/-- The file grows by a block, and a sync writes its inode. -/
theorem sfs_sync_durable_long : ∃ after sin,
    Run ((volumeMachine [1] Bytes.zeros).StepMeeting fun sfs call => call.Flags sfs) longVolume
      [.loadInode 1, .truncate 1 57344, .sync] after ∧
    after.inodes 1 = some sin ∧ sin.din.blocks = 14 ∧ sin.dirty = false ∧
    (DiskInode.ofBytes (after.disk 1)).blocks = 14 ∧
    NothingLost Bytes.zeros after ∧
      (∃ synced, sfsSync Bytes.zeros after = .ok (.ok (), synced) ∧
        RemountsAs Bytes.zeros after synced) ∧
      ∀ call final, (volumeMachine [1] Bytes.zeros).Step after call final →
        (NothingLost Bytes.zeros final ↔ call.Flags after) := by
  have done : ((((volumeMachine [1] Bytes.zeros).answer longOpen (.truncate 1 57344)).toOption.bind
      fun grown => ((volumeMachine [1] Bytes.zeros).answer grown .sync).toOption.map fun after =>
        (grown, after)).any fun states =>
          (states.2.inodes 1).any fun sin => decide (sin.din.blocks = 14 ∧ sin.dirty = false) &&
            decide ((DiskInode.ofBytes (states.2.disk 1)).blocks = 14)) = true := by decide +kernel
  obtain ⟨⟨grown, after⟩, ran, checks⟩ := (Option.any_eq_true _ _).mp done
  obtain ⟨middle, grows, rest⟩ := Option.bind_eq_some_iff.mp ran
  obtain ⟨last, syncs, same⟩ := Option.map_eq_some_iff.mp rest
  obtain ⟨rfl, rfl⟩ := Prod.mk.inj same
  obtain ⟨sin, loaded, isGrown⟩ := (Option.any_eq_true _ _).mp checks
  obtain ⟨inMemory, onDisk⟩ := (Bool.and_eq_true _ _).mp isGrown
  obtain ⟨blocks, isClean⟩ := of_decide_eq_true inMemory
  have run : Run ((volumeMachine [1] Bytes.zeros).StepMeeting fun sfs call => call.Flags sfs)
      longVolume [.loadInode 1, .truncate 1 57344, .sync] last :=
    .cons ⟨longOpen_step, trivial⟩ (.cons ⟨⟨trivial, ok_of_toOption grows⟩, longOpen_flagged⟩
      (.single ⟨⟨trivial, ok_of_toOption syncs⟩, trivial⟩))
  exact ⟨last, sin, run, loaded, blocks, isClean, of_decide_eq_true onDisk,
    sfs_sync_durable longVolume_mounts longVolume_consistent run⟩

end UCore.Fs
