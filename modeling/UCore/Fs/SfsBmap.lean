import UCore.Fs.SfsSlots

/-!
Contract: what the functions on the block map do to a consistent file system.

Owns:
- the free map stays exact when a slot or an indirect block is filled or emptied;
- one specification for each of looking up, loading and freeing a block of a file.

A specification says when the function can stop. Where it returns, the file system is consistent
and at most the slot it was asked for has changed.

Does not own: transfers of data, and runs of several calls.
-/

set_option autoImplicit false

namespace UCore.Fs

open UCore.Lib UCore.Lib.Program

variable {sfs after : SfsFs} {inos : List Nat} {ino index block : Nat} {sin sin' : SfsInode}

/-! ## Consistency of a changed state -/

/-- Size of the file system, device and free map are the same. -/
structure SameDevice (sfs after : SfsFs) : Prop where
  blocks : after.blocks = sfs.blocks
  dBlocks : after.dBlocks = sfs.dBlocks
  freemapBits : after.freemapBits = sfs.freemapBits

theorem OnDevice.congr (device : OnDevice sfs) (same : SameDevice sfs after) : OnDevice after := by
  obtain ⟨fits, small, mapped⟩ := device
  constructor
  · rwa [same.blocks, same.dBlocks]
  · rwa [same.dBlocks]
  · rwa [same.blocks, same.freemapBits]

/-- A block that neither the metadata nor an inode is in. -/
def Movable (sfs : SfsFs) (inos : List Nat) (block : Nat) : Prop :=
  ¬ IsMetadata sfs block ∧ block ∉ inos

/-- The metadata and the inodes on disk are the same, and a change of the free map is marked. -/
structure Settled (inos : List Nat) (sfs after : SfsFs) : Prop where
  device : SameDevice sfs after
  fixed : ∀ block, ¬ Movable sfs inos block → after.disk block = sfs.disk block
  marked : after.superDirty = true ∨ (after.superDirty = sfs.superDirty ∧
    after.freemap = sfs.freemap ∧ after.unusedBlocks = sfs.unusedBlocks)

theorem Movable.congr (same : SameDevice sfs after) :
    Movable after inos block ↔ Movable sfs inos block := by
  unfold Movable IsMetadata
  rw [same.blocks]

namespace Settled

theorem refl : Settled inos sfs sfs := ⟨⟨rfl, rfl, rfl⟩, fun _ _ => rfl, Or.inr ⟨rfl, rfl, rfl⟩⟩

theorem trans {middle : SfsFs} (first : Settled inos sfs middle)
    (second : Settled inos middle after) : Settled inos sfs after where
  device := ⟨second.device.blocks.trans first.device.blocks,
    second.device.dBlocks.trans first.device.dBlocks,
    second.device.freemapBits.trans first.device.freemapBits⟩
  fixed block still := by
    have stillMiddle : ¬ Movable middle inos block := fun moves =>
      still ((Movable.congr first.device).mp moves)
    exact (second.fixed block stillMiddle).trans (first.fixed block still)
  marked := by
    rcases second.marked with dirty | ⟨dirty, freemap, unused⟩
    · exact Or.inl dirty
    · rcases first.marked with dirty' | ⟨dirty', freemap', unused'⟩
      · exact Or.inl (dirty.trans dirty')
      · exact Or.inr ⟨dirty.trans dirty', freemap.trans freemap', unused.trans unused'⟩

theorem setInode : Settled inos sfs (sfs.setInode ino sin) :=
  ⟨⟨rfl, rfl, rfl⟩, fun _ _ => rfl, Or.inr ⟨rfl, rfl, rfl⟩⟩

theorem setBlock {bytes : Bytes} (movable : Movable sfs inos block) :
    Settled inos sfs (sfs.setBlock block bytes) where
  device := ⟨rfl, rfl, rfl⟩
  fixed other still := by
    apply Function.update_of_ne
    intro same
    exact still (same ▸ movable)
  marked := Or.inr ⟨rfl, rfl, rfl⟩

theorem take (movable : Movable sfs inos block) : Settled inos sfs (sfs.take block) where
  device := ⟨rfl, rfl, rfl⟩
  fixed := (@setBlock sfs inos block Bytes.zeros movable).fixed
  marked := Or.inl rfl

theorem give : Settled inos sfs (sfs.give block) :=
  ⟨⟨rfl, rfl, rfl⟩, fun _ _ => rfl, Or.inl rfl⟩

end Settled

/-- Every clean inode was there, clean, and its block on disk is the same. -/
def CleanKept (sfs after : SfsFs) : Prop :=
  ∀ ino sin, after.inodes ino = some sin → sin.dirty = false →
    sfs.inodes ino = some sin ∧ after.disk ino = sfs.disk ino

namespace Consistent

theorem clean_of_kept (consistent : Consistent sfs inos) (kept : CleanKept sfs after) :
    ∀ ino sin, after.inodes ino = some sin → sin.dirty = false →
      SamePointers sin.din (DiskInode.ofBytes (after.disk ino)) := by
  intro ino sin loaded isClean
  obtain ⟨was, disk⟩ := kept ino sin loaded isClean
  rw [disk]
  exact consistent.clean ino sin was isClean

theorem movable_of_free (consistent : Consistent sfs inos) (free : sfs.freemap block = true) :
    Movable sfs inos block := by
  refine ⟨fun isMetadata => ?_, fun member => ?_⟩
  · exact consistent.exact.not_held free (.metadata block) (if_pos isMetadata)
  · exact consistent.exact.not_held free (.inode block) (target_of_inode member)

/-- The block of a slot, or an indirect block. -/
theorem movable_of_held {reference : Reference} (consistent : Consistent sfs inos)
    (held : target sfs inos reference = some block)
    (notMetadata : ∀ place, reference ≠ .metadata place)
    (notInode : ∀ place, reference ≠ .inode place) : Movable sfs inos block := by
  refine ⟨fun isMetadata => ?_, fun member => ?_⟩
  · exact notMetadata block (consistent.exact.once _ _ _ held (if_pos isMetadata))
  · exact notInode block (consistent.exact.once _ _ _ held (target_of_inode member))

theorem known_of_onlySlot (consistent : Consistent sfs inos)
    (change : OnlySlot inos ino index sfs after) :
    ∀ other sin, after.inodes other = some sin → other ∈ inos := by
  intro other sin loaded
  by_cases same : other = ino
  · subst same
    have was : (sfs.inodes other).isSome = true := by
      rw [← change.loaded, loaded]
      rfl
    obtain ⟨sin', was⟩ := Option.isSome_iff_exists.mp was
    exact consistent.known other sin' was
  · rw [change.others other same] at loaded
    exact consistent.known other sin loaded

theorem inode_small (consistent : Consistent sfs inos) (member : ino ∈ inos) : ino < sfs.blocks :=
  consistent.exact.inRange (.inode ino) ino (target_of_inode member)

theorem block_small (consistent : Consistent sfs inos) (inside : block < sfs.blocks) :
    block < 2 ^ 32 := by
  have small := consistent.device.small
  have fits := consistent.device.fits
  omega

variable (consistent : Consistent sfs inos) (same : SameDevice sfs after) (kept : CleanKept sfs after)
  (change : OnlySlot inos ino index sfs after)
include consistent same kept change

/-- Free map and slots are as before. -/
theorem unchanged (indirects : ∀ other, other ∈ inos →
      (dinOf after other).indirect = (dinOf sfs other).indirect)
    (slot : ino ∈ inos → slotAt after ino index = slotAt sfs ino index)
    (map : after.freemap = sfs.freemap) (unused : after.unusedBlocks = sfs.unusedBlocks) :
    Consistent after inos where
  exact := by
    have sameTarget : target after inos = target sfs inos := by
      apply target_congr same.blocks indirects
      intro other member place
      by_cases changed : other = ino ∧ place = index
      · obtain ⟨rfl, rfl⟩ := changed
        exact slot member
      · apply change.slots other member place
        by_contra neither
        push Not at neither
        exact changed neither
    rw [same.blocks, map, unused, sameTarget]
    exact consistent.exact
  device := consistent.device.congr same
  known := consistent.known_of_onlySlot change
  clean := consistent.clean_of_kept kept

variable (member : ino ∈ inos)
include member

/-- A free block goes to an empty slot. -/
theorem fill (indirects : ∀ other, other ∈ inos →
      (dinOf after other).indirect = (dinOf sfs other).indirect)
    (empty : slotAt sfs ino index = 0) (filled : slotAt after ino index = block)
    (free : sfs.freemap block = true) (map : after.freemap = Function.update sfs.freemap block false)
    (unused : after.unusedBlocks = sfs.unusedBlocks - 1) : Consistent after inos where
  exact := by
    have vacant : target sfs inos (.slot ino index) = none := by
      rw [target, if_pos member, empty, present_zero]
    rw [same.blocks, map, unused, target_slot same.blocks member indirects change.slots, filled,
      present_of_ne (consistent.of_free free).1]
    exact consistent.exact.assign free vacant
  device := consistent.device.congr same
  known := consistent.known_of_onlySlot change
  clean := consistent.clean_of_kept kept

/-- A slot is emptied and its block freed. -/
theorem empty (indirects : ∀ other, other ∈ inos →
      (dinOf after other).indirect = (dinOf sfs other).indirect)
    (filled : slotAt sfs ino index ≠ 0) (emptied : slotAt after ino index = 0)
    (map : after.freemap = Function.update sfs.freemap (slotAt sfs ino index) true)
    (unused : after.unusedBlocks = sfs.unusedBlocks + 1) : Consistent after inos where
  exact := by
    rw [same.blocks, map, unused, target_slot same.blocks member indirects change.slots, emptied,
      present_zero]
    exact consistent.exact.release (target_of_slot member filled)
  device := consistent.device.congr same
  known := consistent.known_of_onlySlot change
  clean := consistent.clean_of_kept kept

/-- A free block becomes the indirect block of an inode that had none. -/
theorem fillIndirect (indirects : ∀ other, other ∈ inos → other ≠ ino →
      (dinOf after other).indirect = (dinOf sfs other).indirect)
    (slot : slotAt after ino index = slotAt sfs ino index)
    (none : (dinOf sfs ino).indirect = 0) (filled : (dinOf after ino).indirect = block)
    (free : sfs.freemap block = true) (map : after.freemap = Function.update sfs.freemap block false)
    (unused : after.unusedBlocks = sfs.unusedBlocks - 1) : Consistent after inos where
  exact := by
    have vacant : target sfs inos (.indirect ino) = .none := by
      rw [target, if_pos member, none, present_zero]
    have slots : ∀ other, other ∈ inos → ∀ place,
        slotAt after other place = slotAt sfs other place := by
      intro other isMember place
      by_cases changed : other = ino ∧ place = index
      · rw [changed.1, changed.2, slot]
      · apply change.slots other isMember place
        by_contra neither
        push Not at neither
        exact changed neither
    rw [same.blocks, map, unused, target_indirect same.blocks member indirects slots, filled,
      present_of_ne (consistent.of_free free).1]
    exact consistent.exact.assign free vacant
  device := consistent.device.congr same
  known := consistent.known_of_onlySlot change
  clean := consistent.clean_of_kept kept

end Consistent

/-! ## Inodes in memory -/

@[simp] theorem setInode_self : (sfs.setInode ino sin).inodes ino = some sin :=
  Function.update_self _ _ _

@[simp] theorem setInode_setInode : (sfs.setInode ino sin).setInode ino sin' = sfs.setInode ino sin' := by
  simp only [SfsFs.setInode, Function.update_idem]

theorem run_getSin (loaded : sfs.inodes ino = some sin) : getSin ino sfs = .ok (.ok sin, sfs) := by
  rw [getSin, run_bind (show Program.read sfs = .ok (.ok sfs, sfs) from rfl), loaded]
  rfl

theorem run_updateDin {change : DiskInode → DiskInode} (loaded : sfs.inodes ino = some sin) :
    updateDin ino change sfs =
      .ok (.ok (), sfs.setInode ino { sin with din := change sin.din }) := by
  rw [updateDin, run_bind (run_getSin loaded)]
  rfl

theorem run_setDirty {dirty : Bool} (loaded : sfs.inodes ino = some sin) :
    setDirty ino dirty sfs = .ok (.ok (), sfs.setInode ino { sin with dirty := dirty }) := by
  rw [setDirty, run_bind (run_getSin loaded)]
  rfl

/-- A change of the disk inode that is marked dirty. -/
theorem run_updateDin_dirty {α : Type} {change : DiskInode → DiskInode} {rest : SfsM α}
    (loaded : sfs.inodes ino = some sin) :
    (do
      updateDin ino change
      setDirty ino true
      rest : SfsM α) sfs =
      rest (sfs.setInode ino { sin with din := change sin.din, dirty := true }) := by
  rw [run_bind (run_updateDin loaded), run_bind (run_setDirty setInode_self), setInode_setInode]

/-! ## Allocation -/

theorem firstFree_free (first : firstFree sfs = some block) : sfs.freemap block = true :=
  List.find?_some first

namespace Consistent

theorem run_alloc (consistent : Consistent sfs inos) (first : firstFree sfs = some block) :
    sfsBlockAlloc sfs = .ok (.ok block, sfs.take block) :=
  run_blockAlloc_some consistent.device (consistent.of_free (firstFree_free first)) first
    (consistent.exact.unused_pos (firstFree_free first))

theorem slot_ne_of_free (consistent : Consistent sfs inos) (free : sfs.freemap block = true)
    (member : ino ∈ inos) (nonzero : slotAt sfs ino index ≠ 0) : slotAt sfs ino index ≠ block := by
  intro same
  exact consistent.exact.not_held free _ (same ▸ target_of_slot member nonzero)

theorem onlySlot_take (consistent : Consistent sfs inos) (free : sfs.freemap block = true) :
    OnlySlot inos ino index sfs (sfs.take block) := by
  have cleared : OnlySlot inos ino index sfs (sfs.setBlock block Bytes.zeros) :=
    OnlySlot.setBlock (consistent.unread_of_free free)
      fun _ member _ nonzero => consistent.slot_ne_of_free free member nonzero
  exact cleared.trans (OnlySlot.of_same rfl rfl)

theorem dinOf_take (consistent : Consistent sfs inos) (free : sfs.freemap block = true)
    (member : ino ∈ inos) : dinOf (sfs.take block) ino = dinOf sfs ino :=
  (consistent.unread_of_free free).dinOf member

theorem slotAt_take (consistent : Consistent sfs inos) (free : sfs.freemap block = true)
    (member : ino ∈ inos) : slotAt (sfs.take block) ino index = slotAt sfs ino index :=
  (consistent.unread_of_free free).slotAt member

/-- The references are distinct after a free block was taken, too. -/
theorem distinct_take (consistent : Consistent sfs inos) (free : sfs.freemap block = true) :
    ∀ left right held, target (sfs.take block) inos left = some held →
      target (sfs.take block) inos right = some held → left = right := by
  have same : target (sfs.take block) inos = target sfs inos := by
    apply target_congr (show (sfs.take block).blocks = sfs.blocks from rfl)
    · intro ino member
      rw [consistent.dinOf_take free member]
    · intro ino member index
      exact consistent.slotAt_take free member
  rw [same]
  exact consistent.exact.once

theorem cleanKept_take (consistent : Consistent sfs inos) (free : sfs.freemap block = true) :
    CleanKept sfs (sfs.take block) := by
  intro ino sin loaded _
  refine ⟨loaded, Function.update_of_ne ?_ _ _⟩
  intro same
  exact consistent.exact.not_held free (.inode ino)
    (same ▸ target_of_inode (consistent.known ino sin loaded))

end Consistent

theorem CleanKept.trans {middle : SfsFs} (first : CleanKept sfs middle)
    (second : CleanKept middle after) : CleanKept sfs after := by
  intro ino sin loaded isClean
  obtain ⟨inMiddle, disk⟩ := second ino sin loaded isClean
  obtain ⟨was, disk'⟩ := first ino sin inMiddle isClean
  exact ⟨was, disk.trans disk'⟩

/-- An inode that becomes dirty. -/
theorem CleanKept.setInode (dirty : sin.dirty = true) : CleanKept sfs (sfs.setInode ino sin) := by
  intro other sin' loaded isClean
  by_cases same : other = ino
  · subst same
    rw [setInode_self] at loaded
    rw [← Option.some.inj loaded, dirty] at isClean
    cases isClean
  · rw [show (sfs.setInode ino sin).inodes other = sfs.inodes other from
      Function.update_of_ne same _ _] at loaded
    exact ⟨loaded, rfl⟩

/-- A block is written that is the block of no inode in memory. -/
theorem CleanKept.setBlock {bytes : Bytes} (notInode : sfs.inodes block = none) :
    CleanKept sfs (sfs.setBlock block bytes) := by
  intro other sin' loaded _
  refine ⟨loaded, Function.update_of_ne ?_ _ _⟩
  rintro rfl
  rw [show (sfs.setBlock other bytes).inodes other = sfs.inodes other from rfl, notInode] at loaded
  cases loaded

/-- The contents of a block change that no inode is read from. -/
theorem Consistent.setBlock {bytes : Bytes} (consistent : Consistent sfs inos)
    (unread : Unread sfs inos block) (notInode : sfs.inodes block = none) :
    Consistent (sfs.setBlock block bytes) inos where
  exact := by
    have sameTarget : target (sfs.setBlock block bytes) inos = target sfs inos := by
      apply target_congr (show (sfs.setBlock block bytes).blocks = sfs.blocks from rfl)
      · intro other member
        rw [unread.dinOf member]
      · exact fun other member index => unread.slotAt member
    rw [sameTarget]
    exact consistent.exact
  device := consistent.device.congr ⟨rfl, rfl, rfl⟩
  known := consistent.known
  clean := consistent.clean_of_kept (CleanKept.setBlock notInode)

theorem Consistent.slot_notInode (consistent : Consistent sfs inos)
    (held : target sfs inos (.slot ino index) = some block) : sfs.inodes block = none := by
  cases isLoaded : sfs.inodes block with
  | none => rfl
  | some other =>
      have twice := consistent.exact.once _ _ _ held
        (target_of_inode (consistent.known block other isLoaded))
      cases twice

/-! ## Looking up a block -/

/-- The block at `index` was found, or allocated. -/
structure Placed (inos : List Nat) (ino index : Nat) (create : Bool) (sfs : SfsFs) (block : Nat)
    (after : SfsFs) : Prop where
  consistent : Consistent after inos
  change : OnlySlot inos ino index sfs after
  slot : slotAt after ino index = block
  filled : create = true → block ≠ 0
  found : create = false ∨ slotAt sfs ino index ≠ 0 → after = sfs

/-- No block was left for `index`, which has none. -/
structure Refused (inos : List Nat) (ino index : Nat) (sfs : SfsFs) (ret : Errno)
    (after : SfsFs) : Prop where
  noMem : ret = .noMem
  consistent : Consistent after inos
  change : OnlySlot inos ino index sfs after
  empty : slotAt sfs ino index = 0
  still : slotAt after ino index = 0

def Got (inos : List Nat) (ino index : Nat) (create : Bool) (sfs : SfsFs) :
    Except Errno Nat → SfsFs → Prop
  | .ok block, after => Placed inos ino index create sfs block after
  | .error ret, after => create = true ∧ Refused inos ino index sfs ret after

namespace Consistent

variable {create : Bool} {bytes : Bytes}

theorem placed_same (consistent : Consistent sfs inos) (slot : slotAt sfs ino index = block)
    (filled : create = true → block ≠ 0) : Placed inos ino index create sfs block sfs :=
  ⟨consistent, OnlySlot.refl, slot, filled, fun _ => rfl⟩

theorem refused_same (consistent : Consistent sfs inos) (empty : slotAt sfs ino index = 0) :
    Refused inos ino index sfs .noMem sfs :=
  ⟨rfl, consistent, OnlySlot.refl, empty, empty⟩

/-- A free block goes to a direct slot. -/
theorem placed_direct (consistent : Consistent sfs inos) (loaded : sfs.inodes ino = some sin)
    (direct : index < sfsNdirect) (empty : slotAt sfs ino index = 0)
    (free : sfs.freemap block = true)
    (changed : sin'.din = { sin.din with direct := Function.update sin.din.direct index block })
    (dirty : sin'.dirty = true) :
    Placed inos ino index true sfs block ((sfs.take block).setInode ino sin') := by
  have member := consistent.known ino sin loaded
  obtain ⟨change, slot⟩ := @OnlySlot.setDirect (sfs.take block) inos ino index block sin sin'
    loaded direct changed
  have whole := (consistent.onlySlot_take free).trans change
  have device : SameDevice sfs ((sfs.take block).setInode ino sin') := ⟨rfl, rfl, rfl⟩
  have kept : CleanKept sfs ((sfs.take block).setInode ino sin') :=
    (consistent.cleanKept_take free).trans (CleanKept.setInode dirty)
  have indirects : ∀ other, other ∈ inos →
      (dinOf ((sfs.take block).setInode ino sin') other).indirect =
        (dinOf sfs other).indirect := by
    intro other isMember
    by_cases same : other = ino
    · rw [same, dinOf_loaded setInode_self, dinOf_loaded loaded, changed]
    · rw [← consistent.dinOf_take free isMember]
      exact congrArg DiskInode.indirect
        (dinOf_congr (Function.update_of_ne same _ _) fun _ => rfl)
  have after := consistent.fill device kept whole member indirects empty slot free rfl rfl
  refine ⟨after, whole, slot, fun _ => (consistent.of_free free).1, ?_⟩
  rintro (isFalse | filled)
  · cases isFalse
  · exact absurd empty filled

/-- A free block goes to an entry of the indirect block. -/
theorem placed_entry (consistent : Consistent sfs inos) (loaded : sfs.inodes ino = some sin)
    (beyond : ¬ index < sfsNdirect) (inside : index < slotCount) (nonzero : sin.din.indirect ≠ 0)
    (empty : slotAt sfs ino index = 0) (free : sfs.freemap block = true)
    (written : bytes = (sfs.disk sin.din.indirect).overlay ((index - sfsNdirect) * 4) 4
      (Bytes.ofNumber block)) :
    Placed inos ino index true sfs block ((sfs.take block).setBlock sin.din.indirect bytes) := by
  have member := consistent.known ino sin loaded
  have din : dinOf (sfs.take block) ino = sin.din := dinOf_loaded loaded
  have apart : sin.din.indirect ≠ block := by
    rw [← dinOf_loaded loaded] at nonzero ⊢
    exact (consistent.unread_of_free free).notIndirect ino member nonzero
  have disk : (sfs.take block).disk sin.din.indirect = sfs.disk sin.din.indirect :=
    Function.update_of_ne apart _ _
  obtain ⟨change, slot, dins⟩ := @OnlySlot.setEntry (sfs.take block) inos ino index block
    (consistent.distinct_take free) member beyond inside (din ▸ nonzero)
    (consistent.block_small (consistent.of_free free).2)
  rw [din, disk, ← written] at change slot dins
  have whole := (consistent.onlySlot_take free).trans change
  have device : SameDevice sfs ((sfs.take block).setBlock sin.din.indirect bytes) :=
    ⟨rfl, rfl, rfl⟩
  have held : target sfs inos (.indirect ino) = some sin.din.indirect := by
    rw [← dinOf_loaded loaded] at nonzero ⊢
    exact target_of_indirect member nonzero
  have notInode : sfs.inodes sin.din.indirect = none := by
    cases isLoaded : sfs.inodes sin.din.indirect with
    | none => rfl
    | some other =>
        have twice := consistent.exact.once _ _ _ held
          (target_of_inode (consistent.known _ other isLoaded))
        cases twice
  have kept : CleanKept sfs ((sfs.take block).setBlock sin.din.indirect bytes) :=
    (consistent.cleanKept_take free).trans (CleanKept.setBlock notInode)
  have indirects : ∀ other, other ∈ inos →
      (dinOf ((sfs.take block).setBlock sin.din.indirect bytes) other).indirect =
        (dinOf sfs other).indirect := by
    intro other isMember
    rw [dins other isMember, consistent.dinOf_take free isMember]
  have after := consistent.fill device kept whole member indirects empty slot free rfl rfl
  refine ⟨after, whole, slot, fun _ => (consistent.of_free free).1, ?_⟩
  rintro (isFalse | filled)
  · cases isFalse
  · exact absurd empty filled

/-- A free block becomes the indirect block. -/
theorem withIndirect (consistent : Consistent sfs inos) (loaded : sfs.inodes ino = some sin)
    (none : sin.din.indirect = 0) (free : sfs.freemap block = true)
    (changed : sin'.din = { sin.din with indirect := block }) (dirty : sin'.dirty = true) :
    Consistent ((sfs.take block).setInode ino sin') inos ∧
      OnlySlot inos ino index sfs ((sfs.take block).setInode ino sin') ∧
      slotAt ((sfs.take block).setInode ino sin') ino index = slotAt sfs ino index := by
  have member := consistent.known ino sin loaded
  obtain ⟨change, slots⟩ := @OnlySlot.setIndirect (sfs.take block) inos ino index block sin sin'
    loaded none (Function.update_self _ _ _) changed
  have whole := (consistent.onlySlot_take free).trans change
  have slot : slotAt ((sfs.take block).setInode ino sin') ino index = slotAt sfs ino index :=
    (slots index).trans (consistent.slotAt_take free member)
  have device : SameDevice sfs ((sfs.take block).setInode ino sin') := ⟨rfl, rfl, rfl⟩
  have kept : CleanKept sfs ((sfs.take block).setInode ino sin') :=
    (consistent.cleanKept_take free).trans (CleanKept.setInode dirty)
  have indirects : ∀ other, other ∈ inos → other ≠ ino →
      (dinOf ((sfs.take block).setInode ino sin') other).indirect =
        (dinOf sfs other).indirect := by
    intro other isMember apart
    rw [← consistent.dinOf_take free isMember]
    exact congrArg DiskInode.indirect
      (dinOf_congr (Function.update_of_ne apart _ _) fun _ => rfl)
  have filled : (dinOf ((sfs.take block).setInode ino sin') ino).indirect = block := by
    rw [dinOf_loaded setInode_self, changed]
  have before : (dinOf sfs ino).indirect = 0 := by rw [dinOf_loaded loaded, none]
  exact ⟨consistent.fillIndirect device kept whole member indirects slot before filled free rfl rfl,
    whole, slot⟩

/-- A free block is taken and given back. -/
theorem takeGive (consistent : Consistent sfs inos) (free : sfs.freemap block = true)
    (member : ino ∈ inos) :
    Consistent ((sfs.take block).give block) inos ∧
      OnlySlot inos ino index sfs ((sfs.take block).give block) ∧
      slotAt ((sfs.take block).give block) ino index = slotAt sfs ino index := by
  have change : OnlySlot inos ino index sfs ((sfs.take block).give block) :=
    (consistent.onlySlot_take free).trans (OnlySlot.of_same rfl rfl)
  have slot : slotAt ((sfs.take block).give block) ino index = slotAt sfs ino index :=
    consistent.slotAt_take free member
  have device : SameDevice sfs ((sfs.take block).give block) := ⟨rfl, rfl, rfl⟩
  have kept : CleanKept sfs ((sfs.take block).give block) := consistent.cleanKept_take free
  have map : ((sfs.take block).give block).freemap = sfs.freemap := by
    show Function.update (Function.update sfs.freemap block false) block true = sfs.freemap
    rw [Function.update_idem, ← free, Function.update_eq_self]
  have unused : ((sfs.take block).give block).unusedBlocks = sfs.unusedBlocks :=
    Nat.sub_add_cancel (consistent.exact.unused_pos free)
  have indirects : ∀ other, other ∈ inos →
      (dinOf ((sfs.take block).give block) other).indirect = (dinOf sfs other).indirect :=
    fun other isMember => congrArg DiskInode.indirect (consistent.dinOf_take free isMember)
  exact ⟨consistent.unchanged device kept change indirects (fun _ => slot) map unused, change, slot⟩

end Consistent

theorem slotAt_loaded (loaded : sfs.inodes ino = some sin) :
    slotAt sfs ino index = slotOf sfs.disk sin.din index := by
  rw [slotAt, dinOf_loaded loaded]

namespace Consistent

theorem addressable_indirect (consistent : Consistent sfs inos)
    (loaded : sfs.inodes ino = some sin) (nonzero : sin.din.indirect ≠ 0) :
    Addressable sfs sin.din.indirect := by
  have member := consistent.known ino sin loaded
  rw [← dinOf_loaded loaded] at nonzero ⊢
  exact consistent.of_held (target_of_indirect member nonzero) nofun

theorem addressable_slot (consistent : Consistent sfs inos) (member : ino ∈ inos)
    (nonzero : slotAt sfs ino index ≠ 0) : Addressable sfs (slotAt sfs ino index) :=
  consistent.of_held (target_of_slot member nonzero) nofun

/-- An entry fits into a block. -/
theorem entry_inside {entry : Nat} (inside : entry < sfsBlkNentry) :
    entry * 4 < sfsBlksize ∧ entry * 4 + 4 ≤ sfsBlksize := by
  unfold sfsBlkNentry at inside
  unfold sfsBlksize
  omega

end Consistent

theorem run_attempt {α : Type} {program : SfsM α} {result : Except Errno α}
    (ran : program sfs = .ok (result, after)) :
    Program.attempt program sfs = .ok (.ok result, after) := by
  rw [Program.attempt, ran]

section NewEntry

variable {entp ent entry : Nat}

theorem run_newEntry_none (full : firstFree sfs = none) :
    bmapNewEntry ent ent entry sfs = .ok (.error .noMem, sfs) := by
  rw [bmapNewEntry, run_bind (run_attempt (run_blockAlloc_none full))]
  simp only [ne_eq, not_true_eq_false, if_false]
  rfl

theorem run_newEntry_none_new (full : firstFree sfs = none) (isNew : ent ≠ entp)
    (device : OnDevice sfs) (addressable : Addressable sfs ent) (used : sfs.freemap ent = false) :
    bmapNewEntry entp ent entry sfs = .ok (.error .noMem, sfs.give ent) := by
  rw [bmapNewEntry, run_bind (run_attempt (run_blockAlloc_none full))]
  simp only [if_pos isNew]
  rw [run_bind (run_blockFree device addressable used)]
  rfl

theorem run_newEntry_some (allocated : sfsBlockAlloc sfs = .ok (.ok block, after))
    (device : OnDevice after) (addressable : Addressable after ent) (inside : entry < sfsBlkNentry) :
    bmapNewEntry entp ent entry sfs = .ok (.ok (ent, block),
      after.setBlock ent ((after.disk ent).overlay (entry * 4) 4 (Bytes.ofNumber block))) := by
  have written := run_wbuf device addressable (Consistent.entry_inside inside)
    (Bytes.ofNumber block)
  rw [bmapNewEntry, run_bind (run_attempt allocated)]
  simp only []
  rw [run_bind (run_attempt written)]
  rfl

end NewEntry

section GetSub

variable {ent entry : Nat} {create : Bool}

theorem run_getSub_found (device : OnDevice sfs) (addressable : Addressable sfs ent)
    (inside : entry < sfsBlkNentry)
    (found : entryOf (sfs.disk ent) entry ≠ 0 ∨ create = false) :
    sfsBmapGetSubNolock ent entry create sfs =
      .ok (.ok (ent, entryOf (sfs.disk ent) entry), sfs) := by
  have read := run_rbuf device addressable (Consistent.entry_inside inside)
  rw [sfsBmapGetSubNolock, run_bind (run_assert sfs inside), if_pos addressable.1, run_bind read]
  have same : ((sfs.disk ent).drop (entry * 4)).number 0 4 = entryOf (sfs.disk ent) entry :=
    Bytes.number_drop _ _ _
  simp only [same, if_pos found]
  rfl

theorem run_getSub_missing (device : OnDevice sfs) (addressable : Addressable sfs ent)
    (inside : entry < sfsBlkNentry) (missing : entryOf (sfs.disk ent) entry = 0) :
    sfsBmapGetSubNolock ent entry true sfs = bmapNewEntry ent ent entry sfs := by
  have read := run_rbuf device addressable (Consistent.entry_inside inside)
  rw [sfsBmapGetSubNolock, run_bind (run_assert sfs inside), if_pos addressable.1, run_bind read]
  have same : ((sfs.disk ent).drop (entry * 4)).number 0 4 = entryOf (sfs.disk ent) entry :=
    Bytes.number_drop _ _ _
  have absent : ¬ (((sfs.disk ent).drop (entry * 4)).number 0 4 ≠ 0 ∨ true = false) := by
    rw [same, missing]
    simp
  simp only [if_neg absent]

theorem run_getSub_none (inside : entry < sfsBlkNentry) :
    sfsBmapGetSubNolock 0 entry false sfs = .ok (.ok (0, 0), sfs) := by
  rw [sfsBmapGetSubNolock, run_bind (run_assert sfs inside)]
  rfl

theorem run_getSub_new (inside : entry < sfsBlkNentry)
    (allocated : sfsBlockAlloc sfs = .ok (.ok ent, after)) :
    sfsBmapGetSubNolock 0 entry true sfs = bmapNewEntry 0 ent entry after := by
  rw [sfsBmapGetSubNolock, run_bind (run_assert sfs inside)]
  show (sfsBlockAlloc >>= fun ent => bmapNewEntry 0 ent entry) sfs = _
  rw [run_bind allocated]

theorem run_getSub_full (inside : entry < sfsBlkNentry) (full : firstFree sfs = none) :
    sfsBmapGetSubNolock 0 entry true sfs = .ok (.error .noMem, sfs) := by
  rw [sfsBmapGetSubNolock, run_bind (run_assert sfs inside)]
  show (sfsBlockAlloc >>= fun ent => bmapNewEntry 0 ent entry) sfs = _
  rw [run_bind_error (run_blockAlloc_none full)]

end GetSub

section GetBlock

variable {create : Bool} (consistent : Consistent sfs inos) (loaded : sfs.inodes ino = some sin)
include consistent loaded

theorem ensures_getDirect (direct : index < sfsNdirect) :
    Ensures False (bmapGetBlock ino index create) sfs (Got inos ino index create sfs) := by
  have slot : slotAt sfs ino index = sin.din.direct index := by
    rw [slotAt_loaded loaded, slotOf_direct direct]
  by_cases missing : sin.din.direct index = 0 ∧ create = true
  · obtain ⟨empty, rfl⟩ := missing
    rw [empty] at slot
    have start : bmapGetBlock ino index true sfs = (do
        let block ← sfsBlockAlloc
        updateDin ino fun din => { din with direct := Function.update din.direct index block }
        setDirty ino true
        pure block : SfsM Nat) sfs := by
      rw [bmapGetBlock, run_bind (run_getSin loaded), if_pos direct, if_pos ⟨empty, rfl⟩]
    cases first : firstFree sfs with
    | none =>
        apply @ensures_of_run _ _ _ _ _ _ _ _ (.error .noMem) sfs
        · rw [start, run_bind_error (run_blockAlloc_none first)]
        · exact ⟨rfl, consistent.refused_same slot⟩
    | some block =>
        have free := firstFree_free first
        apply ensures_of_run
        · rw [start, run_bind (consistent.run_alloc first)]
          apply run_updateDin_dirty (show (sfs.take block).inodes ino = some sin from loaded)
        · exact consistent.placed_direct loaded direct slot free rfl rfl
  · apply @ensures_of_run _ _ _ _ _ _ _ _ (.ok (sin.din.direct index)) sfs
    · rw [bmapGetBlock, run_bind (run_getSin loaded), if_pos direct, if_neg missing]
      rfl
    · apply consistent.placed_same slot
      intro isCreate zero
      exact missing ⟨zero, isCreate⟩

variable (beyond : ¬ index < sfsNdirect)
include beyond

omit consistent in
theorem run_getIndirect_same (inside : index < slotCount)
    (got : sfsBmapGetSubNolock sin.din.indirect (index - sfsNdirect) create sfs =
      .ok (.ok (sin.din.indirect, block), after)) :
    bmapGetBlock ino index create sfs = .ok (.ok block, after) := by
  have entry : index - sfsNdirect < sfsBlkNentry := by
    unfold slotCount at inside
    omega
  rw [bmapGetBlock, run_bind (run_getSin loaded), if_neg beyond, if_pos entry, run_bind got]
  simp only [ne_eq, not_true_eq_false, if_false]
  rfl

omit consistent in
theorem run_getIndirect_error {ret : Errno} (inside : index < slotCount)
    (got : sfsBmapGetSubNolock sin.din.indirect (index - sfsNdirect) create sfs =
      .ok (.error ret, after)) :
    bmapGetBlock ino index create sfs = .ok (.error ret, after) := by
  have entry : index - sfsNdirect < sfsBlkNentry := by
    unfold slotCount at inside
    omega
  rw [bmapGetBlock, run_bind (run_getSin loaded), if_neg beyond, if_pos entry, run_bind_error got]

omit consistent in
theorem run_getIndirect_new {ent : Nat} (inside : index < slotCount) (none : sin.din.indirect = 0)
    (nonzero : ent ≠ 0) (still : after.inodes ino = some sin)
    (got : sfsBmapGetSubNolock 0 (index - sfsNdirect) create sfs =
      .ok (.ok (ent, block), after)) :
    bmapGetBlock ino index create sfs = .ok (.ok block, after.setInode ino { sin with
      din := { sin.din with indirect := ent }
      dirty := true }) := by
  have entry : index - sfsNdirect < sfsBlkNentry := by
    unfold slotCount at inside
    omega
  rw [← none] at got nonzero
  rw [bmapGetBlock, run_bind (run_getSin loaded), if_neg beyond, if_pos entry, run_bind got]
  simp only [if_pos nonzero]
  rw [run_bind (run_assert after none)]
  exact run_updateDin_dirty still

/-- The inode has an indirect block. -/
theorem ensures_getIndirect (inside : index < slotCount) (nonzero : sin.din.indirect ≠ 0) :
    Ensures False (bmapGetBlock ino index create) sfs (Got inos ino index create sfs) := by
  have entry : index - sfsNdirect < sfsBlkNentry := by
    unfold slotCount at inside
    omega
  have slot : slotAt sfs ino index =
      entryOf (sfs.disk sin.din.indirect) (index - sfsNdirect) := by
    rw [slotAt_loaded loaded, slotOf_entry beyond inside nonzero]
  have addressable := consistent.addressable_indirect loaded nonzero
  by_cases found : entryOf (sfs.disk sin.din.indirect) (index - sfsNdirect) ≠ 0 ∨ create = false
  · apply ensures_of_run (run_getIndirect_same loaded beyond inside
      (run_getSub_found consistent.device addressable entry found))
    apply consistent.placed_same slot
    rintro rfl
    exact found.resolve_right nofun
  · push Not at found
    obtain ⟨missing, isCreate⟩ := found
    obtain rfl : create = true := by simpa using isCreate
    rw [missing] at slot
    have start := run_getSub_missing consistent.device addressable entry missing
    cases first : firstFree sfs with
    | none =>
        apply ensures_of_run (run_getIndirect_error loaded beyond inside
          (start.trans (run_newEntry_none first)))
        exact ⟨rfl, consistent.refused_same slot⟩
    | some block =>
        have free := firstFree_free first
        have apart : sin.din.indirect ≠ block := by
          rw [← dinOf_loaded loaded] at nonzero ⊢
          exact (consistent.unread_of_free free).notIndirect ino
            (consistent.known ino sin loaded) nonzero
        have disk : (sfs.take block).disk sin.din.indirect = sfs.disk sin.din.indirect :=
          Function.update_of_ne apart _ _
        have device : OnDevice (sfs.take block) := consistent.device.congr ⟨rfl, rfl, rfl⟩
        apply ensures_of_run (run_getIndirect_same loaded beyond inside
          (start.trans (run_newEntry_some (consistent.run_alloc first) device addressable entry)))
        exact consistent.placed_entry loaded beyond inside nonzero slot free (by rw [disk])

/-- The inode has no indirect block. -/
theorem ensures_getIndirect_new (inside : index < slotCount) (none : sin.din.indirect = 0) :
    Ensures False (bmapGetBlock ino index create) sfs (Got inos ino index create sfs) := by
  have entry : index - sfsNdirect < sfsBlkNentry := by
    unfold slotCount at inside
    omega
  have slot : slotAt sfs ino index = 0 := by
    rw [slotAt_loaded loaded, slotOf_empty beyond (Or.inr none)]
  have member := consistent.known ino sin loaded
  cases create with
  | false =>
      apply ensures_of_run (run_getIndirect_same loaded beyond inside
        (by rw [none]; exact run_getSub_none entry))
      exact consistent.placed_same slot nofun
  | true =>
      cases first : firstFree sfs with
      | none =>
          apply ensures_of_run (run_getIndirect_error loaded beyond inside
            (by rw [none]; exact run_getSub_full entry first))
          exact ⟨rfl, consistent.refused_same slot⟩
      | some ent =>
          have free := firstFree_free first
          have start := run_getSub_new entry (consistent.run_alloc first)
          have device : OnDevice (sfs.take ent) := consistent.device.congr ⟨rfl, rfl, rfl⟩
          have addressable : Addressable (sfs.take ent) ent := consistent.of_free free
          cases second : firstFree (sfs.take ent) with
          | none =>
              have used : (sfs.take ent).freemap ent = false := Function.update_self _ _ _
              have refused := @run_newEntry_none_new (sfs.take ent) 0 ent (index - sfsNdirect)
                second addressable.1 device addressable used
              apply ensures_of_run (run_getIndirect_error loaded beyond inside
                (by rw [none]; exact start.trans refused))
              obtain ⟨still, change, same⟩ :=
                @Consistent.takeGive sfs inos ino index ent consistent free member
              exact ⟨rfl, rfl, still, change, slot, same.trans slot⟩
          | some block =>
              let sin' : SfsInode :=
                { sin with din := { sin.din with indirect := ent }, dirty := true }
              obtain ⟨linked, change, same⟩ := @Consistent.withIndirect sfs inos ino index ent sin sin'
                consistent loaded none free rfl rfl
              have free' : ((sfs.take ent).setInode ino sin').freemap block = true :=
                firstFree_free second
              have allocated : sfsBlockAlloc (sfs.take ent) =
                  .ok (.ok block, (sfs.take ent).take block) :=
                run_blockAlloc_some device (linked.of_free free') second
                  (linked.exact.unused_pos free')
              have device' : OnDevice ((sfs.take ent).take block) := device.congr ⟨rfl, rfl, rfl⟩
              have entered := @run_newEntry_some (sfs.take ent) _ block 0 ent (index - sfsNdirect)
                allocated device' addressable entry
              apply ensures_of_run (run_getIndirect_new loaded beyond inside none addressable.1
                (by exact loaded) (start.trans entered))
              have apart : ent ≠ block := by
                have differs := (linked.unread_of_free free').notIndirect ino member
                rw [dinOf_loaded setInode_self] at differs
                exact differs addressable.1
              have disk : ((sfs.take ent).take block).disk ent = (sfs.take ent).disk ent :=
                Function.update_of_ne apart _ _
              have placed := linked.placed_entry setInode_self beyond inside addressable.1
                (same.trans slot) free' rfl
              rw [disk]
              refine ⟨placed.consistent, change.trans placed.change, placed.slot, placed.filled, ?_⟩
              rintro (isFalse | filled)
              · cases isFalse
              · exact absurd slot filled

omit beyond in
/-- The lookup stops only where `index` is out of range. -/
theorem ensures_bmapGetBlock :
    Ensures (¬ index < slotCount) (bmapGetBlock ino index create) sfs
      (Got inos ino index create sfs) := by
  by_cases direct : index < sfsNdirect
  · exact (ensures_getDirect consistent loaded direct).weaken False.elim fun _ _ post => post
  by_cases inside : index < slotCount
  · by_cases none : sin.din.indirect = 0
    · exact (ensures_getIndirect_new consistent loaded direct inside none).weaken False.elim
        fun _ _ post => post
    · exact (ensures_getIndirect consistent loaded direct inside none).weaken False.elim
        fun _ _ post => post
  · have outside : ¬ index - sfsNdirect < sfsBlkNentry := by
      unfold slotCount at inside
      omega
    unfold Ensures
    rw [bmapGetBlock, run_bind (run_getSin loaded), if_neg direct, if_neg outside]
    exact inside

omit beyond in
/-- The check on the way out holds. -/
theorem ensures_bmapGet :
    Ensures (¬ index < slotCount) (sfsBmapGetNolock ino index create) sfs
      (Got inos ino index create sfs) := by
  apply ensures_bind (ensures_bmapGetBlock consistent loaded)
  · intro block after placed
    by_cases zero : block = 0
    · rw [if_pos zero]
      exact ensures_pure placed
    · have member := consistent.known ino sin loaded
      have filled : slotAt after ino index ≠ 0 := by rwa [placed.slot]
      have addressable := placed.consistent.addressable_slot member filled
      have used := placed.consistent.used (target_of_slot member filled)
      rw [placed.slot] at addressable used
      rw [if_neg zero]
      apply ensures_of_run
      · rw [run_bind (run_inuse placed.consistent.device addressable),
          run_bind (run_assert after (by rw [used]; rfl))]
        rfl
      · exact placed
  · exact fun _ _ refused => refused

end GetBlock

/-! ## Headers -/

theorem dinOf_setInode_of_ne {other : Nat} (apart : other ≠ ino) :
    dinOf (sfs.setInode ino sin) other = dinOf sfs other :=
  dinOf_congr (Function.update_of_ne apart _ _) fun _ => rfl

/-- An inode that keeps its pointers keeps its slots. -/
theorem slotAt_setInode {other : Nat} (loaded : sfs.inodes ino = some sin)
    (pointers : SamePointers sin'.din sin.din) :
    slotAt (sfs.setInode ino sin') other index = slotAt sfs other index := by
  unfold slotAt
  by_cases same : other = ino
  · subst same
    rw [dinOf_loaded setInode_self, dinOf_loaded loaded]
    exact slotOf_congr pointers fun _ => rfl
  · rw [dinOf_setInode_of_ne same]
    rfl

/-- An inode in memory is changed, its pointers apart. -/
theorem Consistent.setHeader (consistent : Consistent sfs inos)
    (loaded : sfs.inodes ino = some sin) (pointers : SamePointers sin'.din sin.din)
    (dirty : sin'.dirty = false → sin.dirty = false) :
    Consistent (sfs.setInode ino sin') inos where
  exact := by
    have sameTarget : target (sfs.setInode ino sin') inos = target sfs inos := by
      apply target_congr (show (sfs.setInode ino sin').blocks = sfs.blocks from rfl)
      · intro other _
        by_cases same : other = ino
        · rw [same, dinOf_loaded setInode_self, dinOf_loaded loaded, pointers.2]
        · rw [dinOf_setInode_of_ne same]
      · exact fun other _ index => slotAt_setInode loaded pointers
    rw [sameTarget]
    exact consistent.exact
  device := consistent.device.congr ⟨rfl, rfl, rfl⟩
  known other found isFound := by
    by_cases same : other = ino
    · exact same ▸ consistent.known ino sin loaded
    · rw [show (sfs.setInode ino sin').inodes other = sfs.inodes other from
        Function.update_of_ne same _ _] at isFound
      exact consistent.known other found isFound
  clean other found isFound isClean := by
    by_cases same : other = ino
    · subst same
      rw [setInode_self] at isFound
      obtain rfl := Option.some.inj isFound
      exact pointers.trans (consistent.clean other sin loaded (dirty isClean))
    · rw [show (sfs.setInode ino sin').inodes other = sfs.inodes other from
        Function.update_of_ne same _ _] at isFound
      exact consistent.clean other found isFound isClean

/-- At most one slot of `ino` differs, and the inode has `blocks` blocks. -/
structure Resized (inos : List Nat) (ino index blocks : Nat) (sfs after : SfsFs) : Prop where
  others : ∀ other, other ≠ ino → after.inodes other = sfs.inodes other
  loaded : (after.inodes ino).isSome = (sfs.inodes ino).isSome
  header : SameHeader (dinOf after ino) { dinOf sfs ino with blocks := blocks }
  headers : ∀ other, other ∈ inos → other ≠ ino → SameHeader (dinOf after other) (dinOf sfs other)
  slots : ∀ other, other ∈ inos → ∀ place, other ≠ ino ∨ place ≠ index →
    slotAt after other place = slotAt sfs other place
  data : ∀ other, other ∈ inos → ∀ place, other ≠ ino ∨ place ≠ index →
    slotAt sfs other place ≠ 0 →
    after.disk (slotAt sfs other place) = sfs.disk (slotAt sfs other place)

theorem OnlySlot.resized {blocks : Nat} (change : OnlySlot inos ino index sfs after)
    (member : ino ∈ inos) (loaded : after.inodes ino = some sin)
    (changed : sin'.din = { sin.din with blocks := blocks }) :
    Resized inos ino index blocks sfs (after.setInode ino sin') where
  others other apart := (Function.update_of_ne apart _ _).trans (change.others other apart)
  loaded := by rw [← change.loaded, loaded, setInode_self]; rfl
  header := by
    have same := change.header ino member
    rw [dinOf_loaded loaded] at same
    rw [dinOf_loaded setInode_self, changed]
    exact ⟨same.size, same.type, same.nlinks, rfl⟩
  headers other isMember apart := by
    rw [dinOf_setInode_of_ne apart]
    exact change.header other isMember
  slots other isMember place apart := by
    rw [slotAt_setInode loaded (by rw [changed]; exact ⟨fun _ _ => rfl, rfl⟩)]
    exact change.slots other isMember place apart
  data := change.data

/-! ## Loading a block -/

/-- What `sfs_bmap_load_nolock` asserts. -/
def CanLoad (sfs : SfsFs) (ino index : Nat) : Prop :=
  index ≤ (dinOf sfs ino).blocks ∧ index < slotCount ∧
    (index < (dinOf sfs ino).blocks → slotAt sfs ino index ≠ 0)

/-- The block at `index` was there, or it was added at the end of the file. -/
structure BlockLoaded (inos : List Nat) (ino index : Nat) (sfs : SfsFs) (block : Nat)
    (after : SfsFs) : Prop where
  consistent : Consistent after inos
  slot : slotAt after ino index = block
  nonzero : block ≠ 0
  inside : index ≤ (dinOf sfs ino).blocks
  before : index < (dinOf sfs ino).blocks → after = sfs
  atEnd : index = (dinOf sfs ino).blocks →
    Resized inos ino index ((dinOf sfs ino).blocks + 1) sfs after

def LoadPost (inos : List Nat) (ino index : Nat) (sfs : SfsFs) :
    Except Errno Nat → SfsFs → Prop
  | .ok block, after => BlockLoaded inos ino index sfs block after
  | .error ret, after =>
      index = (dinOf sfs ino).blocks ∧ Refused inos ino index sfs ret after

theorem ensures_assert {β : Type} {mayStop : Prop} {condition : Prop} [Decidable condition]
    {second : Unit → SfsM β} {post : Except Errno β → SfsFs → Prop}
    (holds : condition → Ensures mayStop (second ()) sfs post) (stops : ¬ condition → mayStop) :
    Ensures mayStop (assert condition >>= second) sfs post :=
  ensures_require holds stops

theorem ensures_bmapLoad (consistent : Consistent sfs inos) (loaded : sfs.inodes ino = some sin) :
    Ensures (¬ CanLoad sfs ino index) (sfsBmapLoadNolock ino index) sfs
      (LoadPost inos ino index sfs) := by
  have member := consistent.known ino sin loaded
  have din := dinOf_loaded loaded
  apply ensures_bind_run (run_getSin loaded)
  apply ensures_assert
  · intro low
    apply ensures_bind ((ensures_bmapGet consistent loaded).weaken
      (fun outside canLoad => outside canLoad.2.1) fun _ _ post => post)
    · intro block after placed
      by_cases zero : block = 0
      · -- an empty slot below the end of the file
        have isBefore : decide (index = sin.din.blocks) = false := by
          by_contra isCreate
          exact placed.filled (by simpa using isCreate) zero
        have same := placed.found (Or.inl isBefore)
        rw [decide_eq_false_iff_not] at isBefore
        subst zero
        show ¬ CanLoad sfs ino index
        rintro ⟨_, _, filled⟩
        rw [din, ← same, placed.slot] at filled
        exact filled (by omega) rfl
      · have filled : slotAt after ino index ≠ 0 := by rwa [placed.slot]
        have addressable := placed.consistent.addressable_slot member filled
        have used := placed.consistent.used (target_of_slot member filled)
        rw [placed.slot] at addressable used
        apply ensures_bind_run (run_inuse placed.consistent.device addressable)
        apply ensures_bind_run (run_assert after (by rw [used]; rfl))
        by_cases isEnd : index = sin.din.blocks
        · have still : ∃ sin', after.inodes ino = some sin' := by
            rw [← Option.isSome_iff_exists, placed.change.loaded, loaded]
            rfl
          obtain ⟨sin', loaded'⟩ := still
          have blocks : sin'.din.blocks = sin.din.blocks := by
            rw [← dinOf_loaded loaded', ← din]
            exact (placed.change.header ino member).blocks
          rw [if_pos (decide_eq_true isEnd)]
          apply ensures_bind_run (run_updateDin loaded')
          apply ensures_pure
          let moved : SfsInode :=
            { sin' with din := { sin'.din with blocks := sin'.din.blocks + 1 } }
          have pointers : SamePointers moved.din sin'.din := ⟨fun _ _ => rfl, rfl⟩
          constructor
          · exact placed.consistent.setHeader loaded' pointers fun isClean => isClean
          · exact (slotAt_setInode loaded' pointers).trans placed.slot
          · exact zero
          · rwa [din]
          · intro isBefore
            rw [din] at isBefore
            omega
          · intro _
            rw [din, ← blocks]
            exact placed.change.resized member loaded' rfl
        · have notCreate : decide (index = sin.din.blocks) = false := decide_eq_false isEnd
          rw [if_neg (by rw [notCreate]; exact nofun)]
          apply ensures_pure
          refine ⟨placed.consistent, placed.slot, zero, by rwa [din],
            fun _ => placed.found (Or.inl notCreate), ?_⟩
          intro atEnd
          rw [din] at atEnd
          exact absurd atEnd isEnd
    · rintro ret after ⟨isCreate, refused⟩
      refine ⟨?_, refused⟩
      rw [din]
      exact of_decide_eq_true isCreate
  · intro outside canLoad
    rw [← din] at outside
    exact outside canLoad.1

/-! ## Freeing a block -/

/-- The slot at `index` is empty now. -/
structure Emptied (inos : List Nat) (ino index : Nat) (sfs after : SfsFs) : Prop where
  consistent : Consistent after inos
  change : OnlySlot inos ino index sfs after
  empty : slotAt after ino index = 0

theorem Consistent.emptied_same (consistent : Consistent sfs inos)
    (empty : slotAt sfs ino index = 0) : Emptied inos ino index sfs sfs :=
  ⟨consistent, OnlySlot.refl, empty⟩

section Free

variable (consistent : Consistent sfs inos) (loaded : sfs.inodes ino = some sin)
include consistent loaded

theorem freeDirect (direct : index < sfsNdirect) :
    ∃ after, sfsBmapFreeNolock ino index sfs = .ok (.ok (), after) ∧
      Emptied inos ino index sfs after ∧ Settled inos sfs after := by
  have member := consistent.known ino sin loaded
  have slot : slotAt sfs ino index = sin.din.direct index := by
    rw [slotAt_loaded loaded, slotOf_direct direct]
  by_cases zero : sin.din.direct index = 0
  · refine ⟨sfs, ?_, consistent.emptied_same (slot.trans zero), Settled.refl⟩
    rw [sfsBmapFreeNolock, run_bind (run_getSin loaded), if_pos direct, if_neg (not_not.mpr zero)]
    rfl
  · let sin' : SfsInode := { sin with
      din := { sin.din with direct := Function.update sin.din.direct index 0 }
      dirty := true }
    have filled : slotAt sfs ino index ≠ 0 := by rwa [slot]
    have addressable := consistent.addressable_slot member filled
    have used := consistent.used (target_of_slot member filled)
    rw [slot] at addressable used
    have ran : sfsBmapFreeNolock ino index sfs =
        .ok (.ok (), (sfs.give (sin.din.direct index)).setInode ino sin') := by
      rw [sfsBmapFreeNolock, run_bind (run_getSin loaded), if_pos direct, if_pos zero,
        run_bind (run_blockFree consistent.device addressable used),
        run_bind (run_updateDin (show (sfs.give _).inodes ino = some sin from loaded)),
        run_setDirty setInode_self, setInode_setInode]
    obtain ⟨change, empty⟩ := @OnlySlot.setDirect (sfs.give (sin.din.direct index)) inos ino index 0
      sin sin' loaded direct rfl
    have given : OnlySlot inos ino index sfs (sfs.give (sin.din.direct index)) :=
      OnlySlot.of_same rfl rfl
    have whole := given.trans change
    have device : SameDevice sfs ((sfs.give (sin.din.direct index)).setInode ino sin') :=
      ⟨rfl, rfl, rfl⟩
    have kept : CleanKept sfs ((sfs.give (sin.din.direct index)).setInode ino sin') :=
      @CleanKept.setInode (sfs.give (sin.din.direct index)) ino sin' rfl
    have indirects : ∀ other, other ∈ inos →
        (dinOf ((sfs.give (sin.din.direct index)).setInode ino sin') other).indirect =
          (dinOf sfs other).indirect := by
      intro other _
      by_cases same : other = ino
      · rw [same, dinOf_loaded setInode_self, dinOf_loaded loaded]
      · rw [dinOf_setInode_of_ne same]
        rfl
    have after := consistent.empty device kept whole member indirects filled empty
      (by rw [slot]; rfl) rfl
    exact ⟨_, ran, ⟨after, whole, empty⟩, Settled.give.trans Settled.setInode⟩

theorem freeEntry (beyond : ¬ index < sfsNdirect) (inside : index < slotCount)
    (nonzero : sin.din.indirect ≠ 0) :
    ∃ after, sfsBmapFreeSubNolock sin.din.indirect (index - sfsNdirect) sfs =
        .ok (.ok (), after) ∧ Emptied inos ino index sfs after ∧ Settled inos sfs after := by
  have member := consistent.known ino sin loaded
  have entry : index - sfsNdirect < sfsBlkNentry := by
    unfold slotCount at inside
    omega
  have din := dinOf_loaded loaded
  have slot : slotAt sfs ino index =
      entryOf (sfs.disk sin.din.indirect) (index - sfsNdirect) := by
    rw [slotAt_loaded loaded, slotOf_entry beyond inside nonzero]
  have held : target sfs inos (.indirect ino) = some sin.din.indirect := by
    rw [← din] at nonzero ⊢
    exact target_of_indirect member nonzero
  have addressable := consistent.addressable_indirect loaded nonzero
  have start : sfsBmapFreeSubNolock sin.din.indirect (index - sfsNdirect) sfs =
      (if slotAt sfs ino index ≠ 0 then do
        sfsWbuf (Bytes.ofNumber 0) 4 sin.din.indirect ((index - sfsNdirect) * 4)
        sfsBlockFree (slotAt sfs ino index)
      else pure () : SfsM Unit) sfs := by
    have same : ((sfs.disk sin.din.indirect).drop ((index - sfsNdirect) * 4)).number 0 4 =
        slotAt sfs ino index := by
      rw [slot]
      exact Bytes.number_drop _ _ _
    rw [sfsBmapFreeSubNolock, run_bind (run_inuse consistent.device addressable),
      run_bind (run_assert sfs ⟨by rw [consistent.used held]; rfl, entry⟩),
      run_bind (run_rbuf consistent.device addressable (Consistent.entry_inside entry))]
    simp only [same]
  by_cases zero : slotAt sfs ino index = 0
  · refine ⟨sfs, ?_, consistent.emptied_same zero, Settled.refl⟩
    rw [start, if_neg (not_not.mpr zero)]
    rfl
  · let written := sfs.setBlock sin.din.indirect
      ((sfs.disk sin.din.indirect).overlay ((index - sfsNdirect) * 4) 4 (Bytes.ofNumber 0))
    have addressableSlot := consistent.addressable_slot member zero
    have used := consistent.used (target_of_slot member zero)
    have device : OnDevice written := consistent.device.congr ⟨rfl, rfl, rfl⟩
    have ran : sfsBmapFreeSubNolock sin.din.indirect (index - sfsNdirect) sfs =
        .ok (.ok (), written.give (slotAt sfs ino index)) := by
      rw [start, if_pos zero,
        run_bind (run_wbuf consistent.device addressable (Consistent.entry_inside entry) _)]
      exact run_blockFree device addressableSlot used
    obtain ⟨change, empty, dins⟩ := @OnlySlot.setEntry sfs inos ino index 0
      consistent.exact.once member beyond inside (din ▸ nonzero) (by decide)
    rw [din] at change empty dins
    have whole : OnlySlot inos ino index sfs (written.give (slotAt sfs ino index)) :=
      change.trans (OnlySlot.of_same rfl rfl)
    have notInode : sfs.inodes sin.din.indirect = none := by
      cases isLoaded : sfs.inodes sin.din.indirect with
      | none => rfl
      | some other =>
          have twice := consistent.exact.once _ _ _ held
            (target_of_inode (consistent.known _ other isLoaded))
          cases twice
    have kept : CleanKept sfs (written.give (slotAt sfs ino index)) :=
      @CleanKept.setBlock sfs sin.din.indirect _ notInode
    have indirects : ∀ other, other ∈ inos →
        (dinOf (written.give (slotAt sfs ino index)) other).indirect =
          (dinOf sfs other).indirect :=
      fun other isMember => congrArg DiskInode.indirect (dins other isMember)
    have same : SameDevice sfs (written.give (slotAt sfs ino index)) := ⟨rfl, rfl, rfl⟩
    have after := consistent.empty same kept whole member indirects zero empty rfl rfl
    have movable := consistent.movable_of_held held nofun nofun
    exact ⟨_, ran, ⟨after, whole, empty⟩, (Settled.setBlock movable).trans Settled.give⟩

/-- Freeing a block neither stops nor fails. -/
theorem run_bmapFree :
    ∃ after, sfsBmapFreeNolock ino index sfs = .ok (.ok (), after) ∧
      Emptied inos ino index sfs after ∧ Settled inos sfs after := by
  by_cases direct : index < sfsNdirect
  · exact freeDirect consistent loaded direct
  have slot := @slotAt_loaded sfs ino index sin loaded
  by_cases inside : index < slotCount
  · have entry : index - sfsNdirect < sfsBlkNentry := by
      unfold slotCount at inside
      omega
    by_cases none : sin.din.indirect = 0
    · refine ⟨sfs, ?_, consistent.emptied_same ?_, Settled.refl⟩
      · rw [sfsBmapFreeNolock, run_bind (run_getSin loaded), if_neg direct, if_pos entry,
          if_neg (not_not.mpr none)]
        rfl
      · rw [slot, slotOf_empty direct (Or.inr none)]
    · obtain ⟨after, ran, emptied⟩ := freeEntry consistent loaded direct inside none
      refine ⟨after, ?_, emptied⟩
      rw [sfsBmapFreeNolock, run_bind (run_getSin loaded), if_neg direct, if_pos entry, if_pos none]
      exact ran
  · have outside : ¬ index - sfsNdirect < sfsBlkNentry := by
      unfold slotCount at inside
      omega
    refine ⟨sfs, ?_, consistent.emptied_same ?_, Settled.refl⟩
    · rw [sfsBmapFreeNolock, run_bind (run_getSin loaded), if_neg direct, if_neg outside]
      rfl
    · rw [slot, slotOf_empty direct (Or.inl (Nat.not_lt.mp inside))]

end Free

end UCore.Fs
