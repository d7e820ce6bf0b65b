import UCore.Fs.SfsResize
import UCore.Fs.SfsSync

/-!
Contract: when the flags are set that say what has to be written to disk.

Owns:
- `Durable`: whatever is not flagged is on disk as it is in memory;
- what a call can change of an inode before it sets the flag;
- which transfers and truncates flag what they change.

Does not own: syncing, and runs of calls.
-/

set_option autoImplicit false

namespace UCore.Fs

open UCore.Lib UCore.Lib.Program

variable {sfs after : SfsFs} {inos : List Nat} {ino index block : Nat} {sin sin' : SfsInode}
  {info : Bytes}

/-! ## What is on disk -/

/-- Two inodes are equal in every field. -/
structure SameInode (left right : DiskInode) : Prop where
  header : SameHeader left right
  pointers : SamePointers left right

/-- The inode has links, and its fields fit into those of the inode on disk. -/
structure Storable (din : DiskInode) : Prop where
  linked : din.nlinks ≠ 0
  size : din.size < 2 ^ 32
  type : din.type < 2 ^ 16
  nlinks : din.nlinks < 2 ^ 16
  blocks : din.blocks < 2 ^ 32

/-- An inode in memory that is clean is the one on disk. -/
structure OnDisk (sfs : SfsFs) (ino : Nat) (sin : SfsInode) : Prop where
  storable : Storable sin.din
  clean : sin.dirty = false → SameInode (DiskInode.ofBytes (sfs.disk ino)) sin.din

/-- Inodes, superblock and free map are on disk as they are in memory, but for those that are
flagged. -/
structure Durable (inos : List Nat) (info : Bytes) (sfs : SfsFs) : Prop where
  consistent : Consistent sfs inos
  inode : ∀ ino sin, sfs.inodes ino = some sin → OnDisk sfs ino sin
  format : Format info sfs
  metadata : sfs.superDirty = false → MetadataOnDisk info sfs

theorem SameInode.refl (din : DiskInode) : SameInode din din :=
  ⟨SameHeader.refl din, fun _ _ => rfl, rfl⟩

theorem Format.congr (format : Format info sfs) (same : SameDevice sfs after) :
    Format info after := by
  refine ⟨?_, ?_, format.ended⟩
  · rw [same.blocks]
    exact format.nonempty
  · rw [same.blocks, same.freemapBits]
    exact format.freemapBits

/-- Superblock and free map have not changed, and neither have their blocks. -/
theorem MetadataOnDisk.congr (onDisk : MetadataOnDisk info sfs)
    (format : Format info sfs) (same : SameDevice sfs after)
    (fixed : ∀ block, IsMetadata sfs block → after.disk block = sfs.disk block)
    (freemap : after.freemap = sfs.freemap) (unused : after.unusedBlocks = sfs.unusedBlocks) :
    MetadataOnDisk info after where
  super := by
    rw [fixed sfsBlknSuper (Or.inl rfl), onDisk.super, SfsFs.super, SfsFs.super, same.blocks,
      unused]
  freemap := by
    rw [same.freemapBits, freemap, ← onDisk.freemap]
    funext index
    unfold readFreemap
    by_cases inside : index < sfs.freemapBits
    · have isMetadata : IsMetadata sfs (sfsBlknFreemap + index / 8 / sfsBlksize) := by
        right
        rw [format.freemapBits, sfsFreemapBits, sfsFreemapBlocks] at inside
        unfold sfsBlkbits at *
        unfold sfsBlksize
        omega
      rw [bitmapBit, bitmapBit, fixed _ isMetadata]
    · rw [decide_eq_false inside, Bool.false_and, Bool.false_and]

/-- A call changed the inode `ino`, and blocks that belong to no other inode. -/
theorem Durable.change (durable : Durable inos info sfs) (consistent : Consistent after inos)
    (same : SameDevice sfs after) (inodes : ∀ other, other ≠ ino →
      after.inodes other = sfs.inodes other)
    (fixed : ∀ block, ¬ Movable sfs inos block → block ≠ ino → after.disk block = sfs.disk block)
    (marked : after.superDirty = true ∨ (after.superDirty = sfs.superDirty ∧
      after.freemap = sfs.freemap ∧ after.unusedBlocks = sfs.unusedBlocks))
    (member : ino ∈ inos) (own : ∀ sin, after.inodes ino = some sin → OnDisk after ino sin) :
    Durable inos info after where
  consistent := consistent
  inode other found loaded := by
    by_cases isOwn : other = ino
    · subst isOwn
      exact own found loaded
    · have isInode := consistent.known other found loaded
      rw [inodes other isOwn] at loaded
      have kept := durable.inode other found loaded
      refine ⟨kept.storable, ?_⟩
      rw [fixed other (fun movable => movable.2 isInode) isOwn]
      exact kept.clean
  format := durable.format.congr same
  metadata isClean := by
    rcases marked with dirty | ⟨kept, freemap, unused⟩
    · rw [dirty] at isClean
      cases isClean
    · have apart : ∀ block, IsMetadata sfs block → block ≠ ino := by
        rintro block isMetadata rfl
        have twice := durable.consistent.exact.once (.metadata block) (.inode block) block
          (if_pos isMetadata) (target_of_inode member)
        cases twice
      apply (durable.metadata (kept.symm.trans isClean)).congr durable.format
        same _ freemap unused
      exact fun block isMetadata =>
        fixed block (fun movable => movable.1 isMetadata) (apart block isMetadata)

/-! ## Changes that are not flagged yet -/

/-- What blocks added to the inode `ino` leave: a clean inode has the same pointers as before. -/
structure Advanced (inos : List Nat) (ino : Nat) (sfs : SfsFs) (sin : SfsInode) (after : SfsFs)
    (sin' : SfsInode) : Prop where
  consistent : Consistent after inos
  inodes : ∀ other, other ≠ ino → after.inodes other = sfs.inodes other
  settled : Settled inos sfs after
  loaded : after.inodes ino = some sin'
  header : SameHeader sin'.din { sin.din with blocks := sin'.din.blocks }
  grown : sin.din.blocks ≤ sin'.din.blocks
  limited : sin'.din.blocks = sin.din.blocks ∨ sin'.din.blocks ≤ slotCount
  clean : sin'.dirty = false → sin.dirty = false ∧ SamePointers sin'.din sin.din

theorem Advanced.refl (consistent : Consistent sfs inos) (loaded : sfs.inodes ino = some sin) :
    Advanced inos ino sfs sin sfs sin :=
  ⟨consistent, fun _ _ => rfl, Settled.refl, loaded, SameHeader.refl _, le_rfl, Or.inl rfl,
    fun isClean => ⟨isClean, fun _ _ => rfl, rfl⟩⟩

theorem Advanced.trans {middle : SfsFs} {between : SfsInode}
    (first : Advanced inos ino sfs sin middle between)
    (second : Advanced inos ino middle between after sin') :
    Advanced inos ino sfs sin after sin' where
  consistent := second.consistent
  inodes other apart := (second.inodes other apart).trans (first.inodes other apart)
  settled := first.settled.trans second.settled
  loaded := second.loaded
  header := by
    refine ⟨?_, ?_, ?_, rfl⟩
    · exact second.header.size.trans first.header.size
    · exact second.header.type.trans first.header.type
    · exact second.header.nlinks.trans first.header.nlinks
  grown := first.grown.trans second.grown
  limited := by
    rcases second.limited with same | low
    · rw [same]
      exact first.limited
    · exact Or.inr low
  clean isClean := by
    obtain ⟨isClean', pointers'⟩ := second.clean isClean
    obtain ⟨wasClean, pointers⟩ := first.clean isClean'
    exact ⟨wasClean, pointers'.trans pointers⟩

/-- The contents of a slot's block change. -/
theorem Advanced.setData {bytes : Bytes} (advanced : Advanced inos ino sfs sin after sin')
    (held : target after inos (.slot ino index) = some block) :
    Advanced inos ino sfs sin (after.setBlock block bytes) sin' :=
  { advanced with
    consistent := advanced.consistent.setBlock (advanced.consistent.unread_of_slot held)
      (advanced.consistent.slot_notInode held)
    settled := advanced.settled.trans
      (Settled.setBlock (advanced.consistent.movable_of_held held nofun nofun)) }

theorem slotCount_small : slotCount < 2 ^ 32 := by decide

/-- Nothing is lost where no block was added to a clean inode. -/
theorem Advanced.durable (advanced : Advanced inos ino sfs sin after sin')
    (durable : Durable inos info sfs) (loaded : sfs.inodes ino = some sin)
    (flagged : sin'.dirty = true ∨ sin'.din.blocks = sin.din.blocks) : Durable inos info after := by
  have member := durable.consistent.known ino sin loaded
  have header := advanced.header
  apply durable.change advanced.consistent advanced.settled.device advanced.inodes
    (fun block still _ => advanced.settled.fixed block still) advanced.settled.marked member
  intro found isFound
  obtain rfl := Option.some.inj (advanced.loaded.symm.trans isFound)
  obtain ⟨storable, clean⟩ := durable.inode ino sin loaded
  refine ⟨⟨?_, ?_, ?_, ?_, ?_⟩, ?_⟩
  · rw [header.nlinks]
    exact storable.linked
  · rw [header.size]
    exact storable.size
  · rw [header.type]
    exact storable.type
  · rw [header.nlinks]
    exact storable.nlinks
  · rcases advanced.limited with same | low
    · rw [same]
      exact storable.blocks
    · exact lt_of_le_of_lt low slotCount_small
  · intro isClean
    have blocks : sin'.din.blocks = sin.din.blocks := by
      rcases flagged with dirty | same
      · rw [dirty] at isClean
        cases isClean
      · exact same
    obtain ⟨wasClean, pointers⟩ := advanced.clean isClean
    obtain ⟨wasHeader, wasPointers⟩ := clean wasClean
    have fixed : after.disk ino = sfs.disk ino :=
      advanced.settled.fixed ino fun movable => movable.2 member
    rw [fixed]
    refine ⟨⟨?_, ?_, ?_, ?_⟩, wasPointers.trans pointers.symm⟩
    · exact wasHeader.size.trans header.size.symm
    · exact wasHeader.type.trans header.type.symm
    · exact wasHeader.nlinks.trans header.nlinks.symm
    · exact wasHeader.blocks.trans blocks.symm

/-- An inode was changed and flagged. -/
theorem Durable.flag (durable : Durable inos info sfs) (consistent : Consistent after inos)
    (settled : Settled inos sfs after)
    (inodes : ∀ other, other ≠ ino → after.inodes other = sfs.inodes other)
    (loaded : after.inodes ino = some sin) (storable : Storable sin.din) (dirty : sin.dirty = true) :
    Durable inos info after := by
  apply durable.change consistent settled.device inodes
    (fun block still _ => settled.fixed block still) settled.marked
    (consistent.known ino sin loaded)
  intro found isFound
  obtain rfl := Option.some.inj (loaded.symm.trans isFound)
  refine ⟨storable, fun isClean => ?_⟩
  rw [dirty] at isClean
  cases isClean

/-! ## Loading a block -/

/-- What a load that returns leaves: the block is there, or no free block was left for it. -/
def LoadAdvances (inos : List Nat) (ino index : Nat) (sfs : SfsFs) (sin : SfsInode) :
    Except Errno Nat → SfsFs → Prop
  | .ok block, after =>
      target after inos (.slot ino index) = some block ∧
        ((index < sin.din.blocks ∧ after = sfs) ∨
          (index = sin.din.blocks ∧ index < slotCount ∧ ∃ sin',
            Advanced inos ino sfs sin after sin' ∧ Taken inos ino index sfs sin after sin' ∧
            sin'.din.blocks = sin.din.blocks + 1 ∧
            ∀ place, place ≠ index → slotAt after ino place = slotAt sfs ino place))
  | .error ret, after => ret = .noMem ∧ index = sin.din.blocks ∧ index < slotCount ∧
      sfs.unusedBlocks < loadCost sfs ino index ∧ Advanced inos ino sfs sin after sin ∧
      after.unusedBlocks = sfs.unusedBlocks ∧ ∀ place, slotAt after ino place = slotAt sfs ino place

theorem ensures_load_advances (consistent : Consistent sfs inos)
    (loaded : sfs.inodes ino = some sin) :
    Ensures True (sfsBmapLoadNolock ino index) sfs (LoadAdvances inos ino index sfs sin) := by
  have din := dinOf_loaded loaded
  have member := consistent.known ino sin loaded
  have load := @ensures_bmapLoad sfs inos ino index sin consistent loaded
  by_cases atEnd : index = sin.din.blocks
  · by_cases inside : index < slotCount
    · apply (load.both (space_load consistent loaded atEnd inside)).weaken fun _ => trivial
      rintro result after ⟨post, space⟩
      cases result with
      | error ret =>
          obtain ⟨_, refused⟩ := post
          obtain ⟨short, inodes, unused, settled⟩ := space
          refine ⟨refused.noMem, atEnd, inside, short, ?_, unused, ?_⟩
          · exact ⟨refused.consistent, fun other _ => congrFun inodes other, settled,
              (congrFun inodes ino).trans loaded, SameHeader.refl _, le_rfl, Or.inl rfl,
              fun isClean => ⟨isClean, fun _ _ => rfl, rfl⟩⟩
          · intro place
            by_cases same : place = index
            · rw [same, refused.still, refused.empty]
            · exact refused.change.slots ino member place (Or.inr same)
      | ok block =>
          obtain ⟨_, sin', taken⟩ := space
          have change := post.atEnd (by rw [din, atEnd])
          have header := change.header
          rw [dinOf_loaded taken.loaded, din] at header
          have blocks : sin'.din.blocks = sin.din.blocks + 1 := header.blocks
          have held : target after inos (.slot ino index) = some block := by
            rw [← post.slot]
            exact target_of_slot member (by rw [post.slot]; exact post.nonzero)
          refine ⟨held, Or.inr ⟨atEnd, inside, sin', ?_, taken, blocks, ?_⟩⟩
          · refine ⟨post.consistent, change.others, taken.settled, taken.loaded, ?_, by omega,
              Or.inr (by omega), ?_⟩
            · exact ⟨header.size, header.type, header.nlinks, rfl⟩
            · intro isClean
              rw [taken.dirty, Bool.or_eq_false_iff] at isClean
              exact ⟨isClean.1, taken.unmarked (of_decide_eq_false isClean.2)⟩
          · exact fun place apart => change.slots ino member place (Or.inr apart)
    · exact ensures_of_stop (run_load_outside loaded (Nat.le_of_eq atEnd) inside) trivial
  · apply load.weaken fun _ => trivial
    intro result after post
    cases result with
    | error ret => exact absurd (post.1.trans (by rw [din])) atEnd
    | ok block =>
        have reached := post.inside
        rw [din] at reached
        have held : target after inos (.slot ino index) = some block := by
          rw [← post.slot]
          exact target_of_slot member (by rw [post.slot]; exact post.nonzero)
        exact ⟨held, Or.inl ⟨by omega, post.before (by rw [din]; omega)⟩⟩

/-! ## Blocks added at the end -/

theorem emptySlots_mono {nblks few many : Nat} (fewer : few ≤ many) :
    emptySlots sfs ino nblks few ≤ emptySlots sfs ino nblks many := by
  induction few generalizing nblks many with
  | zero => exact Nat.zero_le _
  | succ few inductionHypothesis =>
      cases many with
      | zero => omega
      | succ many =>
          have rest := @inductionHypothesis (nblks + 1) many (by omega)
          rw [emptySlots, emptySlots]
          omega

theorem growthCost_mono {nblks few many : Nat} (fewer : few ≤ many) :
    growthCost sfs ino nblks few ≤ growthCost sfs ino nblks many := by
  have slots := @emptySlots_mono sfs ino nblks few many fewer
  unfold growthCost
  split_ifs <;> omega

@[simp] theorem growthCost_zero {nblks : Nat} : growthCost sfs ino nblks 0 = 0 := rfl

theorem growthCost_congr {nblks missing : Nat}
    (slots : ∀ place, nblks ≤ place → slotAt after ino place = slotAt sfs ino place)
    (indirect : (dinOf after ino).indirect = (dinOf sfs ino).indirect) :
    growthCost after ino nblks missing = growthCost sfs ino nblks missing := by
  rw [growthCost, growthCost, emptySlots_congr slots, indirect]

/-- `added` blocks were added to the inode `ino`. It is dirty if one of them changed its block
pointers. -/
structure Extended (inos : List Nat) (ino : Nat) (sfs : SfsFs) (sin : SfsInode) (added : Nat)
    (after : SfsFs) (sin' : SfsInode) : Prop where
  advanced : Advanced inos ino sfs sin after sin'
  blocks : sin'.din.blocks = sin.din.blocks + added
  slots : ∀ place, sin.din.blocks + added ≤ place → slotAt after ino place = slotAt sfs ino place
  indirect : sin'.din.indirect = 0 ↔
    sin.din.indirect = 0 ∧ (added = 0 ∨ sin.din.blocks + added ≤ sfsNdirect)
  budget : ∀ more, growthCost after ino (sin.din.blocks + added) more + sfs.unusedBlocks =
    growthCost sfs ino sin.din.blocks (added + more) + after.unusedBlocks
  dirty : sin'.dirty = true ↔ sin.dirty = true ∨
    ∃ place, place < added ∧ LoadMarks sfs ino (sin.din.blocks + place)

namespace Extended

variable {added : Nat}

theorem refl (consistent : Consistent sfs inos) (loaded : sfs.inodes ino = some sin) :
    Extended inos ino sfs sin 0 sfs sin where
  advanced := Advanced.refl consistent loaded
  blocks := rfl
  slots _ _ := rfl
  indirect := by simp
  budget more := by rw [Nat.zero_add, Nat.add_zero]
  dirty := by simp

theorem enough (extended : Extended inos ino sfs sin added after sin') :
    growthCost sfs ino sin.din.blocks added ≤ sfs.unusedBlocks := by
  have budget := extended.budget 0
  rw [growthCost_zero, Nat.add_zero] at budget
  omega

/-- No block was left for one more. -/
theorem short (extended : Extended inos ino sfs sin added after sin')
    (inside : sin.din.blocks + added < slotCount)
    (refused : after.unusedBlocks < loadCost after ino (sin.din.blocks + added)) :
    sfs.unusedBlocks < growthCost sfs ino sin.din.blocks (added + 1) := by
  have budget := extended.budget 1
  have cost := @loadCost_le_growthCost after ino (sin.din.blocks + added) 0 inside
  rw [Nat.zero_add] at cost
  omega

/-- The slots and the free blocks are the same. -/
theorem unchanged {final : SfsFs} (extended : Extended inos ino sfs sin added after sin')
    (advanced : Advanced inos ino after sin' final sin')
    (slots : ∀ place, slotAt final ino place = slotAt after ino place)
    (unused : final.unusedBlocks = after.unusedBlocks) :
    Extended inos ino sfs sin added final sin' where
  advanced := extended.advanced.trans advanced
  blocks := extended.blocks
  slots place beyond := (slots place).trans (extended.slots place beyond)
  indirect := extended.indirect
  budget more := by
    have indirect : (dinOf final ino).indirect = (dinOf after ino).indirect := by
      rw [dinOf_loaded advanced.loaded, dinOf_loaded extended.advanced.loaded]
    rw [growthCost_congr (fun place _ => slots place) indirect, unused]
    exact extended.budget more
  dirty := extended.dirty

theorem setData {bytes : Bytes} (extended : Extended inos ino sfs sin added after sin')
    (held : target after inos (.slot ino index) = some block) :
    Extended inos ino sfs sin added (after.setBlock block bytes) sin' := by
  have advanced := extended.advanced
  have unread := advanced.consistent.unread_of_slot held
  have member := advanced.consistent.known ino sin' advanced.loaded
  apply extended.unchanged
  · exact (Advanced.refl advanced.consistent advanced.loaded).setData held
  · exact fun place => unread.slotAt member
  · rfl

theorem loadMarks (extended : Extended inos ino sfs sin added after sin') {place : Nat}
    (beyond : sin.din.blocks + added ≤ place) :
    LoadMarks after ino place ↔ slotAt sfs ino place = 0 ∧ (place < sfsNdirect ∨
      (sin.din.indirect = 0 ∧ (added = 0 ∨ sin.din.blocks + added ≤ sfsNdirect))) := by
  rw [LoadMarks, extended.slots place beyond, dinOf_loaded extended.advanced.loaded,
    extended.indirect]

/-- One more block is added. -/
theorem more {final : SfsFs} {sin'' : SfsInode} (loaded : sfs.inodes ino = some sin)
    (extended : Extended inos ino sfs sin added after sin')
    (inside : sin.din.blocks + added < slotCount)
    (advanced : Advanced inos ino after sin' final sin'')
    (taken : Taken inos ino (sin.din.blocks + added) after sin' final sin'')
    (blocks : sin''.din.blocks = sin'.din.blocks + 1)
    (slots : ∀ place, place ≠ sin.din.blocks + added →
      slotAt final ino place = slotAt after ino place) :
    Extended inos ino sfs sin (added + 1) final sin'' where
  advanced := extended.advanced.trans advanced
  blocks := by
    rw [blocks, extended.blocks]
    rfl
  slots place beyond := by
    rw [slots place (by omega)]
    exact extended.slots place (by omega)
  indirect := by
    rw [taken.indirect, extended.indirect]
    omega
  budget missing := by
    have budget := extended.budget (missing + 1)
    have cost := @growthCost_succ after final inos ino sin' sin'' (sin.din.blocks + added) missing
      extended.advanced.loaded inside (fun place low => slots place (by omega)) taken
    have unused := taken.unused
    rw [show added + (missing + 1) = added + 1 + missing by omega] at budget
    rw [← Nat.add_assoc]
    omega
  dirty := by
    have din := dinOf_loaded loaded
    have marks := extended.loadMarks (le_refl (sin.din.blocks + added))
    rw [taken.dirty, Bool.or_eq_true, decide_eq_true_iff, extended.dirty, marks]
    constructor
    · rintro ((wasDirty | ⟨place, low, marked⟩) | ⟨empty, direct | linkless⟩)
      · exact Or.inl wasDirty
      · exact Or.inr ⟨place, by omega, marked⟩
      · exact Or.inr ⟨added, Nat.lt_succ_self _, empty, Or.inl direct⟩
      · exact Or.inr ⟨added, Nat.lt_succ_self _, empty, Or.inr (by rw [din]; exact linkless.1)⟩
    · rintro (wasDirty | ⟨place, low, empty, marked⟩)
      · exact Or.inl (Or.inl wasDirty)
      · by_cases isLast : place = added
        · subst isLast
          rcases marked with direct | linkless
          · exact Or.inr ⟨empty, Or.inl direct⟩
          · rw [din] at linkless
            by_cases early : place = 0 ∨ sin.din.blocks + place ≤ sfsNdirect
            · exact Or.inr ⟨empty, Or.inr ⟨linkless, early⟩⟩
            · -- an earlier block has got the indirect block
              have noSlot : ∀ slot, sfsNdirect ≤ slot → slotAt sfs ino slot = 0 := by
                intro slot beyond
                rw [slotAt_loaded loaded, slotOf_empty (Nat.not_lt.mpr beyond) (Or.inr linkless)]
              refine Or.inl (Or.inr ⟨max sfsNdirect sin.din.blocks - sin.din.blocks, by omega,
                noSlot _ (by omega), Or.inr (by rw [din]; exact linkless)⟩)
        · exact Or.inl (Or.inr ⟨place, by omega, empty, marked⟩)

end Extended

/-! ## Which calls flag the blocks they add -/

/-- If a block is added, the inode is dirty: it was, or one of the added blocks changes its block
pointers. -/
def GrowthFlagged (sfs : SfsFs) (ino : Nat) (sin : SfsInode) (missing : Nat) : Prop :=
  sin.dirty = true ∨ sfs.unusedBlocks < growthCost sfs ino sin.din.blocks 1 ∨
    ∃ place, place < missing ∧
      growthCost sfs ino sin.din.blocks (place + 1) ≤ sfs.unusedBlocks ∧
      LoadMarks sfs ino (sin.din.blocks + place)

/-- The growth that a truncate asks for is flagged, or there are free blocks for all of it. -/
def TruncateFlags (sfs : SfsFs) (ino : Nat) (len : Int) : Prop :=
  ∀ sin, sfs.inodes ino = some sin → 0 ≤ len → len ≤ sfsMaxFileSize →
    GrowthFlagged sfs ino sin (missingBlocks sin len) ∨
      growthCost sfs ino sin.din.blocks (missingBlocks sin len) ≤ sfs.unusedBlocks

/-- `endpos` of a transfer. -/
def endposOf (sin : SfsInode) (offset : Int) (length : Nat) (write : Bool) : Nat :=
  let endpos := if wrap64 (offset + length) > sfsMaxFileSize then sfsMaxFileSize
    else (wrap64 (offset + length)).toNat
  if write = false ∧ endpos > sin.din.size then sin.din.size else endpos

/-- The growth that a transfer asks for is flagged, or the transfer gets past the size of the
file, for which there are free blocks. -/
def IoFlags (sfs : SfsFs) (ino : Nat) (offset : Int) (length : Nat) (write : Bool) : Prop :=
  ∀ sin, sfs.inodes ino = some sin → 0 ≤ offset →
    offset < endposOf sin offset length write →
    GrowthFlagged sfs ino sin (fileBlocks (endposOf sin offset length write) - sin.din.blocks) ∨
      fileBlocks (endposOf sin offset length write) - sin.din.blocks = 0 ∨
      (sin.din.size < endposOf sin offset length write ∧
        growthCost sfs ino sin.din.blocks (sin.din.size / sfsBlksize + 1 - sin.din.blocks) ≤
          sfs.unusedBlocks)

/-- Where the growth is flagged, the inode is dirty after it. -/
theorem Extended.flagged {added missing : Nat}
    (extended : Extended inos ino sfs sin added after sin')
    (flagged : GrowthFlagged sfs ino sin missing) (positive : 0 < added)
    (stuck : added < missing → sfs.unusedBlocks < growthCost sfs ino sin.din.blocks (added + 1)) :
    sin'.dirty = true := by
  rw [extended.dirty]
  rcases flagged with wasDirty | full | ⟨place, low, room, marks⟩
  · exact Or.inl wasDirty
  · have first := @growthCost_mono sfs ino sin.din.blocks 1 added positive
    have enough := extended.enough
    omega
  · refine Or.inr ⟨place, ?_, marks⟩
    by_contra beyond
    have more := @growthCost_mono sfs ino sin.din.blocks (added + 1) (place + 1) (by omega)
    have full := stuck (by omega)
    omega

/-! ## Truncating -/

/-- What the growth of a truncate leaves. -/
def Enlarged (inos : List Nat) (ino missing : Nat) (sfs : SfsFs) (sin : SfsInode) :
    Except Errno Unit → SfsFs → Prop
  | .ok (), after => ∃ sin', Extended inos ino sfs sin missing after sin'
  | .error _, after => ∃ added sin', added < missing ∧ Extended inos ino sfs sin added after sin' ∧
      sfs.unusedBlocks < growthCost sfs ino sin.din.blocks (added + 1)

theorem ensures_enlarge {start : SfsFs} {sin₀ : SfsInode} {added missing : Nat}
    (loaded : start.inodes ino = some sin₀) (extended : Extended inos ino start sin₀ added sfs sin) :
    Ensures True (truncfileGrow ino (sin₀.din.blocks + added) missing) sfs
      (Enlarged inos ino (added + missing) start sin₀) := by
  induction missing generalizing added sfs sin with
  | zero => exact ensures_pure ⟨sin, extended⟩
  | succ missing inductionHypothesis =>
      have advanced := extended.advanced
      have load := @ensures_load_advances sfs inos ino (sin₀.din.blocks + added) sin
        advanced.consistent advanced.loaded
      have blocks := extended.blocks
      apply ensures_bind load
      · rintro block middle ⟨_, ⟨isBefore, _⟩ | ⟨_, inside, sin', advanced', taken, one, slots⟩⟩
        · omega
        · have more := extended.more loaded inside advanced' taken one slots
          have total : added + 1 + missing = added + (missing + 1) := by omega
          rw [← total]
          exact inductionHypothesis more
      · rintro ret middle ⟨_, _, inside, short, advanced', unused, slots⟩
        exact ⟨added, sin, by omega, extended.unchanged advanced' slots unused,
          extended.short inside short⟩

/-- The end of a truncate, which sets the size and the flag. -/
theorem Durable.finish {middle : SfsFs} {len : Nat} (durable : Durable inos info sfs)
    (loaded : sfs.inodes ino = some sin) (limited : len ≤ sfsMaxFileSize)
    (consistent : Consistent middle inos) (settled : Settled inos sfs middle)
    (inodes : ∀ other, other ≠ ino → middle.inodes other = sfs.inodes other)
    (stays : middle.inodes ino = some sin')
    (header : SameHeader sin'.din { sin.din with blocks := sin'.din.blocks }) :
    Ensures True (do
      let sin ← getSin ino
      assert (sin.din.blocks = fileBlocks len)
      updateDin ino fun din => { din with size := len }
      setDirty ino true : SfsM Unit) middle fun _ after => Durable inos info after := by
  apply ensures_bind_run (run_getSin stays)
  apply ensures_assert
  · intro blocks
    let final : SfsInode := { sin' with din := { sin'.din with size := len }, dirty := true }
    have pointers : SamePointers final.din sin'.din := ⟨fun _ _ => rfl, rfl⟩
    have ran : (do
        updateDin ino fun din => { din with size := len }
        setDirty ino true : SfsM Unit) middle = .ok (.ok (), middle.setInode ino final) := by
      rw [run_bind (run_updateDin stays), run_setDirty setInode_self, setInode_setInode]
    obtain ⟨storable, _⟩ := durable.inode ino sin loaded
    apply ensures_of_run ran
    apply durable.flag (consistent.setHeader stays pointers nofun)
      (settled.trans Settled.setInode) _ setInode_self _ rfl
    · intro other apart
      exact (Function.update_of_ne apart _ _).trans (inodes other apart)
    · have small : len < 2 ^ 32 := by
        unfold sfsMaxFileSize at limited
        omega
      refine ⟨?_, small, ?_, ?_, ?_⟩
      · show sin'.din.nlinks ≠ 0
        rw [header.nlinks]
        exact storable.linked
      · show sin'.din.type < 2 ^ 16
        rw [header.type]
        exact storable.type
      · show sin'.din.nlinks < 2 ^ 16
        rw [header.nlinks]
        exact storable.nlinks
      · show sin'.din.blocks < 2 ^ 32
        rw [blocks]
        unfold fileBlocks sfsBlksize
        omega
  · exact fun _ => trivial

theorem Durable.truncfile {len : Int} (durable : Durable inos info sfs)
    (loaded : sfs.inodes ino = some sin) (flags : TruncateFlags sfs ino len) :
    Ensures True (sfsTruncfile ino len) sfs fun _ after => Durable inos info after := by
  have consistent := durable.consistent
  unfold sfsTruncfile
  split_ifs with invalid
  · exact ensures_fail durable
  have valid : 0 ≤ len ∧ len ≤ sfsMaxFileSize := by omega
  have limited : len.toNat ≤ sfsMaxFileSize := by omega
  apply ensures_bind_run (run_getSin loaded)
  simp only []
  change Ensures _ (if sin.din.size = len.toNat then assert (fileBlocks len.toNat = sin.din.blocks)
    else do
      if sin.din.blocks < fileBlocks len.toNat then
        truncfileGrow ino sin.din.blocks (fileBlocks len.toNat - sin.din.blocks)
      else truncfileShrink ino (sin.din.blocks - fileBlocks len.toNat)
      let sin ← getSin ino
      assert (sin.din.blocks = fileBlocks len.toNat)
      updateDin ino fun din => { din with size := len.toNat }
      setDirty ino true) sfs _
  split_ifs with same longer
  · exact ensures_assert_last fun _ => durable
  · have start := Extended.refl consistent loaded
    have enlarge := @ensures_enlarge sfs inos ino sin sfs sin 0 (missingBlocks sin len) loaded start
    rw [Nat.zero_add, Nat.add_zero] at enlarge
    apply ensures_bind enlarge
    · rintro ⟨⟩ middle ⟨sin', extended⟩
      have advanced := extended.advanced
      exact durable.finish loaded limited advanced.consistent advanced.settled advanced.inodes
        advanced.loaded advanced.header
    · rintro ret middle ⟨added, sin', low, extended, short⟩
      apply extended.advanced.durable durable loaded
      by_cases none : added = 0
      · rw [none] at extended
        exact Or.inr extended.blocks
      · rcases flags sin loaded valid.1 valid.2 with flagged | enough
        · exact Or.inl (extended.flagged flagged (by omega) fun _ => short)
        · have whole := @growthCost_mono sfs ino sin.din.blocks (added + 1) (missingBlocks sin len)
            (by omega)
          omega
  · obtain ⟨middle, ran, shape, settled⟩ := @run_shrink sfs inos ino sin
      (sin.din.blocks - fileBlocks len.toNat) consistent loaded (by omega)
    have still : ∃ found, middle.inodes ino = some found := by
      rw [← Option.isSome_iff_exists, shape.loaded, loaded]
      rfl
    obtain ⟨found, stays⟩ := still
    have header := shape.header
    rw [dinOf_loaded stays, dinOf_loaded loaded] at header
    apply ensures_bind_run ran
    exact durable.finish loaded limited shape.consistent settled shape.others.inodes stays
      ⟨header.size, header.type, header.nlinks, rfl⟩

/-- The growth is not flagged: the first block can be added, and the added blocks change no block
pointer of a clean inode. -/
theorem Extended.unflagged {added missing : Nat}
    (extended : Extended inos ino sfs sin added after sin')
    (unflagged : ¬ GrowthFlagged sfs ino sin missing) (fewer : added ≤ missing) :
    sin'.dirty = false ∧ growthCost sfs ino sin.din.blocks 1 ≤ sfs.unusedBlocks := by
  unfold GrowthFlagged at unflagged
  push Not at unflagged
  obtain ⟨isClean, room, unmarked⟩ := unflagged
  refine ⟨?_, room⟩
  rw [← Bool.not_eq_true, extended.dirty]
  rintro (dirty | ⟨place, low, marks⟩)
  · exact isClean dirty
  · have enough := extended.enough
    have part := @growthCost_mono sfs ino sin.din.blocks (place + 1) added low
    exact unmarked place (by omega) (by omega) marks

/-- An inode that has grown and is clean is not the one on disk. -/
theorem Extended.lost {added : Nat} (extended : Extended inos ino sfs sin added after sin')
    (durable : Durable inos info sfs) (loaded : sfs.inodes ino = some sin) (positive : 0 < added)
    (wasClean : sin.dirty = false) :
    ¬ SameInode (DiskInode.ofBytes (after.disk ino)) sin'.din := by
  have member := durable.consistent.known ino sin loaded
  have fixed : after.disk ino = sfs.disk ino :=
    extended.advanced.settled.fixed ino fun movable => movable.2 member
  intro same
  have stored := ((durable.inode ino sin loaded).clean wasClean).header.blocks
  have blocks := same.header.blocks
  rw [fixed, stored, extended.blocks] at blocks
  omega

/-- What a call leaves that adds blocks and does not flag them. -/
def Lost (ino : Nat) (after : SfsFs) : Prop :=
  ∃ sin, after.inodes ino = some sin ∧ sin.dirty = false ∧
    ¬ SameInode (DiskInode.ofBytes (after.disk ino)) sin.din

theorem Durable.truncfile_extended {len : Int} (durable : Durable inos info sfs)
    (unflagged : ¬ TruncateFlags sfs ino len) :
    Ensures True (sfsTruncfile ino len) sfs fun _ after => ∃ sin added sin',
      sfs.inodes ino = some sin ∧ sin.dirty = false ∧ 0 < added ∧
        Extended inos ino sfs sin added after sin' ∧ sin'.dirty = false := by
  unfold TruncateFlags at unflagged
  push Not at unflagged
  obtain ⟨sin, loaded, nonneg, limited, growth, short⟩ := unflagged
  have wasClean : sin.dirty = false := by
    rw [← Bool.not_eq_true]
    exact fun dirty => growth (Or.inl dirty)
  have grows : 0 < missingBlocks sin len := by
    by_contra none
    rw [show missingBlocks sin len = 0 by omega, growthCost_zero] at short
    omega
  unfold missingBlocks at grows
  unfold sfsTruncfile
  rw [if_neg (by omega)]
  apply ensures_bind_run (run_getSin loaded)
  simp only []
  change Ensures _ (if sin.din.size = len.toNat then assert (fileBlocks len.toNat = sin.din.blocks)
    else do
      if sin.din.blocks < fileBlocks len.toNat then
        truncfileGrow ino sin.din.blocks (fileBlocks len.toNat - sin.din.blocks)
      else truncfileShrink ino (sin.din.blocks - fileBlocks len.toNat)
      let sin ← getSin ino
      assert (sin.din.blocks = fileBlocks len.toNat)
      updateDin ino fun din => { din with size := len.toNat }
      setDirty ino true) sfs _
  split_ifs with same longer
  · apply ensures_assert_last
    intro equal
    omega
  · have start := Extended.refl durable.consistent loaded
    have enlarge := @ensures_enlarge sfs inos ino sin sfs sin 0 (missingBlocks sin len) loaded start
    rw [Nat.zero_add, Nat.add_zero] at enlarge
    apply ensures_bind enlarge
    · rintro ⟨⟩ middle ⟨sin', extended⟩
      have enough := extended.enough
      omega
    · rintro ret middle ⟨added, sin', low, extended, full⟩
      obtain ⟨isClean, room⟩ := extended.unflagged growth (by omega)
      have positive : 0 < added := by
        by_contra none
        rw [show added = 0 by omega, Nat.zero_add] at full
        omega
      exact ⟨sin, added, sin', loaded, wasClean, positive, extended, isClean⟩
  · omega

/-! ## Transferring -/

/-- A transfer that has come as far as `done` bytes, from `offset` on. -/
structure Advancing (inos : List Nat) (ino offset : Nat) (sfs : SfsFs) (sin : SfsInode)
    (done added : Nat) (after : SfsFs) (sin' : SfsInode) : Prop where
  extended : Extended inos ino sfs sin added after sin'
  reached : done = 0 ∧ added = 0 ∨ offset + done ≤ (sin.din.blocks + added) * sfsBlksize
  used : added = 0 ∨ (sin.din.blocks + added - 1) * sfsBlksize < offset + done

def AdvancesTo (inos : List Nat) (ino offset : Nat) (sfs : SfsFs) (sin : SfsInode) (done : Nat)
    (_ : Bytes) (after : SfsFs) : Prop :=
  ∃ added sin', Advancing inos ino offset sfs sin done added after sin'

/-- No block was left to go on after `done` bytes. -/
def NoBlockLeft (ino offset : Nat) (sfs : SfsFs) (sin : SfsInode) (done : Nat) (after : SfsFs) :
    Prop :=
  ∃ added sin', after.inodes ino = some sin' ∧ sin'.din.blocks = sin.din.blocks + added ∧
    sfs.unusedBlocks < growthCost sfs ino sin.din.blocks (added + 1) ∧
    (sin.din.blocks + added) * sfsBlksize ≤ offset + done

section Parts

variable {offset done size blkno blkoff added : Nat} {middle : SfsFs}

/-- The block of a part is loaded, and its contents may change. -/
theorem Advancing.loaded (loaded : sfs.inodes ino = some sin)
    (advancing : Advancing inos ino offset sfs sin done added after sin')
    (place : offset + done = blkno * sfsBlksize + blkoff) (positive : 0 < size)
    (inside : blkoff + size ≤ sfsBlksize)
    (load : LoadAdvances inos ino blkno after sin' (.ok block) middle) :
    ∃ added' sin'', Advancing inos ino offset sfs sin (done + size) added' middle sin'' ∧
      target middle inos (.slot ino blkno) = some block := by
  obtain ⟨extended, reached, used⟩ := advancing
  obtain ⟨held, ⟨isBefore, rfl⟩ | ⟨atEnd, low, sin'', advanced, taken, one, slots⟩⟩ := load
  · rw [extended.blocks] at isBefore
    have upTo : (blkno + 1) * sfsBlksize ≤ (sin.din.blocks + added) * sfsBlksize :=
      Nat.mul_le_mul_right _ isBefore
    rw [Nat.add_mul, Nat.one_mul] at upTo
    exact ⟨added, sin', ⟨extended, Or.inr (by omega), by omega⟩, held⟩
  · rw [extended.blocks] at atEnd
    subst atEnd
    have upTo : (sin.din.blocks + (added + 1)) * sfsBlksize =
        (sin.din.blocks + added) * sfsBlksize + sfsBlksize := by ring
    refine ⟨added + 1, sin'', ⟨extended.more loaded low advanced taken one slots, ?_, ?_⟩, held⟩
    · right
      omega
    · right
      rw [← Nat.add_assoc, Nat.add_sub_cancel]
      omega

theorem Advancing.setData {bytes : Bytes}
    (advancing : Advancing inos ino offset sfs sin done added after sin')
    (held : target after inos (.slot ino blkno) = some block) :
    Advancing inos ino offset sfs sin done added (after.setBlock block bytes) sin' :=
  ⟨advancing.extended.setData held, advancing.reached, advancing.used⟩

theorem Advancing.refused {ret : Errno}
    (advancing : Advancing inos ino offset sfs sin done added after sin')
    (place : offset + done = blkno * sfsBlksize + blkoff)
    (load : LoadAdvances inos ino blkno after sin' (.error ret) middle) :
    Advancing inos ino offset sfs sin done added middle sin' ∧
      NoBlockLeft ino offset sfs sin done middle := by
  obtain ⟨extended, reached, used⟩ := advancing
  obtain ⟨_, atEnd, low, short, advanced, unused, slots⟩ := load
  have still := extended.unchanged advanced slots unused
  rw [extended.blocks] at atEnd
  subst atEnd
  exact ⟨⟨still, reached, used⟩, added, sin', advanced.loaded, extended.blocks,
    extended.short low short, by omega⟩

theorem Advancing.addressable (advancing : Advancing inos ino offset sfs sin done added after sin')
    (held : target after inos (.slot ino blkno) = some block) :
    OnDevice after ∧ Addressable after block := by
  have consistent := advancing.extended.advanced.consistent
  exact ⟨consistent.device, consistent.of_held held nofun⟩

theorem advanceRules {endpos : Nat} {write : Bool} (loaded : sfs.inodes ino = some sin) :
    PartRules ino offset endpos write (NoBlockLeft ino offset sfs sin) True
      (AdvancesTo inos ino offset sfs sin) where
  piece after done blkno blkoff size buf upTo place positive inside _ := by
    obtain ⟨added, sin', advancing⟩ := upTo
    have advanced := advancing.extended.advanced
    apply ensures_bind (ensures_load_advances advanced.consistent advanced.loaded)
    · intro block middle load
      obtain ⟨added', sin'', further, held⟩ := advancing.loaded loaded place positive inside load
      obtain ⟨device, addressable⟩ := further.addressable held
      have inBlock : blkoff < sfsBlksize ∧ blkoff + size ≤ sfsBlksize := ⟨by omega, inside⟩
      cases write with
      | true =>
          apply ensures_bind_run (run_wbuf device addressable inBlock _)
          exact ensures_pure ⟨rfl, rfl, added', sin'', further.setData held⟩
      | false =>
          apply ensures_bind_run (run_rbuf device addressable inBlock)
          exact ensures_pure ⟨rfl, rfl, added', sin'', further⟩
    · intro ret middle load
      obtain ⟨still, noBlock⟩ := advancing.refused place load
      exact ⟨load.1, noBlock, added, sin', still⟩
  whole after done blkno buf upTo place _ := by
    obtain ⟨added, sin', advancing⟩ := upTo
    have advanced := advancing.extended.advanced
    have atStart : offset + done = blkno * sfsBlksize + 0 := by omega
    have positive : 0 < sfsBlksize := by decide
    apply ensures_bind (ensures_load_advances advanced.consistent advanced.loaded)
    · intro block middle load
      obtain ⟨added', sin'', further, held⟩ :=
        advancing.loaded loaded atStart positive (Nat.zero_add _).le load
      obtain ⟨device, addressable⟩ := further.addressable held
      cases write with
      | true =>
          apply ensures_bind_run (run_wblock device addressable _)
          exact ensures_pure ⟨rfl, rfl, added', sin'', further.setData held⟩
      | false =>
          apply ensures_bind_run (run_rblock device addressable _ _)
          exact ensures_pure ⟨rfl, rfl, added', sin'', further⟩
    · intro ret middle load
      obtain ⟨still, noBlock⟩ := advancing.refused atStart load
      exact ⟨load.1, noBlock, added, sin', still⟩

end Parts

/-- At the end of a transfer the blocks it added are flagged, or it set the size. -/
theorem Advancing.flagged {offset alen endpos added : Nat} {outcome : Option Errno}
    (advancing : Advancing inos ino offset sfs sin alen added after sin') (positive : 0 < added)
    (finished : (outcome = none ∧ offset + alen = endpos) ∨
      (outcome = some .noMem ∧ NoBlockLeft ino offset sfs sin alen after ∧ offset + alen < endpos))
    (flags : GrowthFlagged sfs ino sin (fileBlocks endpos - sin.din.blocks) ∨
      fileBlocks endpos - sin.din.blocks = 0 ∨ (sin.din.size < endpos ∧
        growthCost sfs ino sin.din.blocks (sin.din.size / sfsBlksize + 1 - sin.din.blocks) ≤
          sfs.unusedBlocks)) :
    sin'.dirty = true ∨ sin.din.size < offset + alen := by
  obtain ⟨extended, reached, used⟩ := advancing
  have lastUsed : (sin.din.blocks + added - 1) * sfsBlksize < offset + alen := by omega
  have stuck : offset + alen < endpos →
      sfs.unusedBlocks < growthCost sfs ino sin.din.blocks (added + 1) ∧
        (sin.din.blocks + added) * sfsBlksize ≤ offset + alen := by
    intro early
    rcases finished with ⟨_, whole⟩ | ⟨_, ⟨added', found, isFound, blocks, short, low⟩, _⟩
    · omega
    · obtain rfl := Option.some.inj (extended.advanced.loaded.symm.trans isFound)
      have same : added' = added := by
        have other := extended.blocks
        omega
      subst same
      exact ⟨short, low⟩
  rcases flags with flagged | none | ⟨pass, room⟩
  · left
    apply extended.flagged flagged positive
    intro more
    apply (stuck _).1
    by_contra complete
    have upTo : endpos ≤ (sin.din.blocks + added) * sfsBlksize := by omega
    unfold fileBlocks sfsBlksize at *
    omega
  · unfold fileBlocks sfsBlksize at *
    omega
  · right
    by_cases early : offset + alen < endpos
    · obtain ⟨short, low⟩ := stuck early
      have enough : sin.din.size / sfsBlksize + 1 - sin.din.blocks ≤ added := by
        by_contra beyond
        have more := @growthCost_mono sfs ino sin.din.blocks (added + 1)
          (sin.din.size / sfsBlksize + 1 - sin.din.blocks) (by omega)
        omega
      unfold sfsBlksize at *
      omega
    · omega

/-- The converse: a clean inode has grown, and its size stays. -/
theorem Advancing.unflagged {offset alen endpos added : Nat} {outcome : Option Errno}
    (advancing : Advancing inos ino offset sfs sin alen added after sin')
    (proper : offset < endpos)
    (finished : (outcome = none ∧ offset + alen = endpos) ∨
      (outcome = some .noMem ∧ NoBlockLeft ino offset sfs sin alen after ∧ offset + alen < endpos))
    (growth : ¬ GrowthFlagged sfs ino sin (fileBlocks endpos - sin.din.blocks))
    (more : fileBlocks endpos - sin.din.blocks ≠ 0)
    (stays : sin.din.size < endpos → sfs.unusedBlocks <
      growthCost sfs ino sin.din.blocks (sin.din.size / sfsBlksize + 1 - sin.din.blocks)) :
    0 < added ∧ sin'.dirty = false ∧ offset + alen ≤ sin.din.size := by
  obtain ⟨extended, reached, used⟩ := advancing
  have enough := extended.enough
  have fewer : added ≤ fileBlocks endpos - sin.din.blocks := by
    unfold fileBlocks sfsBlksize at *
    omega
  obtain ⟨isClean, room⟩ := extended.unflagged growth fewer
  have beyond : sin.din.size < endpos →
      added < sin.din.size / sfsBlksize + 1 - sin.din.blocks := by
    intro passes
    have short := stays passes
    by_contra covered
    have part := @growthCost_mono sfs ino sin.din.blocks
      (sin.din.size / sfsBlksize + 1 - sin.din.blocks) added (by omega)
    omega
  rcases finished with ⟨_, whole⟩ | ⟨_, ⟨added', found, isFound, blocks, short, low⟩, early⟩
  · refine ⟨?_, isClean, ?_⟩
    · unfold fileBlocks sfsBlksize at *
      omega
    · unfold fileBlocks sfsBlksize at *
      omega
  · obtain rfl := Option.some.inj (extended.advanced.loaded.symm.trans isFound)
    have same : added' = added := by
      have other := extended.blocks
      omega
    subst same
    have positive : 0 < added' := by
      by_contra none
      rw [show added' = 0 by omega, Nat.zero_add] at short
      omega
    refine ⟨positive, isClean, ?_⟩
    unfold sfsBlksize at *
    omega

/-- The end of a transfer, which sets the size where the file has grown. -/
theorem Durable.transferred {middle : SfsFs} {offset alen added : Nat} {ret : Option Errno}
    {buf : Bytes} (durable : Durable inos info sfs) (loaded : sfs.inodes ino = some sin)
    (advancing : Advancing inos ino offset sfs sin alen added middle sin')
    (limited : offset + alen ≤ sfsMaxFileSize)
    (flagged : 0 < added → sin'.dirty = true ∨ sin.din.size < offset + alen) :
    Ensures True (do
      let sin ← getSin ino
      if offset + alen > sin.din.size then do
        updateDin ino fun din => { din with size := offset + alen }
        setDirty ino true
        pure (ret, alen, buf)
      else pure (ret, alen, buf) : SfsM (Option Errno × Nat × Bytes)) middle
      fun _ after => Durable inos info after := by
  have advanced := advancing.extended.advanced
  have stays := advanced.loaded
  have header := advanced.header
  have blocks := advancing.extended.blocks
  have size : sin'.din.size = sin.din.size := header.size
  apply ensures_bind_run (run_getSin stays)
  by_cases grows : offset + alen > sin'.din.size
  · rw [if_pos grows]
    let final : SfsInode :=
      { sin' with din := { sin'.din with size := offset + alen }, dirty := true }
    have pointers : SamePointers final.din sin'.din := ⟨fun _ _ => rfl, rfl⟩
    apply ensures_of_run
    · rw [run_updateDin_dirty stays]
      rfl
    have small : offset + alen < 2 ^ 32 := by
      unfold sfsMaxFileSize at limited
      omega
    obtain ⟨storable, _⟩ := durable.inode ino sin loaded
    apply durable.flag (advanced.consistent.setHeader stays pointers nofun)
      (advanced.settled.trans Settled.setInode) _ setInode_self _ rfl
    · intro other apart
      exact (Function.update_of_ne apart _ _).trans (advanced.inodes other apart)
    · refine ⟨?_, small, ?_, ?_, ?_⟩
      · show sin'.din.nlinks ≠ 0
        rw [header.nlinks]
        exact storable.linked
      · show sin'.din.type < 2 ^ 16
        rw [header.type]
        exact storable.type
      · show sin'.din.nlinks < 2 ^ 16
        rw [header.nlinks]
        exact storable.nlinks
      · show sin'.din.blocks < 2 ^ 32
        rcases advanced.limited with same | low
        · rw [same]
          exact storable.blocks
        · exact lt_of_le_of_lt low slotCount_small
  · rw [if_neg grows]
    apply ensures_pure
    apply advanced.durable durable loaded
    by_cases none : added = 0
    · right
      omega
    · left
      rcases flagged (by omega) with dirty | passed
      · exact dirty
      · omega

theorem endposOf_limited {offset : Int} {length : Nat} {write : Bool} :
    endposOf sin offset length write ≤ sfsMaxFileSize := by
  unfold endposOf
  simp only []
  split_ifs <;> omega

/-- A transfer does nothing, or it goes through its parts. -/
theorem ensures_io {buf : Bytes} {offset : Int} {length : Nat} {write : Bool} {post : SfsFs → Prop}
    (consistent : Consistent sfs inos)
    (idle : (∀ sin, sfs.inodes ino = some sin →
      ¬ (0 ≤ offset ∧ offset < endposOf sin offset length write)) → post sfs)
    (transfers : ∀ sin (outcome : Option Errno) (moved : Transfer) middle added sin',
      sfs.inodes ino = some sin → 0 ≤ offset → offset.toNat < endposOf sin offset length write →
      Advancing inos ino offset.toNat sfs sin moved.alen added middle sin' →
      ((outcome = none ∧ offset.toNat + moved.alen = endposOf sin offset length write) ∨
        (outcome = some .noMem ∧ NoBlockLeft ino offset.toNat sfs sin moved.alen middle ∧
          offset.toNat + moved.alen < endposOf sin offset length write)) →
      Ensures True (do
        let sin ← getSin ino
        if offset.toNat + moved.alen > sin.din.size then do
          updateDin ino fun din => { din with size := offset.toNat + moved.alen }
          setDirty ino true
          pure (outcome, moved.alen, moved.buf)
        else pure (outcome, moved.alen, moved.buf) : SfsM (Option Errno × Nat × Bytes)) middle
        fun _ after => post after) :
    Ensures True (sfsIoNolock ino buf offset length write) sfs fun _ after => post after := by
  apply ensures_getSin
  intro sin loaded
  apply ensures_assert
  · intro _
    simp only []
    have endpos : (if write = false ∧ (if wrap64 (offset + length) > sfsMaxFileSize then
        sfsMaxFileSize else (wrap64 (offset + length)).toNat) > sin.din.size then sin.din.size
        else if wrap64 (offset + length) > sfsMaxFileSize then sfsMaxFileSize
        else (wrap64 (offset + length)).toNat) = endposOf sin offset length write := rfl
    have stays : ¬ (0 ≤ offset ∧ offset < endposOf sin offset length write) → post sfs := by
      intro nothing
      apply idle
      intro found isFound
      rwa [Option.some.inj (isFound.symm.trans loaded)]
    have limited := @endposOf_limited sin offset length write
    have clipped : (endposOf sin offset length write : Int) ≤ max 0 (wrap64 (offset + length)) := by
      rw [← endpos]
      split_ifs <;> omega
    by_cases invalid : offset < 0 ∨ offset ≥ sfsMaxFileSize ∨ offset > wrap64 (offset + length)
    · rw [if_pos invalid]
      exact ensures_pure (stays (by omega))
    rw [if_neg invalid]
    by_cases empty : offset = wrap64 (offset + length)
    · rw [if_pos empty]
      exact ensures_pure (stays (by omega))
    rw [if_neg empty]
    by_cases beyond : write = false ∧ offset.toNat ≥ sin.din.size
    · rw [if_pos beyond]
      have atEnd : endposOf sin offset length write ≤ sin.din.size := by
        rw [← endpos]
        split_ifs with long clip clip
        · exact le_rfl
        · exact Nat.not_lt.mp fun more => clip ⟨beyond.1, more⟩
        · exact le_rfl
        · exact Nat.not_lt.mp fun more => clip ⟨beyond.1, more⟩
      have reached := beyond.2
      exact ensures_pure (stays (by omega))
    rw [if_neg beyond, endpos]
    have nonneg : 0 ≤ offset := by omega
    have before : write = false → offset.toNat < sin.din.size := by
      intro isRead
      by_contra far
      exact beyond ⟨isRead, by omega⟩
    have proper : offset.toNat < endposOf sin offset length write := by
      rw [← endpos]
      split_ifs with long clip clip
      · exact before clip.1
      · omega
      · exact before clip.1
      · omega
    have start : AdvancesTo inos ino offset.toNat sfs sin 0 buf sfs :=
      ⟨0, sin, Extended.refl consistent loaded, Or.inl ⟨rfl, rfl⟩, Or.inl rfl⟩
    have parts := ensures_ioParts
      (@advanceRules sfs inos ino sin offset.toNat (endposOf sin offset length write) write loaded)
      start proper
    apply ensures_bind parts
    · rintro ⟨outcome, moved⟩ middle ⟨⟨added, sin', advancing⟩, finished⟩
      exact transfers sin outcome moved middle added sin' loaded nonneg proper advancing finished
    · exact fun _ _ impossible => impossible.elim
  · exact fun _ => trivial

section Io

variable {buf : Bytes} {offset : Int} {length : Nat} {write : Bool}

theorem Durable.io (durable : Durable inos info sfs) (flags : IoFlags sfs ino offset length write) :
    Ensures True (sfsIoNolock ino buf offset length write) sfs
      fun _ after => Durable inos info after := by
  apply ensures_io durable.consistent
  · exact fun _ => durable
  · intro sin outcome moved middle added sin' loaded nonneg proper advancing finished
    have limited := @endposOf_limited sin offset length write
    apply durable.transferred loaded advancing (by omega)
    intro positive
    exact advancing.flagged positive finished (flags sin loaded nonneg (by omega))

theorem Durable.io_lost (durable : Durable inos info sfs)
    (unflagged : ¬ IoFlags sfs ino offset length write) :
    Ensures True (sfsIoNolock ino buf offset length write) sfs fun _ after => Lost ino after := by
  unfold IoFlags at unflagged
  push Not at unflagged
  obtain ⟨sin, loaded, nonneg, proper, growth, more, short⟩ := unflagged
  apply ensures_io durable.consistent
  · exact fun idle => absurd ⟨nonneg, proper⟩ (idle sin loaded)
  · intro found outcome moved middle added sin' isFound _ proper' advancing finished
    obtain rfl := Option.some.inj (loaded.symm.trans isFound)
    obtain ⟨positive, isClean, stays⟩ :=
      advancing.unflagged proper' finished growth more short
    have wasClean : sin.dirty = false := by
      rw [← Bool.not_eq_true]
      exact fun dirty => growth (Or.inl dirty)
    have extended := advancing.extended
    have size : sin'.din.size = sin.din.size := extended.advanced.header.size
    apply ensures_bind_run (run_getSin extended.advanced.loaded)
    rw [if_neg (by omega)]
    exact ensures_pure ⟨sin', extended.advanced.loaded, isClean,
      extended.lost durable loaded positive wasClean⟩

end Io

end UCore.Fs
