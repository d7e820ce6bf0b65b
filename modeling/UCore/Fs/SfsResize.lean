import UCore.Fs.SfsContent

/-!
Contract: growing and shrinking a file, `sfs_truncfile` of `kern/fs/sfs/sfs_inode.c`.

Owns:
- how many free blocks loading a block at the end of a file takes, and what it marks;
- the growth of a file block by block, which may run out of free blocks part way;
- what truncating a regular file leaves, on an error too.

Does not own: runs of calls.
-/

set_option autoImplicit false

namespace UCore.Fs

open UCore.Lib UCore.Lib.Program

variable {sfs after : SfsFs} {inos : List Nat} {ino index block : Nat} {sin sin' : SfsInode}

/-! ## Free blocks -/

/-- The free blocks that are taken to fill the slot at `index`: one for the slot and one for an
indirect block, where they are missing. -/
def loadCost (sfs : SfsFs) (ino index : Nat) : Nat :=
  if slotAt sfs ino index ≠ 0 then 0
  else if sfsNdirect ≤ index ∧ (dinOf sfs ino).indirect = 0 then 2
  else 1

/-- Filling the slot at `index` changes the disk inode. -/
def LoadMarks (sfs : SfsFs) (ino index : Nat) : Prop :=
  slotAt sfs ino index = 0 ∧ (index < sfsNdirect ∨ (dinOf sfs ino).indirect = 0)

instance (sfs : SfsFs) (ino index : Nat) : Decidable (LoadMarks sfs ino index) :=
  inferInstanceAs (Decidable (_ ∧ _))

theorem Consistent.unused_of_full (consistent : Consistent sfs inos)
    (full : firstFree sfs = none) : sfs.unusedBlocks = 0 := by
  rw [consistent.exact.counted, List.countP_eq_zero]
  intro block member
  have mapped : block < sfs.freemapBits :=
    lt_of_lt_of_le (List.mem_range.mp member) consistent.device.mapped
  exact List.find?_eq_none.mp full block (List.mem_range.mpr mapped)

/-- What a lookup that filled the slot at `index` took and marked. -/
structure Taken (inos : List Nat) (ino index : Nat) (sfs : SfsFs) (sin : SfsInode)
    (after : SfsFs) (sin' : SfsInode) : Prop where
  loaded : after.inodes ino = some sin'
  settled : Settled inos sfs after
  unused : after.unusedBlocks + loadCost sfs ino index = sfs.unusedBlocks
  indirect : sin'.din.indirect = 0 ↔ sin.din.indirect = 0 ∧ index < sfsNdirect
  dirty : sin'.dirty = (sin.dirty || decide (LoadMarks sfs ino index))
  unmarked : ¬ LoadMarks sfs ino index → SamePointers sin'.din sin.din

/-- What the block at `index` contains when a lookup has filled its slot: a new block is empty. -/
def filledData (sfs : SfsFs) (ino index : Nat) : Bytes :=
  if slotAt sfs ino index = 0 then Bytes.zeros else sfs.disk (slotAt sfs ino index)

/-- The slot at `index` was filled, or the free blocks did not suffice for it. -/
def TakesSpace (inos : List Nat) (ino index : Nat) (sfs : SfsFs) (sin : SfsInode) :
    Except Errno Nat → SfsFs → Prop
  | .ok block, after => after.disk block = filledData sfs ino index ∧
      ∃ sin', Taken inos ino index sfs sin after sin'
  | .error _, after => sfs.unusedBlocks < loadCost sfs ino index ∧
      after.inodes = sfs.inodes ∧ after.unusedBlocks = sfs.unusedBlocks ∧ Settled inos sfs after

section Space

variable (consistent : Consistent sfs inos) (loaded : sfs.inodes ino = some sin)
include loaded

/-- Nothing is taken where the slot is filled. -/
theorem taken_same (filled : slotAt sfs ino index ≠ 0) :
    Taken inos ino index sfs sin sfs sin where
  loaded := loaded
  settled := Settled.refl
  unused := by rw [loadCost, if_pos filled, Nat.add_zero]
  indirect := by
    refine ⟨fun none => ⟨none, ?_⟩, And.left⟩
    by_contra beyond
    exact filled (by rw [slotAt_loaded loaded, slotOf_empty beyond (Or.inr none)])
  dirty := by
    have unmarked : ¬ LoadMarks sfs ino index := fun marks => filled marks.1
    rw [decide_eq_false unmarked, Bool.or_false]
  unmarked _ := ⟨fun _ _ => rfl, rfl⟩

theorem loadCost_one (empty : slotAt sfs ino index = 0)
    (direct : index < sfsNdirect ∨ sin.din.indirect ≠ 0) : loadCost sfs ino index = 1 := by
  have single : ¬ (sfsNdirect ≤ index ∧ (dinOf sfs ino).indirect = 0) := by
    rw [dinOf_loaded loaded]
    rintro ⟨beyond, none⟩
    rcases direct with low | linked
    · omega
    · exact linked none
  rw [loadCost, if_neg (not_not.mpr empty), if_neg single]

include consistent

theorem space_direct (direct : index < sfsNdirect) :
    Ensures False (bmapGetBlock ino index true) sfs (TakesSpace inos ino index sfs sin) := by
  have slot : slotAt sfs ino index = sin.din.direct index := by
    rw [slotAt_loaded loaded, slotOf_direct direct]
  by_cases empty : sin.din.direct index = 0
  · have start : bmapGetBlock ino index true sfs = (do
        let block ← sfsBlockAlloc
        updateDin ino fun din => { din with direct := Function.update din.direct index block }
        setDirty ino true
        pure block : SfsM Nat) sfs := by
      rw [bmapGetBlock, run_bind (run_getSin loaded), if_pos direct, if_pos ⟨empty, rfl⟩]
    have one := loadCost_one loaded (slot.trans empty) (Or.inl direct)
    cases first : firstFree sfs with
    | none =>
        have full := consistent.unused_of_full first
        apply @ensures_of_run _ _ _ _ _ _ _ _ (.error .noMem) sfs
        · rw [start, run_bind_error (run_blockAlloc_none first)]
        · exact ⟨by omega, rfl, rfl, Settled.refl⟩
    | some block =>
        have free := firstFree_free first
        have left := consistent.exact.unused_pos free
        have marks : LoadMarks sfs ino index := ⟨slot.trans empty, Or.inl direct⟩
        apply ensures_of_run
        · rw [start, run_bind (consistent.run_alloc first)]
          apply run_updateDin_dirty (show (sfs.take block).inodes ino = some sin from loaded)
        · refine ⟨?_, _, setInode_self, ?_, ?_, ?_, ?_, fun unmarked => absurd marks unmarked⟩
          · rw [filledData, if_pos (slot.trans empty)]
            exact Function.update_self _ _ _
          · exact (Settled.take (consistent.movable_of_free free)).trans Settled.setInode
          · show sfs.unusedBlocks - 1 + loadCost sfs ino index = sfs.unusedBlocks
            omega
          · exact ⟨fun none => ⟨none, direct⟩, And.left⟩
          · rw [decide_eq_true marks, Bool.or_true]
  · apply @ensures_of_run _ _ _ _ _ _ _ _ (.ok (sin.din.direct index)) sfs
    · rw [bmapGetBlock, run_bind (run_getSin loaded), if_pos direct,
        if_neg fun missing => empty missing.1]
      rfl
    · exact ⟨by rw [filledData, slot, if_neg empty], sin, taken_same loaded (by rwa [slot])⟩

/-- The inode has an indirect block. -/
theorem space_indirect (beyond : ¬ index < sfsNdirect) (inside : index < slotCount)
    (linked : sin.din.indirect ≠ 0) :
    Ensures False (bmapGetBlock ino index true) sfs (TakesSpace inos ino index sfs sin) := by
  have entry : index - sfsNdirect < sfsBlkNentry := by
    unfold slotCount at inside
    omega
  have slot : slotAt sfs ino index =
      entryOf (sfs.disk sin.din.indirect) (index - sfsNdirect) := by
    rw [slotAt_loaded loaded, slotOf_entry beyond inside linked]
  have addressable := consistent.addressable_indirect loaded linked
  by_cases missing : entryOf (sfs.disk sin.din.indirect) (index - sfsNdirect) = 0
  · have start := run_getSub_missing consistent.device addressable entry missing
    have one := loadCost_one loaded (slot.trans missing) (Or.inr linked)
    cases first : firstFree sfs with
    | none =>
        have full := consistent.unused_of_full first
        apply ensures_of_run (run_getIndirect_error loaded beyond inside
          (start.trans (run_newEntry_none first)))
        exact ⟨by omega, rfl, rfl, Settled.refl⟩
    | some block =>
        have free := firstFree_free first
        have left := consistent.exact.unused_pos free
        have held : target sfs inos (.indirect ino) = some sin.din.indirect := by
          rw [← dinOf_loaded loaded] at linked ⊢
          exact target_of_indirect (consistent.known ino sin loaded) linked
        have movable : Movable (sfs.take block) inos sin.din.indirect :=
          consistent.movable_of_held held nofun nofun
        have device : OnDevice (sfs.take block) := consistent.device.congr ⟨rfl, rfl, rfl⟩
        apply ensures_of_run (run_getIndirect_same loaded beyond inside
          (start.trans (run_newEntry_some (consistent.run_alloc first) device addressable entry)))
        have apart : block ≠ sin.din.indirect := by
          rintro rfl
          exact Bool.noConfusion (free.symm.trans (consistent.used held))
        refine ⟨?_, sin, loaded, ?_, ?_, ?_, ?_, fun _ => ⟨fun _ _ => rfl, rfl⟩⟩
        · rw [filledData, if_pos (slot.trans missing)]
          exact (Function.update_of_ne apart _ _).trans (Function.update_self _ _ _)
        · exact (Settled.take (consistent.movable_of_free free)).trans (Settled.setBlock movable)
        · show sfs.unusedBlocks - 1 + loadCost sfs ino index = sfs.unusedBlocks
          omega
        · exact iff_of_false linked fun both => linked both.1
        · have unmarked : ¬ LoadMarks sfs ino index := by
            rintro ⟨_, direct | none⟩
            · exact beyond direct
            · rw [dinOf_loaded loaded] at none
              exact linked none
          rw [decide_eq_false unmarked, Bool.or_false]
  · apply ensures_of_run (run_getIndirect_same loaded beyond inside
      (run_getSub_found consistent.device addressable entry (Or.inl missing)))
    exact ⟨by rw [filledData, slot, if_neg missing], sin, taken_same loaded (by rwa [slot])⟩

/-- The inode has no indirect block. -/
theorem space_new (beyond : ¬ index < sfsNdirect) (inside : index < slotCount)
    (none : sin.din.indirect = 0) :
    Ensures False (bmapGetBlock ino index true) sfs (TakesSpace inos ino index sfs sin) := by
  have entry : index - sfsNdirect < sfsBlkNentry := by
    unfold slotCount at inside
    omega
  have slot : slotAt sfs ino index = 0 := by
    rw [slotAt_loaded loaded, slotOf_empty beyond (Or.inr none)]
  have linkless : (dinOf sfs ino).indirect = 0 := by rw [dinOf_loaded loaded, none]
  have two : loadCost sfs ino index = 2 := by
    rw [loadCost, if_neg (not_not.mpr slot), if_pos ⟨Nat.not_lt.mp beyond, linkless⟩]
  have marks : LoadMarks sfs ino index := ⟨slot, Or.inr linkless⟩
  cases first : firstFree sfs with
  | none =>
      have full := consistent.unused_of_full first
      apply ensures_of_run (run_getIndirect_error loaded beyond inside
        (by rw [none]; exact run_getSub_full entry first))
      exact ⟨by omega, rfl, rfl, Settled.refl⟩
  | some ent =>
      have free := firstFree_free first
      have left := consistent.exact.unused_pos free
      have start := run_getSub_new entry (consistent.run_alloc first)
      have device : OnDevice (sfs.take ent) := consistent.device.congr ⟨rfl, rfl, rfl⟩
      have addressable : Addressable (sfs.take ent) ent := consistent.of_free free
      -- the inode with its new indirect block, which the kernel links last
      let linked : SfsInode := { sin with din := { sin.din with indirect := ent }, dirty := true }
      have still := (@Consistent.withIndirect sfs inos ino index ent sin linked consistent loaded
        none free rfl rfl).1
      have remains : (sfs.take ent).unusedBlocks = sfs.unusedBlocks - 1 := rfl
      have movable := consistent.movable_of_free free
      cases second : firstFree (sfs.take ent) with
      | none =>
          have full := still.unused_of_full second
          have used : (sfs.take ent).freemap ent = false := Function.update_self _ _ _
          have refused := @run_newEntry_none_new (sfs.take ent) 0 ent (index - sfsNdirect) second
            addressable.1 device addressable used
          apply ensures_of_run (run_getIndirect_error loaded beyond inside
            (by rw [none]; exact start.trans refused))
          have noneLeft : sfs.unusedBlocks - 1 = 0 := full
          have whole : sfs.unusedBlocks - 1 + 1 = sfs.unusedBlocks := by omega
          exact ⟨by omega, rfl, whole, (Settled.take movable).trans Settled.give⟩
      | some block =>
          have free' : ((sfs.take ent).setInode ino linked).freemap block = true :=
            firstFree_free second
          have left' : 0 < sfs.unusedBlocks - 1 := still.exact.unused_pos free'
          have allocated : sfsBlockAlloc (sfs.take ent) =
              .ok (.ok block, (sfs.take ent).take block) :=
            run_blockAlloc_some device (still.of_free free') second left'
          have device' : OnDevice ((sfs.take ent).take block) := device.congr ⟨rfl, rfl, rfl⟩
          have entered := @run_newEntry_some (sfs.take ent) _ block 0 ent (index - sfsNdirect)
            allocated device' addressable entry
          apply ensures_of_run (run_getIndirect_new loaded beyond inside none addressable.1
            (by exact loaded) (start.trans entered))
          have apart : block ≠ ent := by
            rintro rfl
            have used : (sfs.take block).freemap block = false := Function.update_self _ _ _
            exact Bool.noConfusion (free'.symm.trans used)
          refine ⟨?_, linked, setInode_self, ?_, ?_, ?_, ?_, fun unmarked => absurd marks unmarked⟩
          · rw [filledData, if_pos slot]
            exact (Function.update_of_ne apart _ _).trans (Function.update_self _ _ _)
          · have movable' : Movable (sfs.take ent) inos block := still.movable_of_free free'
            exact (((Settled.take movable).trans (Settled.take movable')).trans
              (Settled.setBlock (show Movable ((sfs.take ent).take block) inos ent from movable))).trans
              Settled.setInode
          · show sfs.unusedBlocks - 1 - 1 + loadCost sfs ino index = sfs.unusedBlocks
            omega
          · exact iff_of_false addressable.1 fun both => beyond both.2
          · rw [decide_eq_true marks, Bool.or_true]

theorem space_getBlock (inside : index < slotCount) :
    Ensures False (bmapGetBlock ino index true) sfs (TakesSpace inos ino index sfs sin) := by
  by_cases direct : index < sfsNdirect
  · exact space_direct consistent loaded direct
  · by_cases none : sin.din.indirect = 0
    · exact space_new consistent loaded direct inside none
    · exact space_indirect consistent loaded direct inside none

theorem space_get (inside : index < slotCount) :
    Ensures False (sfsBmapGetNolock ino index true) sfs fun result after =>
      Got inos ino index true sfs result after ∧ TakesSpace inos ino index sfs sin result after := by
  have got := (@ensures_bmapGetBlock sfs inos ino index sin true consistent loaded).both
    (space_getBlock consistent loaded inside)
  apply ensures_bind (got.weaken And.right fun _ _ post => post)
  · rintro block after ⟨placed, taken⟩
    have zero := placed.filled rfl
    have member := consistent.known ino sin loaded
    have filled : slotAt after ino index ≠ 0 := by rwa [placed.slot]
    have addressable := placed.consistent.addressable_slot member filled
    have used := placed.consistent.used (target_of_slot member filled)
    rw [placed.slot] at addressable used
    rw [if_neg zero]
    apply ensures_of_run
    · rw [run_bind (run_inuse placed.consistent.device addressable),
        run_bind (run_assert after (by rw [used]; rfl))]
      rfl
    · exact ⟨placed, taken⟩
  · exact fun _ _ refused => refused

/-- Loading the block after the last one, which counts it. -/
theorem space_load (atEnd : index = sin.din.blocks) (inside : index < slotCount) :
    Ensures False (sfsBmapLoadNolock ino index) sfs (TakesSpace inos ino index sfs sin) := by
  have isEnd : decide (index = sin.din.blocks) = true := decide_eq_true atEnd
  have member := consistent.known ino sin loaded
  apply ensures_bind_run (run_getSin loaded)
  apply ensures_bind_run (run_assert sfs (Nat.le_of_eq atEnd))
  rw [isEnd]
  apply ensures_bind (space_get consistent loaded inside)
  · rintro block after ⟨placed, data, sin', taken⟩
    have filled : slotAt after ino index ≠ 0 := by
      rw [placed.slot]
      exact placed.filled rfl
    have addressable := placed.consistent.addressable_slot member filled
    have used := placed.consistent.used (target_of_slot member filled)
    rw [placed.slot] at addressable used
    apply ensures_bind_run (run_inuse placed.consistent.device addressable)
    apply ensures_bind_run (run_assert after (by rw [used]; rfl))
    rw [if_pos rfl]
    apply ensures_bind_run (run_updateDin taken.loaded)
    exact ensures_pure ⟨data, _, setInode_self, taken.settled.trans Settled.setInode, taken.unused,
      taken.indirect, taken.dirty, taken.unmarked⟩
  · exact fun _ _ refused => refused.2

end Space

/-- Beyond the entries of the indirect block the kernel panics. -/
theorem run_load_outside (loaded : sfs.inodes ino = some sin) (reached : index ≤ sin.din.blocks)
    (outside : ¬ index < slotCount) : sfsBmapLoadNolock ino index sfs = .error .panicked := by
  have direct : ¬ index < sfsNdirect := by
    unfold slotCount at outside
    omega
  have entry : ¬ index - sfsNdirect < sfsBlkNentry := by
    unfold slotCount at outside
    omega
  rw [sfsBmapLoadNolock, run_bind (run_getSin loaded), run_bind (run_assert sfs reached)]
  simp only [bind, Program.bind, sfsBmapGetNolock, bmapGetBlock, run_getSin loaded, if_neg direct,
    if_neg entry]
  rfl

/-! ## Growing -/

/-- The empty ones of the `missing` slots from `nblks` on. -/
def emptySlots (sfs : SfsFs) (ino nblks : Nat) : Nat → Nat
  | 0 => 0
  | missing + 1 =>
      (if nblks < slotCount ∧ slotAt sfs ino nblks = 0 then 1 else 0) +
        emptySlots sfs ino (nblks + 1) missing

/-- The free blocks that growing by `missing` blocks takes, as far as the block map goes. -/
def growthCost (sfs : SfsFs) (ino nblks missing : Nat) : Nat :=
  emptySlots sfs ino nblks missing +
    if 0 < missing ∧ (dinOf sfs ino).indirect = 0 ∧ sfsNdirect < nblks + missing then 1 else 0

theorem emptySlots_congr {nblks missing : Nat}
    (same : ∀ index, nblks ≤ index → slotAt after ino index = slotAt sfs ino index) :
    emptySlots after ino nblks missing = emptySlots sfs ino nblks missing := by
  induction missing generalizing nblks with
  | zero => rfl
  | succ missing inductionHypothesis =>
      rw [emptySlots, emptySlots, same nblks le_rfl,
        inductionHypothesis fun index low => same index (by omega)]

/-- The first block and the others. -/
theorem growthCost_succ {nblks missing : Nat} (loaded : sfs.inodes ino = some sin)
    (inside : nblks < slotCount)
    (same : ∀ index, nblks + 1 ≤ index → slotAt after ino index = slotAt sfs ino index)
    (taken : Taken inos ino nblks sfs sin after sin') :
    growthCost sfs ino nblks (missing + 1) =
      loadCost sfs ino nblks + growthCost after ino (nblks + 1) missing := by
  have rest := @emptySlots_congr sfs after ino (nblks + 1) missing same
  have indirect := taken.indirect
  rw [growthCost, growthCost, emptySlots, rest, dinOf_loaded loaded, dinOf_loaded taken.loaded,
    loadCost, dinOf_loaded loaded]
  simp only [inside, true_and, indirect, ne_eq, ite_not]
  by_cases empty : slotAt sfs ino nblks = 0
  · rw [if_pos empty, if_pos empty]
    split_ifs <;> omega
  · have linked : sin.din.indirect = 0 → nblks < sfsNdirect := by
      intro none
      by_contra beyond
      exact empty (by rw [slotAt_loaded loaded, slotOf_empty beyond (Or.inr none)])
    rw [if_neg empty, if_neg empty]
    split_ifs <;> omega

theorem loadCost_le_growthCost {nblks missing : Nat} (inside : nblks < slotCount) :
    loadCost sfs ino nblks ≤ growthCost sfs ino nblks (missing + 1) := by
  rw [growthCost, emptySlots, loadCost]
  simp only [inside, true_and, ne_eq, ite_not]
  by_cases empty : slotAt sfs ino nblks = 0
  · rw [if_pos empty, if_pos empty]
    split_ifs <;> omega
  · rw [if_neg empty, if_neg empty]
    omega

/-- The file has `blocks` blocks now, of which those below `kept` are the same as before. -/
structure Reshaped (inos : List Nat) (ino kept blocks : Nat) (sfs after : SfsFs) : Prop where
  consistent : Consistent after inos
  others : OthersKept inos ino sfs after
  loaded : (after.inodes ino).isSome = (sfs.inodes ino).isSome
  header : SameHeader (dinOf after ino) { dinOf sfs ino with blocks := blocks }
  slots : ∀ place, place < kept → slotAt after ino place = slotAt sfs ino place
  data : ∀ place, place < kept → slotAt sfs ino place ≠ 0 →
    after.disk (slotAt sfs ino place) = sfs.disk (slotAt sfs ino place)

theorem Reshaped.refl (consistent : Consistent sfs inos) {kept : Nat} :
    Reshaped inos ino kept (dinOf sfs ino).blocks sfs sfs :=
  ⟨consistent, OthersKept.refl, rfl, SameHeader.refl _, fun _ _ => rfl, fun _ _ _ => rfl⟩

theorem Reshaped.trans {middle : SfsFs} {kept kept' blocks blocks' : Nat}
    (first : Reshaped inos ino kept blocks sfs middle)
    (second : Reshaped inos ino kept' blocks' middle after) (fewer : kept ≤ kept') :
    Reshaped inos ino kept blocks' sfs after where
  consistent := second.consistent
  others := first.others.trans second.others
  loaded := second.loaded.trans first.loaded
  header := by
    refine ⟨?_, ?_, ?_, second.header.blocks⟩
    · exact second.header.size.trans first.header.size
    · exact second.header.type.trans first.header.type
    · exact second.header.nlinks.trans first.header.nlinks
  slots place low := (second.slots place (by omega)).trans (first.slots place low)
  data place low nonzero := by
    have same := first.slots place low
    have kept := second.data place (by omega) (same ▸ nonzero)
    rw [same] at kept
    exact kept.trans (first.data place low nonzero)

theorem Reshaped.fewer {kept fewer blocks : Nat} (shape : Reshaped inos ino kept blocks sfs after)
    (low : fewer ≤ kept) : Reshaped inos ino fewer blocks sfs after :=
  { shape with
    slots := fun place inside => shape.slots place (by omega)
    data := fun place inside => shape.data place (by omega) }

theorem Resized.reshaped {blocks kept : Nat} (change : Resized inos ino index blocks sfs after)
    (member : ino ∈ inos) (consistent : Consistent after inos) (low : kept ≤ index) :
    Reshaped inos ino kept blocks sfs after where
  consistent := consistent
  others := change.othersKept
  loaded := change.loaded
  header := change.header
  slots place inside := change.slots ino member place (Or.inr (by omega))
  data place inside := change.data ino member place (Or.inr (by omega))

/-- Every block that was added is there. -/
def FilledFrom (sfs : SfsFs) (ino nblks blocks : Nat) : Prop :=
  ∀ index, nblks ≤ index → index < blocks → slotAt sfs ino index ≠ 0

/-- The file has all the blocks it was to have, or it has some of them and no block is left. -/
def Grows (inos : List Nat) (ino nblks missing : Nat) (sfs : SfsFs) :
    Except Errno Unit → SfsFs → Prop
  | .ok (), after => growthCost sfs ino nblks missing ≤ sfs.unusedBlocks ∧
      Reshaped inos ino nblks (nblks + missing) sfs after ∧
      FilledFrom after ino nblks (nblks + missing)
  | .error ret, after => ret = .noMem ∧ sfs.unusedBlocks < growthCost sfs ino nblks missing ∧
      ∃ blocks, nblks ≤ blocks ∧ blocks < nblks + missing ∧
        (loadCost sfs ino nblks ≤ sfs.unusedBlocks ↔ nblks < blocks) ∧
        Reshaped inos ino nblks blocks sfs after ∧ FilledFrom after ino nblks blocks

theorem ensures_grow {nblks missing : Nat} (consistent : Consistent sfs inos)
    (loaded : sfs.inodes ino = some sin) (atEnd : nblks = sin.din.blocks) :
    Ensures (¬ nblks + missing ≤ slotCount) (truncfileGrow ino nblks missing) sfs
      (Grows inos ino nblks missing sfs) := by
  induction missing generalizing nblks sfs sin with
  | zero =>
      have din := dinOf_loaded loaded
      have same : (dinOf sfs ino).blocks = nblks := by rw [din, atEnd]
      have kept := same ▸ @Reshaped.refl sfs inos ino consistent nblks
      refine ensures_pure ⟨Nat.zero_le _, kept, ?_⟩
      intro index low high
      omega
  | succ missing inductionHypothesis =>
      have member := consistent.known ino sin loaded
      by_cases inside : nblks < slotCount
      · have canLoad : CanLoad sfs ino nblks := by
          refine ⟨?_, inside, ?_⟩
          · rw [dinOf_loaded loaded, atEnd]
          · intro isBefore
            rw [dinOf_loaded loaded] at isBefore
            omega
        have load := (ensures_bmapLoad consistent loaded).both
          (space_load consistent loaded atEnd inside)
        apply ensures_bind (load.weaken (fun cannot => absurd canLoad cannot.1) fun _ _ post => post)
        · rintro block middle ⟨placed, _, sin', taken⟩
          have change := placed.atEnd (by rw [dinOf_loaded loaded, atEnd])
          rw [dinOf_loaded loaded, ← atEnd] at change
          have blocks : sin'.din.blocks = nblks + 1 := by
            rw [← dinOf_loaded taken.loaded]
            exact change.header.blocks
          have first := change.reshaped member placed.consistent le_rfl
          have cost := @growthCost_succ sfs middle inos ino sin sin' nblks missing loaded inside
            (fun index low => change.slots ino member index (Or.inr (by omega))) taken
          have filled : slotAt middle ino nblks ≠ 0 := by
            rw [placed.slot]
            exact placed.nonzero
          have unused := taken.unused
          have total : nblks + 1 + missing = nblks + (missing + 1) := by omega
          apply (inductionHypothesis placed.consistent taken.loaded blocks.symm).weaken (by omega)
          intro result after grows
          have withFirst : ∀ {blocks : Nat}, Reshaped inos ino (nblks + 1) blocks middle after →
              FilledFrom after ino (nblks + 1) blocks → FilledFrom after ino nblks blocks := by
            intro blocks rest filledRest index low high
            by_cases isFirst : index = nblks
            · rw [isFirst, rest.slots nblks (by omega)]
              exact filled
            · exact filledRest index (by omega) high
          cases result with
          | ok _ =>
              obtain ⟨enough, rest, filledRest⟩ := grows
              rw [total] at rest filledRest
              exact ⟨by omega, first.trans rest (by omega), withFirst rest filledRest⟩
          | error ret =>
              obtain ⟨noMem, short, blocks, low, high, _, rest, filledRest⟩ := grows
              exact ⟨noMem, by omega, blocks, by omega, by omega, by omega,
                first.trans rest (by omega), withFirst rest filledRest⟩
        · rintro ret middle ⟨⟨_, refused⟩, short, _⟩
          have cost := @loadCost_le_growthCost sfs ino nblks missing inside
          have same := (refused.change.sameBlocks member).reshaped member refused.consistent le_rfl
          rw [dinOf_loaded loaded, ← atEnd] at same
          refine ⟨refused.noMem, by omega, nblks, le_rfl, by omega, by omega, same, ?_⟩
          · intro index low high
            omega
      · exact ensures_bind_stop (run_load_outside loaded (Nat.le_of_eq atEnd) inside) (by omega)

/-! ## Shrinking -/

/-- The last block is freed. -/
theorem run_bmapTruncate (consistent : Consistent sfs inos) (loaded : sfs.inodes ino = some sin)
    (nonempty : sin.din.blocks ≠ 0) :
    ∃ after sin', sfsBmapTruncateNolock ino sfs = .ok (.ok (), after) ∧
      after.inodes ino = some sin' ∧ sin'.dirty = true ∧ sin'.din.blocks = sin.din.blocks - 1 ∧
      Reshaped inos ino (sin.din.blocks - 1) (sin.din.blocks - 1) sfs after ∧
      Settled inos sfs after := by
  have member := consistent.known ino sin loaded
  have din := dinOf_loaded loaded
  obtain ⟨middle, freed, emptied, settled⟩ :=
    @run_bmapFree sfs inos ino (sin.din.blocks - 1) sin consistent loaded
  have still : ∃ sin', middle.inodes ino = some sin' := by
    rw [← Option.isSome_iff_exists, emptied.change.loaded, loaded]
    rfl
  obtain ⟨sin', loaded'⟩ := still
  have blocks : sin'.din.blocks = sin.din.blocks := by
    rw [← dinOf_loaded loaded', ← din]
    exact (emptied.change.header ino member).blocks
  let moved : SfsInode := { sin' with
    din := { sin'.din with blocks := sin'.din.blocks - 1 }
    dirty := true }
  have pointers : SamePointers moved.din sin'.din := ⟨fun _ _ => rfl, rfl⟩
  refine ⟨middle.setInode ino moved, moved, ?_, setInode_self, rfl, ?_, ?_,
    settled.trans Settled.setInode⟩
  · rw [sfsBmapTruncateNolock, run_bind (run_getSin loaded), run_bind (run_assert sfs nonempty),
      run_bind freed, run_bind (run_updateDin loaded'), run_setDirty setInode_self,
      setInode_setInode]
  · show sin'.din.blocks - 1 = _
    rw [blocks]
  · have change := emptied.change.resized member loaded' (show moved.din = _ from rfl)
    rw [blocks] at change
    exact change.reshaped member (emptied.consistent.setHeader loaded' pointers nofun) le_rfl

theorem run_shrink {excess : Nat} (consistent : Consistent sfs inos)
    (loaded : sfs.inodes ino = some sin) (enough : excess ≤ sin.din.blocks) :
    ∃ after, truncfileShrink ino excess sfs = .ok (.ok (), after) ∧
      Reshaped inos ino (sin.din.blocks - excess) (sin.din.blocks - excess) sfs after ∧
      Settled inos sfs after := by
  induction excess generalizing sfs sin with
  | zero =>
      have kept := @Reshaped.refl sfs inos ino consistent sin.din.blocks
      rw [dinOf_loaded loaded] at kept
      exact ⟨sfs, rfl, kept, Settled.refl⟩
  | succ excess inductionHypothesis =>
      obtain ⟨middle, sin', ran, loaded', _, blocks, first, settled⟩ :=
        run_bmapTruncate consistent loaded (by omega)
      obtain ⟨after, ran', rest, settled'⟩ := inductionHypothesis first.consistent loaded' (by omega)
      have total : sin'.din.blocks - excess = sin.din.blocks - (excess + 1) := by omega
      rw [total] at rest
      refine ⟨after, ?_, ?_, settled.trans settled'⟩
      · rw [truncfileShrink, run_bind ran]
        exact ran'
      · have fewer : sin.din.blocks - (excess + 1) ≤ sin.din.blocks - 1 := by omega
        exact (first.fewer fewer).trans rest le_rfl

/-! ## Truncating -/

/-- The blocks that a regular file needs to have `len` bytes, beyond those it has. -/
def missingBlocks (sin : SfsInode) (len : Int) : Nat := fileBlocks len.toNat - sin.din.blocks

/-- A truncate that enlarges the file finds all the blocks it needs, or not even the first. -/
def GrowthFits (sfs : SfsFs) (ino : Nat) (len : Int) : Prop :=
  ∀ sin, sfs.inodes ino = some sin → 0 ≤ len → len ≤ sfsMaxFileSize →
    0 < missingBlocks sin len →
    growthCost sfs ino sin.din.blocks (missingBlocks sin len) ≤ sfs.unusedBlocks ∨
      sfs.unusedBlocks < loadCost sfs ino sin.din.blocks

/-- A truncate that was carried out: the file has `size` bytes, which are the same as before up to
its old end. -/
structure Truncated (inos : List Nat) (sfs : SfsFs) (ino : Nat) (sin : SfsInode) (size : Nat)
    (after : SfsFs) (sin' : SfsInode) : Prop where
  consistent : Consistent after inos
  others : OthersKept inos ino sfs after
  file : RegularFile after ino sin'
  size_eq : sin'.din.size = size
  nlinks : sin'.din.nlinks = sin.din.nlinks
  content : ∀ position, position < min sin.din.size size → position < mappedSize →
    contentAt after ino position = contentAt sfs ino position

/-- A truncate that ran out of free blocks. The blocks it added stay. -/
structure GrownPart (inos : List Nat) (sfs : SfsFs) (ino : Nat) (sin : SfsInode) (len : Int)
    (after : SfsFs) (sin' : SfsInode) : Prop where
  consistent : Consistent after inos
  others : OthersKept inos ino sfs after
  loaded : after.inodes ino = some sin'
  header : SameHeader sin'.din { sin.din with blocks := sin'.din.blocks }
  filled : ∀ index, index < sin'.din.blocks → index < slotCount → slotAt after ino index ≠ 0
  missing : sin.din.blocks ≤ sin'.din.blocks ∧ sin'.din.blocks < fileBlocks len.toNat
  short : sfs.unusedBlocks < growthCost sfs ino sin.din.blocks (missingBlocks sin len)
  first : loadCost sfs ino sin.din.blocks ≤ sfs.unusedBlocks ↔ sin.din.blocks < sin'.din.blocks

/-- What `sfs_truncfile` leaves of a regular file. -/
def TruncatePost (inos : List Nat) (sfs : SfsFs) (ino : Nat) (sin : SfsInode) (len : Int) :
    Except Errno Unit → SfsFs → Prop
  | .ok (), after => 0 ≤ len ∧ len ≤ sfsMaxFileSize ∧
      growthCost sfs ino sin.din.blocks (missingBlocks sin len) ≤ sfs.unusedBlocks ∧
      ∃ sin', Truncated inos sfs ino sin len.toNat after sin'
  | .error ret, after =>
      (ret = .inval ∧ (len < 0 ∨ len > sfsMaxFileSize) ∧ after = sfs) ∨
        (ret = .noMem ∧ 0 ≤ len ∧ len ≤ sfsMaxFileSize ∧
          ∃ sin', GrownPart inos sfs ino sin len after sin')

/-- The end of a truncate, which sets the size. -/
theorem Reshaped.finish {middle : SfsFs} {len : Nat} (file : RegularFile sfs ino sin)
    (shape : Reshaped inos ino (min sin.din.blocks (fileBlocks len)) (fileBlocks len) sfs middle)
    (filled : FilledFrom middle ino sin.din.blocks (fileBlocks len)) :
    ∃ final sin', (do
      let sin ← getSin ino
      assert (sin.din.blocks = fileBlocks len)
      updateDin ino fun din => { din with size := len }
      setDirty ino true : SfsM Unit) middle = .ok (.ok (), final) ∧
      Truncated inos sfs ino sin len final sin' := by
  have din := dinOf_loaded file.loaded
  have still : ∃ found, middle.inodes ino = some found := by
    rw [← Option.isSome_iff_exists, shape.loaded, file.loaded]
    rfl
  obtain ⟨found, loaded⟩ := still
  have header := shape.header
  rw [dinOf_loaded loaded, din] at header
  let sin' : SfsInode := { found with din := { found.din with size := len }, dirty := true }
  have pointers : SamePointers sin'.din found.din := ⟨fun _ _ => rfl, rfl⟩
  refine ⟨middle.setInode ino sin', sin', ?_, ?_⟩
  · rw [run_bind (run_getSin loaded), run_bind (run_assert middle header.blocks),
      run_bind (run_updateDin loaded), run_setDirty setInode_self, setInode_setInode]
  · constructor
    · exact shape.consistent.setHeader loaded pointers nofun
    · exact shape.others.trans (OthersKept.setInode loaded pointers)
    · refine ⟨setInode_self, header.type.trans file.type, header.blocks, ?_⟩
      intro index low inMap
      rw [slotAt_setInode loaded pointers]
      have inside : index < fileBlocks len := lt_of_lt_of_eq low header.blocks
      by_cases isKept : index < sin.din.blocks
      · rw [shape.slots index (by omega)]
        exact file.filled index isKept inMap
      · exact filled index (by omega) inside
    · rfl
    · exact header.nlinks
    · intro position low inMap
      have inOld : position / sfsBlksize < sin.din.blocks := by
        rw [file.blocks]
        exact lt_fileBlocks (by omega)
      have inNew : position / sfsBlksize < fileBlocks len := lt_fileBlocks (by omega)
      have isKept : position / sfsBlksize < min sin.din.blocks (fileBlocks len) := by omega
      have nonempty := file.filled _ inOld (lt_slotCount inMap)
      unfold contentAt
      rw [slotAt_setInode loaded pointers, shape.slots _ isKept]
      exact congrFun (shape.data _ isKept nonempty) _

/-- Truncating a regular file. It stops only where the file would pass the end of its block map. -/
theorem ensures_truncate {len : Int} (consistent : Consistent sfs inos)
    (file : RegularFile sfs ino sin) :
    Ensures (¬ len ≤ mappedSize) (sfsTruncfile ino len) sfs
      (TruncatePost inos sfs ino sin len) := by
  have din := dinOf_loaded file.loaded
  unfold sfsTruncfile
  split_ifs with invalid
  · exact ensures_fail (Or.inl ⟨rfl, invalid, rfl⟩)
  have valid : 0 ≤ len ∧ len ≤ sfsMaxFileSize := by omega
  apply ensures_bind_run (run_getSin file.loaded)
  simp only []
  have mapped : len ≤ mappedSize → fileBlocks len.toNat ≤ slotCount := by
    unfold fileBlocks mappedSize sfsBlksize
    omega
  change Ensures _ (if sin.din.size = len.toNat then assert (fileBlocks len.toNat = sin.din.blocks)
    else do
      if sin.din.blocks < fileBlocks len.toNat then
        truncfileGrow ino sin.din.blocks (fileBlocks len.toNat - sin.din.blocks)
      else truncfileShrink ino (sin.din.blocks - fileBlocks len.toNat)
      let sin ← getSin ino
      assert (sin.din.blocks = fileBlocks len.toNat)
      updateDin ino fun din => { din with size := len.toNat }
      setDirty ino true) sfs _
  split_ifs with same longer
  · -- the size that it has
    have blocks : fileBlocks len.toNat = sin.din.blocks := by rw [file.blocks, same]
    apply ensures_of_run (run_assert sfs blocks)
    refine ⟨valid.1, valid.2, ?_, sin, consistent, OthersKept.refl, file, same, rfl, ?_⟩
    · rw [missingBlocks, blocks, Nat.sub_self]
      exact Nat.zero_le _
    · exact fun _ _ _ => rfl
  · have grown := @ensures_grow sfs inos ino sin sin.din.blocks
      (fileBlocks len.toNat - sin.din.blocks) consistent file.loaded rfl
    have total : sin.din.blocks + (fileBlocks len.toNat - sin.din.blocks) =
        fileBlocks len.toNat := by omega
    apply ensures_bind (grown.weaken (by omega) fun _ _ post => post)
    · rintro ⟨⟩ middle ⟨enough, shape, filled⟩
      rw [total] at shape filled
      have kept := shape.fewer (Nat.min_le_left sin.din.blocks (fileBlocks len.toNat))
      obtain ⟨final, sin', ran, truncated⟩ := kept.finish file filled
      exact ensures_of_run ran ⟨valid.1, valid.2, enough, sin', truncated⟩
    · rintro ret after ⟨rfl, short, blocks, low, high, first, shape, filled⟩
      have still : ∃ found, after.inodes ino = some found := by
        rw [← Option.isSome_iff_exists, shape.loaded, file.loaded]
        rfl
      obtain ⟨found, loaded⟩ := still
      have header := shape.header
      rw [dinOf_loaded loaded, din] at header
      obtain rfl : found.din.blocks = blocks := header.blocks
      refine Or.inr ⟨rfl, valid.1, valid.2, found, shape.consistent, shape.others, loaded, header,
        ?_, ⟨low, by omega⟩, short, first⟩
      intro index inside inMap
      by_cases isOld : index < sin.din.blocks
      · rw [shape.slots index isOld]
        exact file.filled index isOld inMap
      · exact filled index (by omega) inside
  · obtain ⟨middle, ran, shape, _⟩ := @run_shrink sfs inos ino sin
      (sin.din.blocks - fileBlocks len.toNat) consistent file.loaded (by omega)
    have rest : sin.din.blocks - (sin.din.blocks - fileBlocks len.toNat) =
        fileBlocks len.toNat := by omega
    rw [rest] at shape
    have kept := shape.fewer (Nat.min_le_right sin.din.blocks (fileBlocks len.toNat))
    have filled : FilledFrom middle ino sin.din.blocks (fileBlocks len.toNat) := by
      intro index low high
      omega
    obtain ⟨final, sin', ran', truncated⟩ := kept.finish file filled
    apply ensures_bind_run ran
    apply ensures_of_run ran'
    refine ⟨valid.1, valid.2, ?_, sin', truncated⟩
    rw [missingBlocks, show fileBlocks len.toNat - sin.din.blocks = 0 by omega]
    exact Nat.zero_le _

end UCore.Fs
