import UCore.Fs.SfsLimits

/-!
Contract: what a truncated file contains, `sfs_truncfile` of `kern/fs/sfs/sfs_inode.c`.

Owns:
- growing and shrinking a file keep what its blocks contain, and new blocks are empty;
- which truncates leave zeros behind the old end of the file.

Does not own: when a truncate returns.
-/

set_option autoImplicit false

namespace UCore.Fs

open UCore.Lib UCore.Lib.Program

variable {sfs after : SfsFs} {inos : List Nat} {ino index block : Nat} {sin sin' : SfsInode}

/-! ## What the blocks contain -/

theorem filledData_of_filled (filled : slotAt sfs ino index ≠ 0) :
    filledData sfs ino index = sfs.disk (slotAt sfs ino index) :=
  if_neg filled

/-- The slot and the block at `index` are the same. -/
theorem filledData_congr (slot : slotAt after ino index = slotAt sfs ino index)
    (data : slotAt sfs ino index ≠ 0 →
      after.disk (slotAt sfs ino index) = sfs.disk (slotAt sfs ino index)) :
    filledData after ino index = filledData sfs ino index := by
  unfold filledData
  rw [slot]
  by_cases empty : slotAt sfs ino index = 0
  · rw [if_pos empty, if_pos empty]
  · rw [if_neg empty, if_neg empty, data empty]

/-- The first `blocks` blocks of the file contain what they did, where a block that is missing
counts as empty. -/
def KeepsData (sfs : SfsFs) (ino blocks : Nat) (after : SfsFs) : Prop :=
  ∀ index, index < blocks → filledData after ino index = filledData sfs ino index

theorem KeepsData.trans {middle : SfsFs} {blocks : Nat} (first : KeepsData sfs ino blocks middle)
    (second : KeepsData middle ino blocks after) : KeepsData sfs ino blocks after :=
  fun index inside => (second index inside).trans (first index inside)

theorem Reshaped.keepsData {kept blocks : Nat} (shape : Reshaped inos ino kept blocks sfs after) :
    KeepsData sfs ino kept after :=
  fun index inside => filledData_congr (shape.slots index inside) (shape.data index inside)

theorem KeepsData.setInode {blocks : Nat} {sin'' : SfsInode}
    (keeps : KeepsData sfs ino blocks after) (loaded : after.inodes ino = some sin')
    (pointers : SamePointers sin''.din sin'.din) :
    KeepsData sfs ino blocks (after.setInode ino sin'') := by
  intro index inside
  rw [← keeps index inside]
  exact filledData_congr (slotAt_setInode loaded pointers) fun _ => rfl

/-- The block that is added at the end of the file is empty, and the others are kept. -/
theorem FilledFile.load_keeps (file : FilledFile sfs ino sin) (consistent : Consistent sfs inos) :
    Ensures True (sfsBmapLoadNolock ino sin.din.blocks) sfs fun result after =>
      ∀ block, result = .ok block → ∀ blocks, KeepsData sfs ino blocks after := by
  have din := dinOf_loaded file.loaded
  have member := consistent.known ino sin file.loaded
  by_cases inside : sin.din.blocks < slotCount
  · have load := @ensures_bmapLoad sfs inos ino sin.din.blocks sin consistent file.loaded
    apply (load.both (space_load consistent file.loaded rfl inside)).weaken fun _ => trivial
    rintro _ after ⟨placed, space⟩ block rfl blocks index _
    obtain ⟨data, _⟩ := space
    have change := placed.atEnd (by rw [din])
    by_cases isLast : index = sin.din.blocks
    · subst isLast
      rw [← data, filledData_of_filled (by rw [placed.slot]; exact placed.nonzero), placed.slot]
    · exact filledData_congr (change.slots ino member index (Or.inr isLast))
        (change.data ino member index (Or.inr isLast))
  · exact ensures_of_stop (run_load_outside file.loaded le_rfl inside) trivial

theorem FilledFile.grow_keeps {missing : Nat} (file : FilledFile sfs ino sin)
    (consistent : Consistent sfs inos) :
    Ensures True (truncfileGrow ino sin.din.blocks missing) sfs fun result after =>
      result = .ok () → ∀ blocks, KeepsData sfs ino blocks after := by
  induction missing generalizing sfs sin with
  | zero => exact ensures_pure fun _ _ _ _ => rfl
  | succ missing inductionHypothesis =>
      have one := (file.load consistent le_rfl).both (file.load_keeps consistent)
      apply ensures_bind (one.weaken (fun _ => trivial) fun _ _ post => post)
      · rintro block middle ⟨⟨_, sin', added, _, _, blocks⟩, keeps⟩
        have blocks' : sin'.din.blocks = sin.din.blocks + 1 := by omega
        rw [← blocks']
        apply (inductionHypothesis added.file added.consistent).weaken fun _ => trivial
        exact fun result after rest done count => (keeps block rfl count).trans (rest done count)
      · exact fun _ _ _ => nofun

/-- The end of a truncate changes no block. -/
theorem FilledFile.finish_keeps {size blocks : Nat} (file : FilledFile after ino sin')
    (keeps : KeepsData sfs ino blocks after) :
    Ensures True (do
      let sin ← getSin ino
      assert (sin.din.blocks = blocks)
      updateDin ino fun din => { din with size := size }
      setDirty ino true : SfsM Unit) after fun _ final => KeepsData sfs ino blocks final := by
  apply ensures_bind_run (run_getSin file.loaded)
  apply ensures_assert (fun _ => ?_) fun _ => trivial
  apply ensures_of_run
  · rw [run_bind (run_updateDin file.loaded), run_setDirty setInode_self, setInode_setInode]
  · exact keeps.setInode file.loaded ⟨fun _ _ => rfl, rfl⟩

/-- The blocks that a truncated file has contain what they did, and the new ones are empty. -/
theorem FilledFile.truncate_keeps {len : Int} (file : FilledFile sfs ino sin)
    (consistent : Consistent sfs inos) :
    Ensures True (sfsTruncfile ino len) sfs fun result after =>
      result = .ok () → KeepsData sfs ino (fileBlocks len.toNat) after := by
  by_cases valid : 0 ≤ len ∧ len ≤ sfsMaxFileSize
  · apply Ensures.of_same (run_truncfile file.loaded valid)
    by_cases same : sin.din.size = len.toNat
    · rw [if_pos same]
      exact ensures_assert_last fun _ _ _ _ => rfl
    rw [if_neg same]
    by_cases longer : sin.din.blocks < fileBlocks len.toNat
    · rw [if_pos longer]
      have grown := (@FilledFile.grow sfs inos ino sin (fileBlocks len.toNat - sin.din.blocks)
        file consistent).both (file.grow_keeps consistent)
      apply ensures_bind (grown.weaken (fun _ => trivial) fun _ _ post => post)
      · rintro ⟨⟩ middle ⟨⟨sin', added, _⟩, keeps⟩
        apply (added.file.finish_keeps (keeps rfl _)).weaken fun _ => trivial
        exact fun _ _ kept _ => kept
      · exact by intros; contradiction
    · rw [if_neg longer]
      obtain ⟨middle, ran, shape, _⟩ := @run_shrink sfs inos ino sin
        (sin.din.blocks - fileBlocks len.toNat) consistent file.loaded (by omega)
      have rest : sin.din.blocks - (sin.din.blocks - fileBlocks len.toNat) =
          fileBlocks len.toNat := by omega
      rw [rest] at shape
      obtain ⟨found, filled, _⟩ := shape.filledFile file (by omega)
      apply ensures_bind_run ran
      apply (filled.finish_keeps shape.keepsData).weaken fun _ => trivial
      exact fun _ _ kept _ => kept
  · rw [sfsTruncfile, if_pos (by omega)]
    exact ensures_fail (by intros; contradiction)

/-! ## The bytes of a truncated file -/

/-- The byte at `position` is in a block of the file, and it is `byte`. -/
def ReadsAs (sfs : SfsFs) (ino position : Nat) (byte : UInt8) : Prop :=
  slotAt sfs ino (position / sfsBlksize) ≠ 0 ∧ contentAt sfs ino position = byte

/-- Truncating the file makes it the first bytes of what it was, up to `len`, and zeros behind its
old end. -/
def ZeroFills (sfs : SfsFs) (ino : Nat) (sin : SfsInode) (len : Int) : Prop :=
  ∃ final sin', sfsTruncfile ino len sfs = .ok (.ok (), final) ∧ final.inodes ino = some sin' ∧
    sin'.din.size = len.toNat ∧ ∀ position, position < len.toNat →
      ReadsAs final ino position (if position < sin.din.size then contentAt sfs ino position else 0)

/-- The bytes from `first` up to `last` are zero, as far as they are in blocks of the file. -/
def Blank (sfs : SfsFs) (ino first last : Nat) : Prop :=
  ∀ position, first ≤ position → position < last → slotAt sfs ino (position / sfsBlksize) ≠ 0 →
    contentAt sfs ino position = 0

/-- The disk has the free blocks that the truncate takes. -/
def SpaceFor (sfs : SfsFs) (ino : Nat) (sin : SfsInode) (len : Int) : Prop :=
  growthCost sfs ino sin.din.blocks (missingBlocks sin len) ≤ sfs.unusedBlocks

theorem filledData_apply {position : Nat} :
    filledData sfs ino (position / sfsBlksize) (position % sfsBlksize) =
      if slotAt sfs ino (position / sfsBlksize) = 0 then 0 else contentAt sfs ino position := by
  unfold filledData contentAt
  split_ifs <;> rfl

theorem slotAt_outside (outside : ¬ index < slotCount) : slotAt sfs ino index = 0 := by
  apply slotOf_empty
  · unfold slotCount at outside
    omega
  · exact Or.inl (Nat.not_lt.mp outside)

/-- What a truncate that was carried out leaves at `position`. -/
theorem contentAt_truncated {len position : Nat} (file : RegularFile after ino sin')
    (size : sin'.din.size = len) (keeps : KeepsData sfs ino (fileBlocks len) after)
    (inside : position < len) (mapped : position < mappedSize) :
    slotAt after ino (position / sfsBlksize) ≠ 0 ∧ contentAt after ino position =
      if slotAt sfs ino (position / sfsBlksize) = 0 then 0 else contentAt sfs ino position := by
  have inFile : position / sfsBlksize < fileBlocks len := lt_fileBlocks inside
  have filled : slotAt after ino (position / sfsBlksize) ≠ 0 := by
    apply file.filled _ _ (lt_slotCount mapped)
    rwa [file.blocks, size]
  refine ⟨filled, ?_⟩
  rw [← filledData_apply, ← keeps _ inFile, filledData_apply, if_neg filled]

/-- A regular file is zero behind its old end if and only if what its blocks contain there is. -/
theorem RegularFile.zeroFills_iff {len : Int} (file : RegularFile sfs ino sin)
    (consistent : Consistent sfs inos) (valid : 0 ≤ len ∧ len ≤ sfsMaxFileSize)
    (space : SpaceFor sfs ino sin len) :
    ZeroFills sfs ino sin len ↔ len ≤ mappedSize ∧ Blank sfs ino sin.din.size len.toNat := by
  have filled : FilledFile sfs ino sin := ⟨file.loaded, file.type, file.filled⟩
  have truncates := (ensures_truncate consistent file).both
    (@FilledFile.truncate_keeps sfs inos ino sin len filled consistent)
  constructor
  · rintro ⟨final, sin', ran, loaded, size, reads⟩
    obtain ⟨⟨_, _, _, found, truncated⟩, keeps⟩ := truncates.of_ok ran
    have mapped : len ≤ mappedSize := by
      by_contra beyond
      have last := (reads (len.toNat - 1) (by omega)).1
      have outside : ¬ (len.toNat - 1) / sfsBlksize < slotCount := by
        have limit : slotCount * sfsBlksize ≤ len.toNat - 1 := by
          unfold mappedSize at beyond
          omega
        have reached : slotCount * sfsBlksize / sfsBlksize ≤ (len.toNat - 1) / sfsBlksize :=
          Nat.div_le_div_right limit
        rw [Nat.mul_div_cancel _ (show 0 < sfsBlksize by decide)] at reached
        omega
      exact last (slotAt_outside outside)
    refine ⟨mapped, fun position low high inBlock => ?_⟩
    have content := contentAt_truncated truncated.file truncated.size_eq (keeps rfl) high (by omega)
    have zero := (reads position high).2
    rwa [if_neg (by omega), content.2, if_neg inBlock] at zero
  · rintro ⟨mapped, blank⟩
    obtain ⟨result, final, ran, post, keeps⟩ := truncates.returns (fun stops => stops.1 mapped)
    cases result with
    | error ret =>
        rcases post with ⟨_, invalid, _⟩ | ⟨_, _, _, _, grown⟩
        · omega
        · exact absurd space (Nat.not_le.mpr grown.short)
    | ok _ =>
        obtain ⟨_, _, _, sin', truncated⟩ := post
        refine ⟨final, sin', ran, truncated.file.loaded, truncated.size_eq, fun position high => ?_⟩
        obtain ⟨stored, content⟩ :=
          contentAt_truncated truncated.file truncated.size_eq (keeps rfl) high (by omega)
        refine ⟨stored, ?_⟩
        rw [content]
        by_cases isOld : position < sin.din.size
        · rw [if_pos isOld, if_neg]
          apply file.filled _ _ (lt_slotCount (by omega))
          rw [file.blocks]
          exact lt_fileBlocks isOld
        · rw [if_neg isOld]
          split_ifs with empty
          · rfl
          · exact blank position (Nat.not_lt.mp isOld) high empty

/-! ## Runs with sufficient space -/

/-- The call finds the free blocks it needs. -/
def Supplied (sfs : SfsFs) (event : Nat × LengthCall) (after : SfsFs) : Prop :=
  lengthMachine.Step sfs event after ∧ event.2.run event.1 sfs ≠ .ok (.error .noMem, after)

theorem FilesInStep.supplied {before after : SfsFs} {event : Nat × LengthCall}
    (files : FilesInStep inos before) (step : Supplied before event after) :
    FilesInStep inos after := by
  obtain ⟨⟨⟨sin, loaded, isFile⟩, answered⟩, enough⟩ := step
  have file := files.filled.file event.1 sin loaded isFile
  have stays := @FilledFile.call before inos event.1 sin event.2 file files.consistent
  unfold lengthMachine at answered
  cases ran : event.2.run event.1 before with
  | error stop =>
      simp only [ran] at answered
      cases answered
  | ok pair =>
      obtain ⟨result, final⟩ := pair
      simp only [ran] at answered
      cases answered
      obtain ⟨_, consistent, others, sin', filled, inStep⟩ := stays.of_ok ran
      have complete : result ≠ .error .noMem := by
        rintro rfl
        exact enough ran
      apply files.update consistent others
      exact ⟨filled.loaded, filled.type,
        inStep complete (files.file event.1 sin loaded isFile).blocks, filled.filled⟩

/-- After any truncates, seeks, reads and writes that find the free blocks they need, a truncate
that finds them too leaves the first bytes of its file, followed by zeros up to its new length, if
and only if the block map has room for this length and what the blocks of the file contain behind
its end is zero. -/
theorem sfs_truncfile_zero_fills {events : List (Nat × LengthCall)} (files : FilesInStep inos sfs)
    (run : Run Supplied sfs events after) :
    ∀ ino sin, after.inodes ino = some sin → sin.din.type = sfsTypeFile → ∀ len : Int,
      0 ≤ len → len ≤ sfsMaxFileSize → SpaceFor after ino sin len →
      (ZeroFills after ino sin len ↔ len ≤ mappedSize ∧ Blank after ino sin.din.size len.toNat) := by
  have reached : FilesInStep inos after :=
    run.invariant (FilesInStep inos) (fun _ _ _ files step => files.supplied step) files
  intro ino sin loaded isFile len nonneg limited space
  exact (reached.file ino sin loaded isFile).zeroFills_iff reached.consistent ⟨nonneg, limited⟩ space

/-- After cutting the file of the small volume to two bytes. -/
theorem sfs_truncfile_zero_fills_small : ∃ after,
    Run Supplied (smallSfs.setInode 1 smallSin) [((1 : Nat), LengthCall.truncate 2)] after ∧
    ∀ ino sin, after.inodes ino = some sin → sin.din.type = sfsTypeFile → ∀ len : Int,
      0 ≤ len → len ≤ sfsMaxFileSize → SpaceFor after ino sin len →
      (ZeroFills after ino sin len ↔ len ≤ mappedSize ∧ Blank after ino sin.din.size len.toNat) := by
  have isFile : smallSin.din.type = sfsTypeFile := by decide
  have run : ∃ after,
      Run Supplied (smallSfs.setInode 1 smallSin) [((1 : Nat), LengthCall.truncate 2)] after :=
    ⟨_, .cons ⟨⟨⟨smallSin, setInode_self, isFile⟩, rfl⟩, fun same => nomatch same⟩ (.nil _)⟩
  obtain ⟨after, run⟩ := run
  exact ⟨after, run, sfs_truncfile_zero_fills smallOpen_inStep run⟩

/-- The file has the bytes 42, is cut to two bytes and is enlarged to five: its byte at 3, never
written since, is 42 again. -/
theorem sfs_truncfile_stale_bytes : ∃ after sin final,
    Run Supplied (smallSfs.setInode 1 smallSin) [((1 : Nat), LengthCall.truncate 2)] after ∧
      after.inodes 1 = some sin ∧ sin.din.size = 2 ∧
      sfsTruncfile 1 5 after = .ok (.ok (), final) ∧ contentAt final 1 3 = 42 := by
  have isFile : smallSin.din.type = sfsTypeFile := by decide
  exact ⟨_, _, _,
    .cons ⟨⟨⟨smallSin, setInode_self, isFile⟩, rfl⟩, fun same => nomatch same⟩ (.nil _),
    rfl, rfl, rfl, rfl⟩

end UCore.Fs
