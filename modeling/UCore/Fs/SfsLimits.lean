import UCore.Fs.SfsSizes

/-!
Contract: the calls that pass the end of a block map, in `kern/fs/sfs/sfs_inode.c`.

Owns:
- files whose blocks are all there, however many their size needs;
- which truncates, seeks, reads and writes of such a file return, from every state that such calls
  reach.

Does not own: what the files contain.
-/

set_option autoImplicit false

namespace UCore.Fs

open UCore.Lib UCore.Lib.Program

variable {sfs after : SfsFs} {inos : List Nat} {ino index block : Nat} {sin sin' : SfsInode}

/-! ## Loading blocks -/

/-- A regular file in memory, whose blocks are all there, as far as its block map goes. Its size
may be anything. -/
structure FilledFile (sfs : SfsFs) (ino : Nat) (sin : SfsInode) : Prop where
  loaded : sfs.inodes ino = some sin
  type : sin.din.type = sfsTypeFile
  filled : ∀ index, index < sin.din.blocks → index < slotCount → slotAt sfs ino index ≠ 0

/-- The free blocks that filling the rest of the block map takes, from `blocks` on. -/
def restCost (sfs : SfsFs) (ino blocks : Nat) : Nat :=
  growthCost sfs ino blocks (slotCount - blocks)

theorem restCost_full {blocks : Nat} (full : slotCount ≤ blocks) : restCost sfs ino blocks = 0 := by
  rw [restCost, Nat.sub_eq_zero_of_le full, growthCost, emptySlots, if_neg (by omega)]

/-- The file as it is after blocks were added to it, and what these took. -/
structure BlocksAdded (inos : List Nat) (sfs : SfsFs) (ino : Nat) (sin : SfsInode) (after : SfsFs)
    (sin' : SfsInode) : Prop where
  consistent : Consistent after inos
  others : OthersKept inos ino sfs after
  file : FilledFile after ino sin'
  size : sin'.din.size = sin.din.size
  space : after.unusedBlocks + restCost sfs ino sin.din.blocks =
    sfs.unusedBlocks + restCost after ino sin'.din.blocks

namespace BlocksAdded

theorem refl (consistent : Consistent sfs inos) (file : FilledFile sfs ino sin) :
    BlocksAdded inos sfs ino sin sfs sin :=
  ⟨consistent, OthersKept.refl, file, rfl, rfl⟩

theorem trans {middle : SfsFs} {sin'' : SfsInode} (first : BlocksAdded inos sfs ino sin middle sin')
    (second : BlocksAdded inos middle ino sin' after sin'') :
    BlocksAdded inos sfs ino sin after sin'' where
  consistent := second.consistent
  others := first.others.trans second.others
  file := second.file
  size := second.size.trans first.size
  space := by
    have space := first.space
    have space' := second.space
    omega

/-- Nothing is left to pay for where the block map is full. -/
theorem enough_of_full (added : BlocksAdded inos sfs ino sin after sin')
    (full : slotCount ≤ sin'.din.blocks) : restCost sfs ino sin.din.blocks ≤ sfs.unusedBlocks := by
  have space := added.space
  rw [restCost_full full] at space
  omega

/-- A block of the file is written. -/
theorem setBlock {bytes : Bytes} (added : BlocksAdded inos sfs ino sin after sin')
    (slot : slotAt after ino index = block) (nonzero : block ≠ 0) :
    BlocksAdded inos sfs ino sin (after.setBlock block bytes) sin' := by
  have member := added.consistent.known ino sin' added.file.loaded
  have held : target after inos (.slot ino index) = some block := by
    rw [← slot]
    exact target_of_slot member (by rwa [slot])
  have unread := added.consistent.unread_of_slot held
  have slots : ∀ place, slotAt (after.setBlock block bytes) ino place = slotAt after ino place :=
    fun _ => unread.slotAt member
  have indirect : (dinOf (after.setBlock block bytes) ino).indirect = (dinOf after ino).indirect := by
    rw [unread.dinOf member]
  have rest : restCost (after.setBlock block bytes) ino sin'.din.blocks =
      restCost after ino sin'.din.blocks := by
    rw [restCost, restCost, growthCost, growthCost, indirect, emptySlots_congr fun place _ => slots place]
  constructor
  · exact added.consistent.setBlock unread (added.consistent.slot_notInode held)
  · exact added.others.trans (OthersKept.setBlock added.consistent held)
  · exact ⟨added.file.loaded, added.file.type, fun place low inMap => by
      rw [slots]
      exact added.file.filled place low inMap⟩
  · exact added.size
  · rw [rest]
    exact added.space

end BlocksAdded

theorem fileBlocks_mono {size size' : Nat} (le : size ≤ size') :
    fileBlocks size ≤ fileBlocks size' := by
  unfold fileBlocks sfsBlksize
  omega

/-- The block was loaded, or no free block was left for it. -/
def LoadsFilled (inos : List Nat) (ino index : Nat) (sfs : SfsFs) (sin : SfsInode)
    (result : Except Errno Nat) (after : SfsFs) : Prop :=
  index < slotCount ∧ ∃ sin', BlocksAdded inos sfs ino sin after sin' ∧
    match result with
    | .ok block => slotAt after ino index = block ∧ block ≠ 0 ∧
        sin'.din.blocks = max sin.din.blocks (index + 1)
    | .error ret => ret = .noMem ∧ sfs.unusedBlocks < restCost sfs ino sin.din.blocks ∧
        sin'.din.blocks = sin.din.blocks

/-- Loading a block stops only beyond the block map, and it does stop there. -/
theorem FilledFile.load (file : FilledFile sfs ino sin) (consistent : Consistent sfs inos)
    (reached : index ≤ sin.din.blocks) :
    Ensures (slotCount ≤ index) (sfsBmapLoadNolock ino index) sfs
      (LoadsFilled inos ino index sfs sin) := by
  have din := dinOf_loaded file.loaded
  have member := consistent.known ino sin file.loaded
  by_cases inside : index < slotCount
  · have canLoad : CanLoad sfs ino index := by
      refine ⟨?_, inside, ?_⟩
      · rw [din]
        exact reached
      · intro isBefore
        rw [din] at isBefore
        exact file.filled index isBefore inside
    have load : Ensures False (sfsBmapLoadNolock ino index) sfs (LoadPost inos ino index sfs) :=
      (ensures_bmapLoad consistent file.loaded).weaken (fun cannot => cannot canLoad)
        fun _ _ post => post
    by_cases isBefore : index < sin.din.blocks
    · apply load.weaken False.elim
      intro result after post
      cases result with
      | error ret =>
          have atEnd := post.1
          rw [din] at atEnd
          omega
      | ok block =>
          obtain rfl := post.before (by rwa [din])
          exact ⟨inside, sin, BlocksAdded.refl consistent file, post.slot, post.nonzero, by omega⟩
    · have atEnd : index = sin.din.blocks := by omega
      have rest : slotCount - index = slotCount - (index + 1) + 1 := by omega
      apply (load.both (space_load consistent file.loaded atEnd inside)).weaken (fun both => both.1.elim)
      intro result after post
      cases result with
      | error ret =>
          obtain ⟨⟨_, refused⟩, short, same, unused, _⟩ := post
          have still : after.inodes ino = some sin := by rw [same, file.loaded]
          have slots : ∀ place, slotAt after ino place = slotAt sfs ino place := by
            intro place
            by_cases isIndex : place = index
            · rw [isIndex, refused.still, refused.empty]
            · exact refused.change.slots ino member place (Or.inr isIndex)
          have kept : restCost after ino sin.din.blocks = restCost sfs ino sin.din.blocks := by
            rw [restCost, restCost, growthCost, growthCost, dinOf_loaded still, din,
              emptySlots_congr fun place _ => slots place]
          have cost := @loadCost_le_growthCost sfs ino index (slotCount - (index + 1)) inside
          refine ⟨inside, sin, ⟨refused.consistent, refused.change.othersKept, ?_, rfl, ?_⟩,
            refused.noMem, ?_, rfl⟩
          · refine ⟨still, file.type, fun place low inMap => ?_⟩
            rw [slots]
            exact file.filled place low inMap
          · rw [kept, unused]
          · rw [restCost, ← atEnd, rest]
            omega
      | ok block =>
          obtain ⟨placed, _, sin', taken⟩ := post
          have change := placed.atEnd (by rw [din, atEnd])
          have header := change.header
          rw [dinOf_loaded taken.loaded, din] at header
          have cost := @growthCost_succ sfs after inos ino sin sin' index
            (slotCount - (index + 1)) file.loaded inside
            (fun place low => change.slots ino member place (Or.inr (by omega))) taken
          have unused := taken.unused
          have blocks : sin'.din.blocks = index + 1 := by
            rw [header.blocks, atEnd]
          refine ⟨inside, sin', ⟨placed.consistent, change.othersKept, ?_, header.size, ?_⟩,
            placed.slot, placed.nonzero, by omega⟩
          · refine ⟨taken.loaded, header.type.trans file.type, fun place low inMap => ?_⟩
            by_cases isIndex : place = index
            · rw [isIndex, placed.slot]
              exact placed.nonzero
            · rw [change.slots ino member place (Or.inr isIndex)]
              exact file.filled place (by omega) inMap
          · rw [restCost, restCost, blocks, ← atEnd, rest, cost]
            omega
  · exact ensures_of_stop (run_load_outside file.loaded reached inside) (by omega)

/-- A block beyond the end of the file is not looked for. -/
theorem run_load_beyond (loaded : sfs.inodes ino = some sin) (beyond : sin.din.blocks < index) :
    sfsBmapLoadNolock ino index sfs = .error .assertFailed := by
  rw [sfsBmapLoadNolock, run_bind (run_getSin loaded)]
  simp only [bind, Program.bind, assert, require, if_neg (Nat.not_le.mpr beyond)]

/-! ## Truncating and seeking -/

/-- The file is to have the bytes up to `last`, for which its block map has no room, and the disk
has free blocks for the whole of it. -/
def Overruns (sfs : SfsFs) (ino : Nat) (sin : SfsInode) (last : Nat) : Prop :=
  mappedSize < last ∧ restCost sfs ino sin.din.blocks ≤ sfs.unusedBlocks

instance (sfs : SfsFs) (ino : Nat) (sin : SfsInode) (last : Nat) :
    Decidable (Overruns sfs ino sin last) :=
  inferInstanceAs (Decidable (_ ∧ _))

/-- The file has as many blocks as its size needs. -/
def InStep (sin : SfsInode) : Prop := sin.din.blocks = fileBlocks sin.din.size

/-- The file is as it was but for its blocks and its size, and so are the other files. Where the
call was `complete`, blocks and size stay in step. -/
def StaysFilled (inos : List Nat) (sfs : SfsFs) (ino : Nat) (sin : SfsInode) (complete : Prop)
    (after : SfsFs) : Prop :=
  Consistent after inos ∧ OthersKept inos ino sfs after ∧
    ∃ sin', FilledFile after ino sin' ∧ (complete → InStep sin → InStep sin')

/-- Neither size nor block count changed. -/
theorem BlocksAdded.staysFilled {complete : Prop} (added : BlocksAdded inos sfs ino sin after sin')
    (blocks : complete → InStep sin → sin'.din.blocks = sin.din.blocks) :
    StaysFilled inos sfs ino sin complete after := by
  refine ⟨added.consistent, added.others, sin', added.file, fun done inStep => ?_⟩
  rw [InStep, blocks done inStep, added.size]
  exact inStep

theorem FilledFile.staysFilled {complete : Prop} (file : FilledFile sfs ino sin)
    (consistent : Consistent sfs inos) : StaysFilled inos sfs ino sin complete sfs :=
  (BlocksAdded.refl consistent file).staysFilled fun _ _ => rfl

/-- A new size. -/
theorem FilledFile.resize {size : Nat} {complete : Prop} (file : FilledFile after ino sin')
    (consistent : Consistent after inos) (others : OthersKept inos ino sfs after)
    (blocks : complete → InStep sin → sin'.din.blocks = fileBlocks size) :
    ∃ final, (do
      updateDin ino fun din => { din with size := size }
      setDirty ino true : SfsM Unit) after = .ok (.ok (), final) ∧
      StaysFilled inos sfs ino sin complete final := by
  let sin'' : SfsInode := { sin' with din := { sin'.din with size := size }, dirty := true }
  have loaded := file.loaded
  have pointers : SamePointers sin''.din sin'.din := ⟨fun _ _ => rfl, rfl⟩
  refine ⟨after.setInode ino sin'', ?_, ?_, ?_, sin'', ⟨setInode_self, file.type, ?_⟩, blocks⟩
  · rw [run_bind (run_updateDin loaded), run_setDirty setInode_self, setInode_setInode]
  · exact consistent.setHeader loaded pointers nofun
  · exact others.trans (OthersKept.setInode loaded pointers)
  · intro index low inMap
    rw [slotAt_setInode loaded pointers]
    exact file.filled index low inMap

/-- The file has all the blocks it was to have, or some of them and no block is left. -/
def GrowsFilled (inos : List Nat) (ino missing : Nat) (sfs : SfsFs) (sin : SfsInode)
    (result : Except Errno Unit) (after : SfsFs) : Prop :=
  ∃ sin', BlocksAdded inos sfs ino sin after sin' ∧
    match result with
    | .ok () => sin'.din.blocks = sin.din.blocks + missing ∧
        (0 < missing → sin.din.blocks + missing ≤ slotCount)
    | .error ret => ret = .noMem ∧ sfs.unusedBlocks < restCost sfs ino sin.din.blocks

/-- Enlarging a file stops only where the whole block map is filled and more is asked for. -/
theorem FilledFile.grow {missing : Nat} (file : FilledFile sfs ino sin)
    (consistent : Consistent sfs inos) :
    Ensures (slotCount < sin.din.blocks + missing ∧
        restCost sfs ino sin.din.blocks ≤ sfs.unusedBlocks)
      (truncfileGrow ino sin.din.blocks missing) sfs (GrowsFilled inos ino missing sfs sin) := by
  induction missing generalizing sfs sin with
  | zero => exact ensures_pure ⟨sin, BlocksAdded.refl consistent file, rfl, fun more => by omega⟩
  | succ missing inductionHypothesis =>
      apply ensures_bind ((file.load consistent le_rfl).weaken (fun full => ?_) fun _ _ post => post)
      · rintro block middle ⟨inside, sin', first, _, _, blocks⟩
        have space := first.space
        have blocks' : sin'.din.blocks = sin.din.blocks + 1 := by omega
        rw [← blocks']
        apply (inductionHypothesis first.file first.consistent).weaken
        · rintro ⟨beyond, enough⟩
          omega
        · rintro result after ⟨sin'', rest, outcome⟩
          refine ⟨sin'', first.trans rest, ?_⟩
          cases result with
          | ok _ => exact ⟨by omega, fun _ => by omega⟩
          | error ret => exact ⟨outcome.1, by omega⟩
      · rintro ret middle ⟨_, sin', first, noMem, short, _⟩
        exact ⟨sin', first, noMem, short⟩
      · exact ⟨by omega, by rw [restCost_full full]; exact Nat.zero_le _⟩

/-- Enlarging a file panics where the whole block map is filled and more is asked for. -/
theorem FilledFile.grow_panics {missing : Nat} (file : FilledFile sfs ino sin)
    (consistent : Consistent sfs inos) (more : 0 < missing)
    (beyond : slotCount < sin.din.blocks + missing)
    (enough : restCost sfs ino sin.din.blocks ≤ sfs.unusedBlocks) :
    truncfileGrow ino sin.din.blocks missing sfs = .error .panicked := by
  induction missing generalizing sfs sin with
  | zero => omega
  | succ missing inductionHypothesis =>
      by_cases inside : sin.din.blocks < slotCount
      · obtain ⟨result, middle, ran, _, sin', first, outcome⟩ :=
          (file.load consistent le_rfl).returns (by omega)
        cases result with
        | error ret => omega
        | ok block =>
            obtain ⟨_, _, blocks⟩ := outcome
            have space := first.space
            have blocks' : sin'.din.blocks = sin.din.blocks + 1 := by omega
            rw [truncfileGrow, run_bind ran, ← blocks']
            exact inductionHypothesis first.file first.consistent (by omega) (by omega) (by omega)
      · have stopped := run_load_outside file.loaded le_rfl inside
        simp only [truncfileGrow, bind, Program.bind, stopped]

/-- A file that was cut to `blocks` blocks. -/
theorem Reshaped.filledFile {blocks : Nat} (shape : Reshaped inos ino blocks blocks sfs after)
    (file : FilledFile sfs ino sin) (fewer : blocks ≤ sin.din.blocks) :
    ∃ found, FilledFile after ino found ∧ found.din.blocks = blocks := by
  have still : ∃ found, after.inodes ino = some found := by
    rw [← Option.isSome_iff_exists, shape.loaded, file.loaded]
    rfl
  obtain ⟨found, loaded⟩ := still
  have header := shape.header
  rw [dinOf_loaded loaded, dinOf_loaded file.loaded] at header
  refine ⟨found, ⟨loaded, header.type.trans file.type, fun index low inMap => ?_⟩, header.blocks⟩
  have inside : index < blocks := lt_of_lt_of_eq low header.blocks
  rw [shape.slots index inside]
  exact file.filled index (by omega) inMap

/-- A truncate does not return: the size is the same but the blocks are not those it needs, or the
file would pass the end of its block map. -/
def TruncateStops (sfs : SfsFs) (ino : Nat) (sin : SfsInode) (len : Int) : Prop :=
  0 ≤ len ∧ len ≤ sfsMaxFileSize ∧
    if sin.din.size = len.toNat then fileBlocks len.toNat ≠ sin.din.blocks
    else sin.din.blocks < fileBlocks len.toNat ∧ Overruns sfs ino sin len.toNat

instance (sfs : SfsFs) (ino : Nat) (sin : SfsInode) (len : Int) :
    Decidable (TruncateStops sfs ino sin len) :=
  inferInstanceAs (Decidable (_ ∧ _ ∧ _))

theorem slotCount_lt_fileBlocks {size : Nat} : slotCount < fileBlocks size ↔ mappedSize < size := by
  unfold fileBlocks mappedSize sfsBlksize
  omega

/-- The parts of `sfs_truncfile`. -/
theorem run_truncfile {len : Int} (loaded : sfs.inodes ino = some sin)
    (valid : 0 ≤ len ∧ len ≤ sfsMaxFileSize) :
    sfsTruncfile ino len sfs =
      (if sin.din.size = len.toNat then assert (fileBlocks len.toNat = sin.din.blocks)
      else do
        if sin.din.blocks < fileBlocks len.toNat then
          truncfileGrow ino sin.din.blocks (fileBlocks len.toNat - sin.din.blocks)
        else truncfileShrink ino (sin.din.blocks - fileBlocks len.toNat)
        let sin ← getSin ino
        assert (sin.din.blocks = fileBlocks len.toNat)
        updateDin ino fun din => { din with size := len.toNat }
        setDirty ino true : SfsM Unit) sfs := by
  rw [sfsTruncfile, if_neg (by omega), run_bind (run_getSin loaded)]
  rfl

theorem FilledFile.truncate {len : Int} (file : FilledFile sfs ino sin)
    (consistent : Consistent sfs inos) :
    Ensures (TruncateStops sfs ino sin len) (sfsTruncfile ino len) sfs fun result after =>
      ¬ TruncateStops sfs ino sin len ∧
        StaysFilled inos sfs ino sin (result ≠ .error .noMem) after := by
  by_cases valid : 0 ≤ len ∧ len ≤ sfsMaxFileSize
  · have needed : TruncateStops sfs ino sin len ↔
        if sin.din.size = len.toNat then fileBlocks len.toNat ≠ sin.din.blocks
        else sin.din.blocks < fileBlocks len.toNat ∧ Overruns sfs ino sin len.toNat :=
      ⟨fun stops => stops.2.2, fun stops => ⟨valid.1, valid.2, stops⟩⟩
    apply Ensures.of_same (run_truncfile file.loaded valid)
    rw [needed]
    by_cases same : sin.din.size = len.toNat
    · rw [if_pos same, if_pos same]
      by_cases blocks : fileBlocks len.toNat = sin.din.blocks
      · exact ensures_of_run (run_assert sfs blocks)
          ⟨fun apart => apart blocks, file.staysFilled consistent⟩
      · exact ensures_of_stop (if_neg blocks) blocks
    rw [if_neg same, if_neg same]
    by_cases longer : sin.din.blocks < fileBlocks len.toNat
    · rw [if_pos longer]
      have total : sin.din.blocks + (fileBlocks len.toNat - sin.din.blocks) =
          fileBlocks len.toNat := by omega
      have grown := @FilledFile.grow sfs inos ino sin (fileBlocks len.toNat - sin.din.blocks) file
        consistent
      rw [total, slotCount_lt_fileBlocks] at grown
      apply ensures_bind (grown.weaken (fun stops => ⟨longer, stops⟩) fun _ _ post => post)
      · rintro ⟨⟩ middle ⟨sin', added, blocks, inside⟩
        rw [total] at blocks inside
        have mapped : ¬ mappedSize < len.toNat := by
          rw [← slotCount_lt_fileBlocks]
          have fits := inside (by omega)
          omega
        obtain ⟨final, ran, stays⟩ := @FilledFile.resize sfs middle inos ino sin sin' len.toNat
          (Except.ok () ≠ Except.error Errno.noMem) added.file added.consistent
          added.others fun _ _ => blocks
        apply ensures_bind_run (run_getSin added.file.loaded)
        apply ensures_bind_run (run_assert middle blocks)
        exact ensures_of_run ran ⟨fun stops => mapped stops.2.1, stays⟩
      · rintro ret middle ⟨sin', added, rfl, short⟩
        exact ⟨fun stops => absurd stops.2.2 (Nat.not_le.mpr short),
          added.staysFilled fun complete => absurd rfl complete⟩
    · rw [if_neg longer]
      obtain ⟨middle, ran, shape, _⟩ := @run_shrink sfs inos ino sin
        (sin.din.blocks - fileBlocks len.toNat) consistent file.loaded (by omega)
      have rest : sin.din.blocks - (sin.din.blocks - fileBlocks len.toNat) =
          fileBlocks len.toNat := by omega
      rw [rest] at shape
      obtain ⟨found, filled, blocks⟩ := shape.filledFile file (by omega)
      obtain ⟨final, ran', stays⟩ := @FilledFile.resize sfs middle inos ino sin found len.toNat
        (Except.ok () ≠ Except.error Errno.noMem) filled shape.consistent shape.others
        fun _ _ => blocks
      apply ensures_bind_run ran
      apply ensures_bind_run (run_getSin filled.loaded)
      apply ensures_bind_run (run_assert middle blocks)
      exact ensures_of_run ran' ⟨fun stops => longer stops.1, stays⟩
  · rw [sfsTruncfile, if_pos (by omega)]
    exact ensures_fail ⟨fun stops => valid ⟨stops.1, stops.2.1⟩, file.staysFilled consistent⟩

/-- A truncate that would pass the end of the block map panics. -/
theorem FilledFile.truncate_panics {len : Int} (file : FilledFile sfs ino sin)
    (consistent : Consistent sfs inos) (valid : 0 ≤ len ∧ len ≤ sfsMaxFileSize)
    (apart : sin.din.size ≠ len.toNat) (longer : sin.din.blocks < fileBlocks len.toNat)
    (overruns : Overruns sfs ino sin len.toNat) :
    sfsTruncfile ino len sfs = .error .panicked := by
  have beyond := slotCount_lt_fileBlocks.mpr overruns.1
  have stopped := @FilledFile.grow_panics sfs inos ino sin
    (fileBlocks len.toNat - sin.din.blocks) file consistent (by omega) (by omega) overruns.2
  rw [run_truncfile file.loaded valid, if_neg apart, if_pos longer]
  simp only [bind, Program.bind, stopped]

/-- A seek beyond the end of the file truncates it. -/
def SeekStops (sfs : SfsFs) (ino : Nat) (sin : SfsInode) (pos : Int) : Prop :=
  sin.din.size < pos ∧ pos < sfsMaxFileSize ∧ TruncateStops sfs ino sin pos

instance (sfs : SfsFs) (ino : Nat) (sin : SfsInode) (pos : Int) :
    Decidable (SeekStops sfs ino sin pos) :=
  inferInstanceAs (Decidable (_ ∧ _ ∧ _))

theorem FilledFile.tryseek {pos : Int} (file : FilledFile sfs ino sin)
    (consistent : Consistent sfs inos) :
    Ensures (SeekStops sfs ino sin pos) (sfsTryseek ino pos) sfs fun result after =>
      ¬ SeekStops sfs ino sin pos ∧
        StaysFilled inos sfs ino sin (result ≠ .error .noMem) after := by
  unfold sfsTryseek
  by_cases invalid : pos < 0 ∨ pos ≥ sfsMaxFileSize
  · rw [if_pos invalid]
    exact ensures_fail ⟨fun ⟨beyond, inside, _⟩ => by omega, file.staysFilled consistent⟩
  rw [if_neg invalid]
  apply ensures_bind_run (run_getSin file.loaded)
  by_cases beyond : pos > sin.din.size
  · rw [if_pos beyond]
    have seeks : SeekStops sfs ino sin pos ↔ TruncateStops sfs ino sin pos :=
      ⟨fun stops => stops.2.2, fun stops => ⟨beyond, by omega, stops⟩⟩
    rw [seeks]
    apply ensures_bind_run (run_getSin file.loaded)
    apply ensures_bind_run (run_assert sfs file.type)
    exact file.truncate consistent
  · rw [if_neg beyond]
    exact ensures_pure ⟨fun stops => beyond stops.1, file.staysFilled consistent⟩

/-! ## Reading and writing -/

/-- The blocks that a transfer of `done` bytes from `offset` on needs. -/
def reachedBlocks (offset done : Nat) : Nat := if done = 0 then 0 else fileBlocks (offset + done)

/-- A transfer that has come as far as `done` bytes. -/
def FilledUpTo (inos : List Nat) (sfs : SfsFs) (ino : Nat) (sin : SfsInode) (offset done : Nat)
    (after : SfsFs) : Prop :=
  ∃ sin', BlocksAdded inos sfs ino sin after sin' ∧ (offset + done) / sfsBlksize ≤ sin'.din.blocks ∧
    (0 < done → offset + done ≤ mappedSize) ∧
    sin'.din.blocks = max sin.din.blocks (reachedBlocks offset done)

/-- The block of a part is loaded, and the part is transferred. -/
theorem FilledUpTo.part {offset done size blkno blkoff : Nat}
    (upTo : FilledUpTo inos sfs ino sin offset done after)
    (place : offset + done = blkno * sfsBlksize + blkoff) (positive : 0 < size)
    (inside : blkoff + size ≤ sfsBlksize) {endpos : Nat} (room : offset + done + size ≤ endpos) :
    Ensures (Overruns sfs ino sin endpos) (sfsBmapLoadNolock ino blkno) after fun result middle =>
      match result with
      | .ok block => OnDevice middle ∧ Addressable middle block ∧
          FilledUpTo inos sfs ino sin offset (done + size) middle ∧
          ∀ bytes, FilledUpTo inos sfs ino sin offset (done + size) (middle.setBlock block bytes)
      | .error ret => ret = .noMem ∧ sfs.unusedBlocks < restCost sfs ino sin.din.blocks ∧
          FilledUpTo inos sfs ino sin offset done middle := by
  obtain ⟨sin', added, reached, mapped, grown⟩ := upTo
  have isBlock : (offset + done) / sfsBlksize = blkno := by
    rw [place]
    exact (place_of_byte (by omega)).1
  rw [isBlock] at reached
  have bound : (offset + (done + size)) / sfsBlksize ≤ blkno + 1 := by
    unfold sfsBlksize at *
    omega
  have limit : blkno < slotCount → offset + (done + size) ≤ mappedSize := by
    intro inMap
    have stop : (blkno + 1) * sfsBlksize ≤ mappedSize := Nat.mul_le_mul_right _ inMap
    have next : (blkno + 1) * sfsBlksize = blkno * sfsBlksize + sfsBlksize := by ring
    omega
  have more : max (reachedBlocks offset done) (blkno + 1) = reachedBlocks offset (done + size) := by
    unfold reachedBlocks fileBlocks sfsBlksize at *
    split_ifs <;> omega
  apply (added.file.load added.consistent reached).weaken
  · intro full
    have start : mappedSize ≤ blkno * sfsBlksize := Nat.mul_le_mul_right _ full
    exact ⟨by omega, added.enough_of_full (by omega)⟩
  · rintro result middle ⟨inMap, sin'', loaded, outcome⟩
    have both := added.trans loaded
    cases result with
    | ok block =>
        obtain ⟨slot, nonzero, blocks⟩ := outcome
        have reached' : (offset + (done + size)) / sfsBlksize ≤ sin''.din.blocks := by omega
        have member := loaded.consistent.known ino sin'' loaded.file.loaded
        have addressable : Addressable middle block := by
          rw [← slot]
          exact loaded.consistent.addressable_slot member (by rwa [slot])
        have grown' : sin''.din.blocks = max sin.din.blocks (reachedBlocks offset (done + size)) := by
          rw [blocks, grown, max_assoc, more]
        exact ⟨loaded.consistent.device, addressable,
          ⟨sin'', both, reached', fun _ => limit inMap, grown'⟩,
          fun bytes => ⟨sin'', both.setBlock slot nonzero, reached', fun _ => limit inMap, grown'⟩⟩
    | error ret =>
        obtain ⟨noMem, short, blocks⟩ := outcome
        have space := added.space
        exact ⟨noMem, by omega, sin'', both, by omega, mapped, blocks.trans grown⟩

theorem filledRules {offset endpos : Nat} {write : Bool} :
    PartRules ino offset endpos write
      (fun _ _ => sfs.unusedBlocks < restCost sfs ino sin.din.blocks) (Overruns sfs ino sin endpos)
      (fun done _ after => FilledUpTo inos sfs ino sin offset done after) where
  piece after done blkno blkoff size buf upTo place positive inside room := by
    apply ensures_bind (upTo.part place positive inside room)
    · rintro block middle ⟨device, addressable, same, written⟩
      have inBlock : blkoff < sfsBlksize ∧ blkoff + size ≤ sfsBlksize := ⟨by omega, inside⟩
      cases write with
      | true =>
          apply ensures_bind_run (run_wbuf device addressable inBlock _)
          exact ensures_pure ⟨rfl, rfl, written _⟩
      | false =>
          apply ensures_bind_run (run_rbuf device addressable inBlock)
          exact ensures_pure ⟨rfl, rfl, same⟩
    · rintro ret middle ⟨noMem, short, same⟩
      exact ⟨noMem, short, same⟩
  whole after done blkno buf upTo place room := by
    have positive : 0 < sfsBlksize := by decide
    have atStart : offset + done = blkno * sfsBlksize + 0 := by omega
    apply ensures_bind (upTo.part atStart positive (by omega) room)
    · rintro block middle ⟨device, addressable, same, written⟩
      cases write with
      | true =>
          apply ensures_bind_run (run_wblock device addressable _)
          exact ensures_pure ⟨rfl, rfl, written _⟩
      | false =>
          apply ensures_bind_run (run_rblock device addressable _ _)
          exact ensures_pure ⟨rfl, rfl, same⟩
    · rintro ret middle ⟨noMem, short, same⟩
      exact ⟨noMem, short, same⟩

/-- The first block of a transfer lies beyond the end of the file. Not even the first part is
transferred. -/
theorem beyondRules {offset endpos : Nat} {write : Bool} (loaded : sfs.inodes ino = some sin)
    (beyond : sin.din.blocks < offset / sfsBlksize) :
    PartRules ino offset endpos write (fun _ _ => False) True
      (fun done _ after => done = 0 ∧ after = sfs) where
  piece after done blkno blkoff size buf start place positive inside room := by
    obtain ⟨rfl, rfl⟩ := start
    have isBlock : offset / sfsBlksize = blkno := by
      rw [show offset = blkno * sfsBlksize + blkoff from place]
      exact (place_of_byte (by omega)).1
    exact ensures_bind_stop (run_load_beyond loaded (isBlock ▸ beyond)) trivial
  whole after done blkno buf start place room := by
    obtain ⟨rfl, rfl⟩ := start
    have isBlock : offset / sfsBlksize = blkno := by
      rw [show offset = blkno * sfsBlksize from place]
      exact Nat.mul_div_cancel _ (by decide)
    exact ensures_bind_stop (run_load_beyond loaded (isBlock ▸ beyond)) trivial

/-- The end of a transfer: as far as the block map's limits, and for a read the file's end. -/
def lastByte (sin : SfsInode) (offset : Int) (length : Nat) (write : Bool) : Nat :=
  let endpos := if wrap64 (offset + length) > sfsMaxFileSize then sfsMaxFileSize
    else (wrap64 (offset + length)).toNat
  if write = false ∧ endpos > sin.din.size then sin.din.size else endpos

/-- The offset and the length pass the checks of `sfs_io_nolock`, and there is something to
transfer. -/
def Transfers (sin : SfsInode) (offset : Int) (length : Nat) (write : Bool) : Prop :=
  0 ≤ offset ∧ offset < sfsMaxFileSize ∧ offset < wrap64 (offset + length) ∧
    (write = false → offset < sin.din.size)

theorem Transfers.lt_lastByte {offset : Int} {length : Nat} {write : Bool}
    (transfers : Transfers sin offset length write) :
    offset.toNat < lastByte sin offset length write := by
  obtain ⟨low, high, proper, inside⟩ := transfers
  unfold lastByte
  cases write with
  | false =>
      have below := inside rfl
      simp only [true_and]
      split_ifs <;> omega
  | true =>
      simp only [Bool.true_eq_false, false_and, if_false]
      split_ifs <;> omega

/-- A transfer does not return: it starts more than a block beyond the last one, or it would pass
the end of the block map. -/
def IoStops (sfs : SfsFs) (ino : Nat) (sin : SfsInode) (offset : Int) (length : Nat)
    (write : Bool) : Prop :=
  Transfers sin offset length write ∧ (sin.din.blocks < offset.toNat / sfsBlksize ∨
    Overruns sfs ino sin (lastByte sin offset length write))

instance (sfs : SfsFs) (ino : Nat) (sin : SfsInode) (offset : Int) (length : Nat) (write : Bool) :
    Decidable (IoStops sfs ino sin offset length write) :=
  inferInstanceAs (Decidable ((_ ∧ _ ∧ _ ∧ _) ∧ (_ ∨ _)))

/-- The rest of `sfs_io_nolock`, from the first part on. -/
theorem FilledFile.transfer {offset endpos : Nat} {buf : Bytes} {write : Bool}
    (file : FilledFile sfs ino sin) (consistent : Consistent sfs inos) (proper : offset < endpos) :
    Ensures (sin.din.blocks < offset / sfsBlksize ∨ Overruns sfs ino sin endpos)
      (do
        let (ret, moved) ← ioParts ino write offset endpos buf
        let sin ← getSin ino
        if offset + moved.alen > sin.din.size then do
          updateDin ino fun din => { din with size := offset + moved.alen }
          setDirty ino true
          pure (ret, moved.alen, moved.buf)
        else pure (ret, moved.alen, moved.buf) : SfsM (Option Errno × Nat × Bytes)) sfs
      fun result after =>
        ¬ (sin.din.blocks < offset / sfsBlksize ∨ Overruns sfs ino sin endpos) ∧
          StaysFilled inos sfs ino sin (∀ moved, result ≠ .ok (some .noMem, moved)) after := by
  by_cases beyond : sin.din.blocks < offset / sfsBlksize
  · have parts := @ensures_ioParts ino offset endpos write _ _ _ sfs
      (beyondRules file.loaded beyond) buf ⟨rfl, rfl⟩ proper
    apply ensures_bind (parts.weaken (fun _ => Or.inl beyond) fun _ _ post => post)
    · rintro ⟨outcome, moved⟩ middle ⟨⟨none, _⟩, ⟨_, reached⟩ | ⟨_, refused, _⟩⟩
      · omega
      · exact refused.elim
    · exact fun _ _ impossible => impossible.elim
  · have start : FilledUpTo inos sfs ino sin offset 0 sfs :=
      ⟨sin, BlocksAdded.refl consistent file, Nat.not_lt.mp beyond, fun more => by omega, by
        rw [reachedBlocks, if_pos rfl, Nat.max_zero]⟩
    have parts := @ensures_ioParts ino offset endpos write _ _ _ sfs filledRules buf start proper
    apply ensures_bind (parts.weaken Or.inr fun _ _ post => post)
    · rintro ⟨outcome, moved⟩ middle ⟨⟨sin', added, _, mapped, grownBlocks⟩, finished⟩
      have inside : ¬ (sin.din.blocks < offset / sfsBlksize ∨ Overruns sfs ino sin endpos) := by
        rintro (tooFar | ⟨outside, enough⟩)
        · exact beyond tooFar
        · rcases finished with ⟨_, reached⟩ | ⟨_, short, _⟩
          · have limit := mapped (by omega)
            omega
          · exact absurd enough (Nat.not_le.mpr short)
      -- with all its blocks the transfer moved something
      have complete : (∀ moved' : Nat × Bytes,
          Except.ok (outcome, moved.alen, moved.buf) ≠
            (Except.ok (some .noMem, moved') : Except Errno (Option Errno × Nat × Bytes))) →
          sin'.din.blocks = max sin.din.blocks (fileBlocks (offset + moved.alen)) := by
        intro notFull
        rcases finished with ⟨_, reached⟩ | ⟨rfl, _, _⟩
        · rw [grownBlocks, reachedBlocks, if_neg (by omega)]
        · exact absurd rfl (notFull _)
      apply ensures_bind_run (run_getSin added.file.loaded)
      have size := added.size
      by_cases grown : offset + moved.alen > sin'.din.size
      · obtain ⟨final, ran, stays⟩ := @FilledFile.resize sfs middle inos ino sin sin'
          (offset + moved.alen) _ added.file added.consistent added.others
          fun notFull inStep => by
            rw [complete notFull, inStep]
            exact Nat.max_eq_right (fileBlocks_mono (by omega))
        rw [if_pos grown]
        rw [run_bind (run_updateDin added.file.loaded)] at ran
        apply ensures_bind_run (run_updateDin added.file.loaded)
        apply ensures_bind_run ran
        exact ensures_pure ⟨inside, stays⟩
      · rw [if_neg grown]
        refine ensures_pure ⟨inside, added.staysFilled fun notFull inStep => ?_⟩
        rw [complete notFull, inStep]
        exact Nat.max_eq_left (fileBlocks_mono (by omega))
    · exact fun _ _ impossible => impossible.elim

theorem FilledFile.io {offset : Int} {length : Nat} {buf : Bytes} {write : Bool}
    (file : FilledFile sfs ino sin) (consistent : Consistent sfs inos) :
    Ensures (IoStops sfs ino sin offset length write) (sfsIoNolock ino buf offset length write) sfs
      fun result after => ¬ IoStops sfs ino sin offset length write ∧
        StaysFilled inos sfs ino sin (∀ moved, result ≠ .ok (some .noMem, moved)) after := by
  have notDir : sin.din.type ≠ sfsTypeDir := by
    rw [file.type]
    decide
  unfold sfsIoNolock
  apply ensures_bind_run (run_getSin file.loaded)
  apply ensures_bind_run (run_assert sfs notDir)
  simp only []
  by_cases invalid : offset < 0 ∨ offset ≥ sfsMaxFileSize ∨ offset > wrap64 (offset + length)
  · rw [if_pos invalid]
    refine ensures_pure ⟨?_, file.staysFilled consistent⟩
    rintro ⟨⟨low, high, proper, _⟩, _⟩
    omega
  rw [if_neg invalid]
  by_cases empty : offset = wrap64 (offset + length)
  · rw [if_pos empty]
    refine ensures_pure ⟨?_, file.staysFilled consistent⟩
    rintro ⟨⟨_, _, proper, _⟩, _⟩
    omega
  rw [if_neg empty]
  by_cases nothing : write = false ∧ offset.toNat ≥ sin.din.size
  · rw [if_pos nothing]
    refine ensures_pure ⟨?_, file.staysFilled consistent⟩
    rintro ⟨⟨_, _, _, inside⟩, _⟩
    have low := inside nothing.1
    omega
  rw [if_neg nothing]
  have transfers : Transfers sin offset length write := by
    refine ⟨by omega, by omega, by omega, fun isRead => ?_⟩
    have low : ¬ offset.toNat ≥ sin.din.size := fun high => nothing ⟨isRead, high⟩
    omega
  have stops : IoStops sfs ino sin offset length write ↔
      (sin.din.blocks < offset.toNat / sfsBlksize ∨
        Overruns sfs ino sin (lastByte sin offset length write)) :=
    and_iff_right transfers
  rw [stops]
  exact file.transfer consistent transfers.lt_lastByte

/-! ## Runs of calls -/

/-- Calls about the length and the bytes of a file. -/
inductive LengthCall
  | truncate (len : Int)
  | seek (pos : Int)
  | io (buf : Bytes) (offset : Int) (length : Nat) (write : Bool)

namespace LengthCall

def run (ino : Nat) : LengthCall → SfsM Unit
  | .truncate len => sfsTruncfile ino len
  | .seek pos => sfsTryseek ino pos
  | .io buf offset length write => do
      let (ret, _) ← sfsIoNolock ino buf offset length write
      match ret with
      | none => pure ()
      | some error => Program.fail error

/-- The call does not return. -/
def Stops (sfs : SfsFs) (ino : Nat) (sin : SfsInode) : LengthCall → Prop
  | .truncate len => TruncateStops sfs ino sin len
  | .seek pos => SeekStops sfs ino sin pos
  | .io _ offset length write => IoStops sfs ino sin offset length write

end LengthCall

theorem FilledFile.call {call : LengthCall} (file : FilledFile sfs ino sin)
    (consistent : Consistent sfs inos) :
    Ensures (call.Stops sfs ino sin) (call.run ino) sfs fun result after =>
      ¬ call.Stops sfs ino sin ∧
        StaysFilled inos sfs ino sin (result ≠ .error .noMem) after := by
  cases call with
  | truncate len => exact file.truncate consistent
  | seek pos => exact file.tryseek consistent
  | io buf offset length write =>
      apply ensures_bind (file.io consistent)
      · rintro ⟨ret, moved⟩ after ⟨goesOn, consistent', others, sin', filled, inStep⟩
        cases ret with
        | none => exact ensures_pure ⟨goesOn, consistent', others, sin', filled,
            fun _ => inStep fun _ => nofun⟩
        | some error =>
            refine ensures_fail ⟨goesOn, consistent', others, sin', filled, fun notFull => ?_⟩
            apply inStep
            rintro moved' same
            cases same
            exact notFull rfl
      · rintro ret after ⟨goesOn, consistent', others, sin', filled, inStep⟩
        exact ⟨goesOn, consistent', others, sin', filled, fun _ => inStep fun _ => nofun⟩

/-- Any calls on the regular files in memory. A call may return an error. -/
def lengthMachine : Machine SfsFs (Nat × LengthCall) Stop where
  Admits sfs event := ∃ sin, sfs.inodes event.1 = some sin ∧ sin.din.type = sfsTypeFile
  answer sfs event :=
    match event.2.run event.1 sfs with
    | .error stop => .error stop
    | .ok (_, after) => .ok after

/-- Every regular file in memory has all its blocks. -/
structure FilesFilled (inos : List Nat) (sfs : SfsFs) : Prop where
  consistent : Consistent sfs inos
  file : ∀ ino sin, sfs.inodes ino = some sin → sin.din.type = sfsTypeFile →
    FilledFile sfs ino sin

theorem FilesFilled.update {complete : Prop} (files : FilesFilled inos sfs)
    (stays : StaysFilled inos sfs ino sin complete after) : FilesFilled inos after := by
  obtain ⟨consistent, others, sin', filled, _⟩ := stays
  refine ⟨consistent, fun other found loaded isFile => ?_⟩
  by_cases same : other = ino
  · subst same
    obtain rfl := Option.some.inj (filled.loaded.symm.trans loaded)
    exact filled
  · have member := consistent.known other found loaded
    rw [others.inodes other same] at loaded
    have file := files.file other found loaded isFile
    refine ⟨(others.inodes other same).trans loaded, isFile, fun index low inMap => ?_⟩
    rw [others.slots other member same]
    exact file.filled index low inMap

theorem FilesFilled.step {before after : SfsFs} {event : Nat × LengthCall}
    (files : FilesFilled inos before) (step : lengthMachine.Step before event after) :
    FilesFilled inos after := by
  obtain ⟨⟨sin, loaded, isFile⟩, answered⟩ := step
  have file := files.file event.1 sin loaded isFile
  have stays := @FilledFile.call before inos event.1 sin event.2 file files.consistent
  unfold lengthMachine at answered
  cases ran : event.2.run event.1 before with
  | error stop =>
      simp only [ran] at answered
      cases answered
  | ok pair =>
      simp only [ran] at answered
      cases answered
      exact files.update (stays.of_ok ran).2

theorem FilesInStep.filled (files : FilesInStep inos sfs) : FilesFilled inos sfs where
  consistent := files.consistent
  file ino sin loaded isFile :=
    have file := files.file ino sin loaded isFile
    ⟨loaded, isFile, file.filled⟩

/-- In every state that truncates, seeks, reads and writes reach, a call on a regular file returns
if and only if it neither meets an assertion about the blocks of the file nor asks for bytes beyond
the block map where the disk has free blocks for the whole of it. -/
theorem accepted_lengths_return {events : List (Nat × LengthCall)} (files : FilesFilled inos sfs)
    (run : Run lengthMachine.Step sfs events after) :
    ∀ ino sin, after.inodes ino = some sin → sin.din.type = sfsTypeFile → ∀ call : LengthCall,
      (∃ result final, call.run ino after = .ok (result, final)) ↔ ¬ call.Stops after ino sin := by
  have reached : FilesFilled inos after :=
    run.invariant (FilesFilled inos) (fun _ _ _ files step => files.step step) files
  intro ino sin loaded isFile call
  have ensures := @FilledFile.call after inos ino sin call (reached.file ino sin loaded isFile)
    reached.consistent
  constructor
  · rintro ⟨result, final, ran⟩
    exact (ensures.of_ok ran).1
  · intro goesOn
    obtain ⟨result, final, ran, _⟩ := ensures.returns goesOn
    exact ⟨result, final, ran⟩

/-- A write, a seek that cuts nothing, a read and a truncate on the small volume, after which
further calls on the file are as the theorem says. -/
theorem accepted_lengths_return_small : ∃ after,
    Run lengthMachine.Step (smallSfs.setInode 1 smallSin)
      [(1, .io Bytes.zeros 3 4 true), (1, .truncate 0)] after ∧
    ∀ ino sin, after.inodes ino = some sin → sin.din.type = sfsTypeFile → ∀ call : LengthCall,
      (∃ result final, call.run ino after = .ok (result, final)) ↔ ¬ call.Stops after ino sin := by
  have isFile : smallSin.din.type = sfsTypeFile := by decide
  have run : ∃ after, Run lengthMachine.Step (smallSfs.setInode 1 smallSin)
      [(1, .io Bytes.zeros 3 4 true), (1, .truncate 0)] after :=
    ⟨_, .cons ⟨⟨smallSin, setInode_self, isFile⟩, rfl⟩
      (.cons ⟨⟨_, setInode_self, rfl⟩, rfl⟩ (.nil _))⟩
  obtain ⟨after, run⟩ := run
  exact ⟨after, run, accepted_lengths_return smallOpen_inStep.filled run⟩

/-! A volume of 2048 blocks with the file of the small volume, and a larger file. -/

def roomySfs : SfsFs :=
  { smallSfs with
    blocks := 2048
    dBlocks := 2048
    unusedBlocks := 2044
    freemap := fun block => decide (4 ≤ block ∧ block < 2048) }

theorem roomySfs_target (reference : Reference) :
    target roomySfs [1] reference = target smallSfs [1] reference := by
  cases reference with
  | metadata place =>
      have same : IsMetadata roomySfs place ↔ IsMetadata smallSfs place := by
        show place = 0 ∨ (2 ≤ place ∧ place < 3) ↔ place = 0 ∨ (2 ≤ place ∧ place < 3)
        exact Iff.rfl
      simp only [target, same]
  | inode ino => rfl
  | indirect ino => rfl
  | slot ino index => rfl

theorem roomySfs_consistent : Consistent roomySfs [1] where
  exact := {
    inRange := by
      intro reference block held
      rw [roomySfs_target] at held
      exact lt_trans (smallSfs_consistent.exact.inRange reference block held)
        (show (5 : Nat) < 2048 by decide)
    once := by
      intro reference other block held held'
      rw [roomySfs_target] at held held'
      exact smallSfs_consistent.exact.once reference other block held held'
    used_iff := by
      intro block inside
      have free : roomySfs.freemap block = false ↔ block < 4 := by
        show decide (4 ≤ block ∧ block < 2048) = false ↔ _
        rw [decide_eq_false_iff_not]
        have bound : block < 2048 := inside
        omega
      have small : (∃ reference, target smallSfs [1] reference = some block) ↔ block < 4 := by
        constructor
        · rintro ⟨reference, held⟩
          rcases smallSfs_target.mp held with ⟨_, rfl⟩ | ⟨_, rfl⟩ | ⟨_, rfl⟩ | ⟨_, rfl⟩ <;> decide
        · intro low
          have used : smallSfs.freemap block = false := by
            show decide (block = 4) = false
            rw [decide_eq_false_iff_not]
            omega
          exact (smallSfs_consistent.exact.used_iff block (show block < 5 by omega)).mp used
      rw [free, ← small]
      exact exists_congr fun reference => by rw [roomySfs_target]
    freeInRange := by
      intro block isFree
      exact (of_decide_eq_true isFree : 4 ≤ block ∧ block < 2048).2
    counted := by decide +kernel }
  device := ⟨by decide, by decide, by decide⟩
  known _ _ loaded := nomatch loaded
  clean _ _ loaded := nomatch loaded

theorem roomyOpen_consistent : Consistent (roomySfs.setInode 1 smallSin) [1] :=
  (mounted_fresh ⟨roomySfs_consistent, fun _ _ loaded => nomatch loaded⟩
    (List.mem_singleton.mpr rfl) rfl rfl (show smallSin.din.nlinks ≠ 0 by decide)).consistent

theorem roomyOpen_slot (index : Nat) :
    slotAt (roomySfs.setInode 1 smallSin) 1 index = if index = 0 then 3 else 0 := by
  have same : slotAt (roomySfs.setInode 1 smallSin) 1 index = slotAt smallSfs 1 index := by
    unfold slotAt
    rw [dinOf_loaded setInode_self]
    rfl
  rw [same, smallSfs_slot]

theorem roomyOpen_file : RegularFile (roomySfs.setInode 1 smallSin) 1 smallSin where
  loaded := setInode_self
  type := by decide
  blocks := by decide
  filled index low _ := by
    have blocks : smallSin.din.blocks = 1 := by decide
    have first : index = 0 := by omega
    rw [roomyOpen_slot, if_pos first]
    decide

theorem emptySlots_le {nblks missing : Nat} : emptySlots sfs ino nblks missing ≤ missing := by
  induction missing generalizing nblks with
  | zero => exact le_rfl
  | succ missing inductionHypothesis =>
      have rest := @inductionHypothesis (nblks + 1)
      rw [emptySlots]
      split_ifs <;> omega

theorem growthCost_le {nblks missing : Nat} : growthCost sfs ino nblks missing ≤ missing + 1 := by
  have slots := @emptySlots_le sfs ino nblks missing
  rw [growthCost]
  split_ifs <;> omega

/-- A regular file of five bytes on a disk with 2044 free blocks. The length of 1036 blocks and one
byte is accepted, and the kernel panics. -/
theorem sfs_truncfile_panics :
    Consistent (roomySfs.setInode 1 smallSin) [1] ∧
      RegularFile (roomySfs.setInode 1 smallSin) 1 smallSin ∧ 4243457 ≤ sfsMaxFileSize ∧
      sfsTruncfile 1 4243457 (roomySfs.setInode 1 smallSin) = .error .panicked := by
  have filled : FilledFile (roomySfs.setInode 1 smallSin) 1 smallSin :=
    ⟨setInode_self, roomyOpen_file.type, roomyOpen_file.filled⟩
  have blocks : smallSin.din.blocks = 1 := by decide
  have enough : restCost (roomySfs.setInode 1 smallSin) 1 smallSin.din.blocks ≤ 2044 := by
    have cost := @growthCost_le (roomySfs.setInode 1 smallSin) 1 1 (slotCount - 1)
    have slots : slotCount = 1036 := by decide
    rw [restCost, blocks]
    omega
  refine ⟨roomyOpen_consistent, roomyOpen_file, by decide, ?_⟩
  apply filled.truncate_panics roomyOpen_consistent (by decide) (by decide) (by decide)
  exact ⟨by decide, enough⟩

end UCore.Fs
