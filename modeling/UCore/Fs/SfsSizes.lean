import UCore.Fs.SfsResize
import UCore.Lib.Transition

/-!
Contract: the size and the block count of regular files, over runs of writes and truncates.

Owns:
- the runs of `sfs_io_nolock` writes at or below the end of a file and of `sfs_truncfile`;
- which truncates leave the block count in step with the size.

Does not own: reads, and how descriptors choose the position of a write.
-/

set_option autoImplicit false

namespace UCore.Fs

open UCore.Lib UCore.Lib.Program

variable {sfs after : SfsFs} {inos : List Nat} {ino : Nat} {sin : SfsInode}

/-! ## Runs -/

inductive FileCall
  | write (ino : Nat) (buf : Bytes) (offset : Int) (length : Nat)
  | truncate (ino : Nat) (len : Int)

def FileCall.run : FileCall → SfsM Unit
  | .write ino buf offset length => do
      let _ ← sfsIoNolock ino buf offset length true
      pure ()
  | .truncate ino len => sfsTruncfile ino len

/-- The calls are on regular files in memory, and writes start at or below the end of the file. A
call may return an error. -/
def FileCall.Admitted (sfs : SfsFs) : FileCall → Prop
  | .write ino _ offset _ =>
      ∃ sin, sfs.inodes ino = some sin ∧ sin.din.type = sfsTypeFile ∧ offset ≤ sin.din.size
  | .truncate ino _ => ∃ sin, sfs.inodes ino = some sin ∧ sin.din.type = sfsTypeFile

def fileMachine : Machine SfsFs FileCall Stop where
  Admits sfs call := call.Admitted sfs
  answer sfs call :=
    match call.run sfs with
    | .error stop => .error stop
    | .ok (_, after) => .ok after

/-- A truncate that enlarges its file finds all the blocks it needs, or not even the first. -/
def FileCall.Fits (sfs : SfsFs) : FileCall → Prop
  | .write .. => True
  | .truncate ino len => GrowthFits sfs ino len

/-! ## The invariant -/

/-- Every regular file in memory has as many blocks as its size needs, and has them all. -/
structure FilesInStep (inos : List Nat) (sfs : SfsFs) : Prop where
  consistent : Consistent sfs inos
  file : ∀ ino sin, sfs.inodes ino = some sin → sin.din.type = sfsTypeFile →
    RegularFile sfs ino sin

/-- The files that a call was not about. -/
theorem RegularFile.othersKept (file : RegularFile sfs ino sin) {changed : Nat}
    (kept : OthersKept inos changed sfs after) (member : ino ∈ inos) (apart : ino ≠ changed) :
    RegularFile after ino sin where
  loaded := (kept.inodes ino apart).trans file.loaded
  type := file.type
  blocks := file.blocks
  filled index low inMap := by
    rw [kept.slots ino member apart]
    exact file.filled index low inMap

namespace FilesInStep

theorem update {sin' : SfsInode} (files : FilesInStep inos sfs) (consistent : Consistent after inos)
    (others : OthersKept inos ino sfs after) (file : RegularFile after ino sin') :
    FilesInStep inos after where
  consistent := consistent
  file other found loaded isFile := by
    by_cases same : other = ino
    · subst same
      obtain rfl := Option.some.inj (file.loaded.symm.trans loaded)
      exact file
    · have member := consistent.known other found loaded
      rw [others.inodes other same] at loaded
      exact (files.file other found loaded isFile).othersKept others member same

theorem write {buf : Bytes} {offset : Int} {length : Nat} (files : FilesInStep inos sfs)
    (loaded : sfs.inodes ino = some sin) (isFile : sin.din.type = sfsTypeFile)
    (low : offset ≤ sin.din.size) :
    Ensures True (sfsIoNolock ino buf offset length true) sfs fun _ after =>
      FilesInStep inos after := by
  have file := files.file ino sin loaded isFile
  apply (ensures_io_write files.consistent file low).weaken fun _ => trivial
  rintro _ after ⟨_, _, _, _, written, others, _⟩
  exact files.update written.consistent others written.file

/-- A truncate that has all the blocks it needs, or none, leaves the file in step. -/
theorem truncate {len : Int} (files : FilesInStep inos sfs) (loaded : sfs.inodes ino = some sin)
    (isFile : sin.din.type = sfsTypeFile) (fits : GrowthFits sfs ino len) :
    Ensures True (sfsTruncfile ino len) sfs fun _ after => FilesInStep inos after := by
  have file := files.file ino sin loaded isFile
  apply (ensures_truncate files.consistent file).weaken fun _ => trivial
  intro result after post
  cases result with
  | ok _ =>
      obtain ⟨_, _, _, _, truncated⟩ := post
      exact files.update truncated.consistent truncated.others truncated.file
  | error ret =>
      rcases post with ⟨_, _, rfl⟩ | ⟨_, nonneg, limited, sin', grown⟩
      · exact files
      · have missing := grown.missing
        have short := grown.short
        have first := grown.first
        have enough := fits sin loaded nonneg limited (by unfold missingBlocks; omega)
        have blocks : sin'.din.blocks = sin.din.blocks := by omega
        apply files.update grown.consistent grown.others
        refine ⟨grown.loaded, grown.header.type.trans isFile, ?_, grown.filled⟩
        rw [blocks, file.blocks, grown.header.size]

theorem call {call : FileCall} (files : FilesInStep inos sfs) (admitted : call.Admitted sfs)
    (fits : call.Fits sfs) : Ensures True call.run sfs fun _ after => FilesInStep inos after := by
  cases call with
  | write ino buf offset length =>
      obtain ⟨sin, loaded, isFile, low⟩ := admitted
      exact ensures_bind (files.write loaded isFile low) (fun _ _ kept => ensures_pure kept)
        fun _ _ kept => kept
  | truncate ino len =>
      obtain ⟨sin, loaded, isFile⟩ := admitted
      exact files.truncate loaded isFile fits

theorem step {before after : SfsFs} {call : FileCall} (files : FilesInStep inos before)
    (step : fileMachine.Step before call after) (fits : call.Fits before) :
    FilesInStep inos after := by
  obtain ⟨admitted, answered⟩ := step
  have kept := files.call admitted fits
  unfold fileMachine at answered
  cases ran : call.run before with
  | error stop =>
      simp only [ran] at answered
      cases answered
  | ok pair =>
      simp only [ran] at answered
      cases answered
      exact kept.of_ok ran

/-- Truncating a file to the size it has returns, so that its assertion holds. -/
theorem same_size (files : FilesInStep inos sfs) (loaded : sfs.inodes ino = some sin)
    (isFile : sin.din.type = sfsTypeFile) :
    ∃ result, sfsTruncfile ino sin.din.size sfs = .ok (result, sfs) := by
  have file := files.file ino sin loaded isFile
  by_cases valid : sin.din.size ≤ sfsMaxFileSize
  · have blocks : (sin.din.size + (sfsBlksize - 1)) / sfsBlksize = sin.din.blocks :=
      file.blocks.symm
    refine ⟨.ok (), ?_⟩
    rw [sfsTruncfile, if_neg (by omega), run_bind (run_getSin loaded)]
    simp only [Int.toNat_natCast, if_true]
    exact run_assert sfs blocks
  · refine ⟨.error .inval, ?_⟩
    rw [sfsTruncfile, if_pos (by omega)]
    rfl

end FilesInStep

/-- A truncate that finds some of the blocks it needs and not all leaves the file out of step. -/
theorem truncate_out_of_step {len : Int} {result : Except Errno Unit}
    (files : FilesInStep inos sfs) (loaded : sfs.inodes ino = some sin)
    (isFile : sin.din.type = sfsTypeFile) (unfit : ¬ GrowthFits sfs ino len)
    (ran : sfsTruncfile ino len sfs = .ok (result, after)) :
    ∃ sin', after.inodes ino = some sin' ∧ sin'.din.size = sin.din.size ∧
      fileBlocks sin'.din.size < sin'.din.blocks := by
  have file := files.file ino sin loaded isFile
  have post := (ensures_truncate files.consistent file).of_ok ran
  unfold GrowthFits at unfit
  push Not at unfit
  obtain ⟨found, isFound, nonneg, limited, grows, short, first⟩ := unfit
  obtain rfl := Option.some.inj (loaded.symm.trans isFound)
  cases result with
  | ok _ =>
      obtain ⟨_, _, enough, _⟩ := post
      omega
  | error ret =>
      rcases post with ⟨_, invalid, _⟩ | ⟨_, _, _, sin', grown⟩
      · omega
      · have size : sin'.din.size = sin.din.size := grown.header.size
        refine ⟨sin', grown.loaded, size, ?_⟩
        rw [size, ← file.blocks]
        exact grown.first.mp first

/-- Where every truncate that enlarges its file finds all the blocks it needs or not even the
first, each regular file has as many blocks as its size needs in every state of the run, so that
truncating a file to its own size never fails its assertion. Any other truncate that returns leaves
its file with too many blocks. -/
theorem sfs_blocks_follow_size {calls : List FileCall} (files : FilesInStep inos sfs)
    (run : Run (fun before call after => fileMachine.Step before call after ∧ call.Fits before)
      sfs calls after) :
    ∀ ino sin, after.inodes ino = some sin → sin.din.type = sfsTypeFile →
      sin.din.blocks = fileBlocks sin.din.size ∧
        (∃ result, sfsTruncfile ino sin.din.size after = .ok (result, after)) ∧
        ∀ len result final, ¬ GrowthFits after ino len →
          sfsTruncfile ino len after = .ok (result, final) →
          ∃ sin', final.inodes ino = some sin' ∧ fileBlocks sin'.din.size < sin'.din.blocks := by
  have reached : FilesInStep inos after :=
    run.invariant (FilesInStep inos) (fun _ _ _ files step => files.step step.1 step.2) files
  intro ino sin loaded isFile
  refine ⟨(reached.file ino sin loaded isFile).blocks, reached.same_size loaded isFile, ?_⟩
  intro len result final unfit ran
  obtain ⟨sin', loaded', _, more⟩ := truncate_out_of_step reached loaded isFile unfit ran
  exact ⟨sin', loaded', more⟩

/-! The small volume has one free block. -/

theorem smallOpen_inStep : FilesInStep [1] (smallSfs.setInode 1 smallSin) where
  consistent := smallOpen_consistent
  file ino sin loaded _ := by
    by_cases same : ino = 1
    · subst same
      rw [setInode_self] at loaded
      exact Option.some.inj loaded ▸ smallOpen_file
    · rw [show (smallSfs.setInode 1 smallSin).inodes ino = smallSfs.inodes ino from
        Function.update_of_ne same _ _] at loaded
      cases loaded

/-- Writing four bytes at 3, and cutting the file. -/
theorem sfs_blocks_follow_size_small : ∃ after,
    Run (fun before call after => fileMachine.Step before call after ∧ call.Fits before)
      (smallSfs.setInode 1 smallSin) [.write 1 Bytes.zeros 3 4, .truncate 1 0] after ∧
    ∀ ino sin, after.inodes ino = some sin → sin.din.type = sfsTypeFile →
      sin.din.blocks = fileBlocks sin.din.size ∧
        (∃ result, sfsTruncfile ino sin.din.size after = .ok (result, after)) ∧
        ∀ len result final, ¬ GrowthFits after ino len →
          sfsTruncfile ino len after = .ok (result, final) →
          ∃ sin', final.inodes ino = some sin' ∧ fileBlocks sin'.din.size < sin'.din.blocks := by
  have isFile : smallSin.din.type = sfsTypeFile := by decide
  have low : (3 : Int) ≤ smallSin.din.size := by decide
  have cut : ∀ sfs : SfsFs, GrowthFits sfs 1 0 := by
    intro sfs sin _ _ _ grows
    have none : missingBlocks sin 0 = 0 := Nat.zero_sub _
    omega
  have run : ∃ after,
      Run (fun before call after => fileMachine.Step before call after ∧ call.Fits before)
        (smallSfs.setInode 1 smallSin) [.write 1 Bytes.zeros 3 4, .truncate 1 0] after :=
    ⟨_, .cons ⟨⟨⟨smallSin, setInode_self, isFile, low⟩, rfl⟩, trivial⟩
      (.cons ⟨⟨⟨_, setInode_self, rfl⟩, rfl⟩, cut _⟩ (.nil _))⟩
  obtain ⟨after, run⟩ := run
  exact ⟨after, run, sfs_blocks_follow_size smallOpen_inStep run⟩

theorem smallOpen_slot (index : Nat) :
    slotAt (smallSfs.setInode 1 smallSin) 1 index = if index = 0 then 3 else 0 := by
  have same : slotAt (smallSfs.setInode 1 smallSin) 1 index = slotAt smallSfs 1 index := by
    unfold slotAt
    rw [dinOf_loaded setInode_self]
    rfl
  rw [same, smallSfs_slot]

/-- Growing the file to three blocks takes two free blocks, of which there is only one. -/
theorem smallOpen_unfit : ¬ GrowthFits (smallSfs.setInode 1 smallSin) 1 12288 := by
  have first : loadCost (smallSfs.setInode 1 smallSin) 1 1 = 1 := by
    rw [loadCost, smallOpen_slot]
    decide
  have blocks : smallSin.din.blocks = 1 := by decide
  have missing : missingBlocks smallSin 12288 = 2 := by decide
  have whole : 2 ≤ growthCost (smallSfs.setInode 1 smallSin) 1 1 2 := by
    rw [growthCost, emptySlots, emptySlots, emptySlots, smallOpen_slot, smallOpen_slot]
    simp [slotCount, sfsNdirect, sfsBlkNentry]
  have unused : (smallSfs.setInode 1 smallSin).unusedBlocks = 1 := rfl
  intro fits
  have enough := fits smallSin setInode_self (by decide) (by decide) (by rw [missing]; decide)
  rw [blocks, missing] at enough
  omega

theorem smallOpen_returns {len : Int} (mapped : len ≤ mappedSize) :
    ∃ result after, sfsTruncfile 1 len (smallSfs.setInode 1 smallSin) = .ok (result, after) := by
  obtain ⟨result, after, ran, _⟩ :=
    (ensures_truncate smallOpen_consistent smallOpen_file).returns (not_not.mpr mapped)
  exact ⟨result, after, ran⟩

/-- A truncate that runs out of free blocks leaves the file with a block too many, and truncating
the file to the size it has fails its assertion then. -/
theorem sfs_truncfile_grows_part : ∃ after sin,
    Run fileMachine.Step (smallSfs.setInode 1 smallSin) [.truncate 1 12288] after ∧
    after.inodes 1 = some sin ∧ sin.din.blocks ≠ fileBlocks sin.din.size ∧
    sfsTruncfile 1 sin.din.size after = .error .assertFailed := by
  have isFile : smallSin.din.type = sfsTypeFile := by decide
  have mapped : (12288 : Int) ≤ mappedSize := by
    unfold mappedSize slotCount sfsNdirect sfsBlkNentry sfsBlksize
    omega
  obtain ⟨result, after, ran⟩ := smallOpen_returns mapped
  obtain ⟨sin, loaded, size, more⟩ :=
    truncate_out_of_step smallOpen_inStep setInode_self isFile smallOpen_unfit ran
  have five : sin.din.size = 5 := by
    rw [size]
    decide
  refine ⟨after, sin, .cons ⟨⟨smallSin, setInode_self, isFile⟩, ?_⟩ (.nil _), loaded, by omega, ?_⟩
  · unfold fileMachine
    simp only [FileCall.run, ran]
  · have fails : ¬ (sin.din.size + (sfsBlksize - 1)) / sfsBlksize = sin.din.blocks :=
      Nat.ne_of_lt more
    rw [sfsTruncfile, if_neg (by rw [five]; decide), run_bind (run_getSin loaded)]
    simp only [Int.toNat_natCast, if_true]
    exact if_neg fails

end UCore.Fs
