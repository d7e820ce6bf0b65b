import UCore.Fs.SfsFlags

/-!
Contract: `sfs_io_nolock` as a byte-array file.

Owns:
- what a write answers, from the free blocks and the blocks that it needs;
- that reading delivers the bytes of a file, and writing replaces them.

Does not own: the rules for the parts of a transfer.
-/

set_option autoImplicit false

namespace UCore.Fs

open UCore.Lib UCore.Lib.Program

variable {sfs : SfsFs} {inos : List Nat} {ino length : Nat} {sin : SfsInode} {offset : Int}
  {buf : Bytes}

/-- What a write answers: it is refused blocks exactly if fewer are free than it needs. -/
def writeRet (sfs : SfsFs) (ino : Nat) (sin : SfsInode) (offset : Int) (length : Nat) :
    Option Errno :=
  if offset < 0 then some .inval
  else if sfs.unusedBlocks <
      growthCost sfs ino sin.din.blocks (fileBlocks (offset.toNat + length) - sin.din.blocks) then
    some .noMem
  else none

/-- The blocks that a transfer has added decide how it ends. -/
theorem Advancing.outcome {start endpos alen added : Nat} {after : SfsFs} {sin' : SfsInode}
    {outcome : Option Errno} (advancing : Advancing inos ino start sfs sin alen added after sin')
    (proper : start < endpos)
    (finished : (outcome = none ∧ start + alen = endpos) ∨
      (outcome = some .noMem ∧ NoBlockLeft ino start sfs sin alen after ∧ start + alen < endpos)) :
    outcome = if sfs.unusedBlocks <
        growthCost sfs ino sin.din.blocks (fileBlocks endpos - sin.din.blocks) then some .noMem
      else none := by
  obtain ⟨extended, reached, used⟩ := advancing
  rcases finished with ⟨rfl, whole⟩ | ⟨rfl, ⟨added', _, _, _, short, low⟩, early⟩
  · have enough := extended.enough
    have covered := @growthCost_mono sfs ino sin.din.blocks (fileBlocks endpos - sin.din.blocks) added
      (by unfold fileBlocks sfsBlksize at *; omega)
    rw [if_neg (by omega)]
  · have needed := @growthCost_mono sfs ino sin.din.blocks (added' + 1)
      (fileBlocks endpos - sin.din.blocks) (by unfold fileBlocks sfsBlksize at *; omega)
    rw [if_pos (by omega)]

/-- What a write answers. -/
theorem ensures_io_ret (consistent : Consistent sfs inos) (file : RegularFile sfs ino sin)
    (low : offset ≤ sin.din.size) (mapped : offset + length ≤ mappedSize) :
    Ensures True (sfsIoNolock ino buf offset length true) sfs fun result _ =>
      ∀ ret alen now, result = .ok (ret, alen, now) → ret = writeRet sfs ino sin offset length := by
  have limit := mappedSize_lt
  have small : sfsMaxFileSize < 2 ^ 63 := by decide
  apply Ensures.of_same (run_io_checks file)
  rw [if_congr (refused_iff_negative mapped) rfl rfl]
  unfold writeRet
  by_cases negative : offset < 0
  · rw [if_pos negative, if_pos negative]
    apply ensures_pure
    rintro _ _ _ ⟨⟩
    rfl
  rw [if_neg negative, if_neg negative, wrap64_of_range (by omega) (by omega)]
  by_cases empty : offset = offset + length
  · have covered : fileBlocks (offset.toNat + length) - sin.din.blocks = 0 := by
      rw [file.blocks]
      unfold fileBlocks sfsBlksize
      omega
    rw [if_pos empty, covered, growthCost_zero, if_neg (Nat.not_lt_zero _)]
    apply ensures_pure
    rintro _ _ _ ⟨⟩
    rfl
  rw [if_neg empty]
  have endpos : (if offset + length > sfsMaxFileSize then sfsMaxFileSize
      else (offset + length).toNat) = offset.toNat + length := by
    rw [if_neg (by omega)]
    omega
  simp only [Bool.true_eq_false, false_and, if_false, endpos]
  have proper : offset.toNat < offset.toNat + length := by omega
  have start : AdvancesTo inos ino offset.toNat sfs sin 0 buf sfs :=
    ⟨0, sin, Extended.refl consistent file.loaded, Or.inl ⟨rfl, rfl⟩, Or.inl rfl⟩
  apply ensures_bind (ensures_ioParts (advanceRules file.loaded) start proper)
  · rintro ⟨outcome, moved⟩ middle ⟨⟨added, sin', advancing⟩, finished⟩
    have answered := advancing.outcome proper finished
    apply ensures_getSin
    intro found isFound
    by_cases grows : offset.toNat + moved.alen > found.din.size
    · rw [if_pos grows]
      apply ensures_bind_run (run_updateDin isFound)
      apply ensures_bind_run (run_setDirty setInode_self)
      apply ensures_pure
      rintro _ _ _ ⟨⟩
      exact answered
    · rw [if_neg grows]
      apply ensures_pure
      rintro _ _ _ ⟨⟩
      exact answered
  · exact fun _ _ impossible => impossible.elim

/-- `sfs_io_nolock` is a byte-array file. A read delivers the bytes from `offset` up to the end of
the file, as far as it was asked for, and changes nothing. A write, which may run out of blocks,
overlays the file with the bytes it transferred and leaves every other byte of every file. It is
answered with `-E_NO_MEM` exactly if the blocks it needs are not free. -/
theorem sfs_io_nolock_bytes (consistent : Consistent sfs inos) (file : RegularFile sfs ino sin) :
    (offset + length < 2 ^ 63 → min (offset.toNat + length) sin.din.size ≤ mappedSize →
      sfsIoNolock ino buf offset length false sfs =
        .ok (.ok (readRet offset, delivered offset length sin.din.size,
          buf.overlay 0 (delivered offset length sin.din.size)
            ((contentAt sfs ino).drop offset.toNat)), sfs)) ∧
    (offset ≤ sin.din.size → offset + length ≤ mappedSize →
      ∃ alen after sin', sfsIoNolock ino buf offset length true sfs =
          .ok (.ok (writeRet sfs ino sin offset length, alen, buf), after) ∧
        FileWritten inos sfs ino sin offset length buf (writeRet sfs ino sin offset length) alen after
          sin') := by
  refine ⟨fun noOverflow mapped => run_io_read consistent file noOverflow mapped, fun low mapped => ?_⟩
  obtain ⟨ret, alen, after, sin', ran, written⟩ := run_io_write consistent file low mapped
  obtain rfl := (ensures_io_ret consistent file low mapped).of_ok ran ret alen buf rfl
  exact ⟨alen, after, sin', ran, written⟩

/-- Reading ten bytes at 2 delivers three. Four bytes are written at 3, and two more blocks are not
free. -/
theorem sfs_io_nolock_bytes_small :
    sfsIoNolock 1 Bytes.zeros 2 10 false (smallSfs.setInode 1 smallSin) =
      .ok (.ok (none, 3, Bytes.zeros.overlay 0 3
        ((contentAt (smallSfs.setInode 1 smallSin) 1).drop 2)), smallSfs.setInode 1 smallSin) ∧
    (∃ alen after sin', sfsIoNolock 1 Bytes.zeros 3 4 true (smallSfs.setInode 1 smallSin) =
        .ok (.ok (none, alen, Bytes.zeros), after) ∧
      FileWritten [1] (smallSfs.setInode 1 smallSin) 1 smallSin 3 4 Bytes.zeros none alen after
        sin') ∧
    ∃ alen after sin', sfsIoNolock 1 Bytes.zeros 3 8192 true (smallSfs.setInode 1 smallSin) =
        .ok (.ok (some .noMem, alen, Bytes.zeros), after) ∧
      FileWritten [1] (smallSfs.setInode 1 smallSin) 1 smallSin 3 8192 Bytes.zeros (some .noMem)
        alen after sin' := by
  have size : smallSin.din.size = 5 := by decide
  have short : writeRet (smallSfs.setInode 1 smallSin) 1 smallSin 3 4 = none := by decide +kernel
  have long : writeRet (smallSfs.setInode 1 smallSin) 1 smallSin 3 8192 = some .noMem := by
    decide +kernel
  have read := (@sfs_io_nolock_bytes _ [1] 1 10 smallSin 2 Bytes.zeros smallOpen_consistent
    smallOpen_file).1 (by decide) (by rw [size]; decide)
  have written := fun length => (@sfs_io_nolock_bytes _ [1] 1 length smallSin 3 Bytes.zeros
    smallOpen_consistent smallOpen_file).2 (by rw [size]; decide)
  have first := written 4 (by decide)
  have second := written 8192 (by decide)
  rw [size] at read
  rw [short] at first
  rw [long] at second
  exact ⟨read, first, second⟩

end UCore.Fs
