import UCore.Fs.SfsInode

/-!
Contract: reading and writing a file, `sfs_io_nolock` of `kern/fs/sfs/sfs_inode.c`.

Owns:
- the transfer in its three parts, the unaligned head, the whole blocks and the tail;
- how many bytes it moves at most.

The buffer is the contents at `buf`, of which a read replaces the bytes it delivers. What the
function leaves in `*alenp` is part of the result, on an error too.

Does not own: what a file contains.
-/

set_option autoImplicit false

namespace UCore.Fs

open UCore.Lib UCore.Lib.Program

/-- The progress of a transfer: the bytes done, the next block, and the buffer. -/
structure Transfer where
  alen : Nat
  blkno : Nat
  buf : Bytes

/-- Part of a block, through `sfs_rbuf` or `sfs_wbuf`. -/
def ioBuf (ino : Nat) (write : Bool) (size blkoff : Nat) (transfer : Transfer) : SfsM Transfer := do
  let block ← sfsBmapLoadNolock ino transfer.blkno
  if write = true then do
    sfsWbuf (transfer.buf.drop transfer.alen) size block blkoff
    pure { transfer with alen := transfer.alen + size }
  else do
    let bytes ← sfsRbuf size block blkoff
    pure { transfer with
      alen := transfer.alen + size
      buf := transfer.buf.overlay transfer.alen size bytes }

/-- A whole block, through `sfs_rblock` or `sfs_wblock`. -/
def ioBlock (ino : Nat) (write : Bool) (transfer : Transfer) : SfsM Transfer := do
  let block ← sfsBmapLoadNolock ino transfer.blkno
  if write = true then do
    sfsWblock (transfer.buf.drop transfer.alen) block 1
    pure { transfer with alen := transfer.alen + sfsBlksize, blkno := transfer.blkno + 1 }
  else do
    let buf ← sfsRblock transfer.buf transfer.alen block 1
    pure ⟨transfer.alen + sfsBlksize, transfer.blkno + 1, buf⟩

/-- The loop over whole blocks, up to its first error. -/
def ioBlocks (ino : Nat) (write : Bool) : Nat → Transfer → SfsM (Option Errno × Transfer)
  | 0, transfer => pure (none, transfer)
  | nblks + 1, transfer => do
      match ← Program.attempt (ioBlock ino write transfer) with
      | .error ret => pure (some ret, transfer)
      | .ok moved => ioBlocks ino write nblks moved

/-- Whole blocks and tail, from the block `transfer.blkno` on. -/
def ioAligned (ino : Nat) (write : Bool) (offset endpos nblks : Nat) (transfer : Transfer) :
    SfsM (Option Errno × Transfer) := do
  match ← ioBlocks ino write nblks transfer with
  | (some ret, moved) => pure (some ret, moved)
  | (none, moved) => do
      let size := endpos - (offset + moved.alen)
      if size > 0 then do
        match ← Program.attempt (ioBuf ino write size 0 moved) with
        | .error ret => pure (some ret, moved)
        | .ok finished => pure (none, finished)
      else pure (none, moved)

/-- The three parts. -/
def ioParts (ino : Nat) (write : Bool) (offset endpos : Nat) (buf : Bytes) :
    SfsM (Option Errno × Transfer) := do
  let blkno := offset / sfsBlksize
  let nblks := endpos / sfsBlksize - blkno
  let blkoff := offset % sfsBlksize
  if blkoff ≠ 0 then do
    let size := if nblks ≠ 0 then sfsBlksize - blkoff else endpos - offset
    match ← Program.attempt (ioBuf ino write size blkoff ⟨0, blkno, buf⟩) with
    | .error ret => pure (some ret, ⟨0, blkno, buf⟩)
    | .ok moved =>
        if nblks = 0 then pure (none, moved)
        else ioAligned ino write offset endpos (nblks - 1) { moved with blkno := blkno + 1 }
  else ioAligned ino write offset endpos nblks ⟨0, blkno, buf⟩

/-- The result, the number of bytes transferred and the buffer. -/
def sfsIoNolock (ino : Nat) (buf : Bytes) (offset : Int) (length : Nat) (write : Bool) :
    SfsM (Option Errno × Nat × Bytes) := do
  let sin ← getSin ino
  assert (sin.din.type ≠ sfsTypeDir)
  let endpos := wrap64 (offset + length)
  if offset < 0 ∨ offset ≥ sfsMaxFileSize ∨ offset > endpos then pure (some .inval, 0, buf)
  else if offset = endpos then pure (none, 0, buf)
  else do
    let endpos := if endpos > sfsMaxFileSize then sfsMaxFileSize else endpos.toNat
    let offset := offset.toNat
    if write = false ∧ offset ≥ sin.din.size then pure (none, 0, buf)
    else do
      let endpos := if write = false ∧ endpos > sin.din.size then sin.din.size else endpos
      let (ret, moved) ← ioParts ino write offset endpos buf
      let sin ← getSin ino
      if offset + moved.alen > sin.din.size then do
        updateDin ino fun din => { din with size := offset + moved.alen }
        setDirty ino true
        pure (ret, moved.alen, moved.buf)
      else pure (ret, moved.alen, moved.buf)

/-! ## How much a transfer moves -/

section Bounds

variable {ino offset endpos : Nat} {write : Bool}

theorem answers_ioBuf {size blkoff : Nat} {transfer : Transfer} :
    Answers (ioBuf ino write size blkoff transfer) fun moved =>
      moved.alen = transfer.alen + size := by
  apply answers_then
  intro block
  cases write with
  | true => exact answers_then fun _ => answers_pure rfl
  | false => exact answers_then fun _ => answers_pure rfl

theorem answers_ioBlock {transfer : Transfer} :
    Answers (ioBlock ino write transfer) fun moved => moved.alen = transfer.alen + sfsBlksize := by
  apply answers_then
  intro block
  cases write with
  | true => exact answers_then fun _ => answers_pure rfl
  | false => exact answers_then fun _ => answers_pure rfl

theorem answers_ioBlocks {nblks : Nat} {transfer : Transfer} :
    Answers (ioBlocks ino write nblks transfer) fun result =>
      result.2.alen ≤ transfer.alen + nblks * sfsBlksize := by
  induction nblks generalizing transfer with
  | zero => exact answers_pure (Nat.le_add_right _ _)
  | succ nblks inductionHypothesis =>
      have more : (nblks + 1) * sfsBlksize = nblks * sfsBlksize + sfsBlksize := by ring
      apply answers_bind (answers_attempt answers_ioBlock)
      intro result moves
      cases result with
      | error ret => exact answers_pure (Nat.le_add_right _ _)
      | ok moved =>
          have alen := moves moved rfl
          apply inductionHypothesis.weaken
          intro result bound
          omega

theorem answers_ioAligned {nblks : Nat} {transfer : Transfer}
    (room : offset + transfer.alen + nblks * sfsBlksize ≤ endpos) :
    Answers (ioAligned ino write offset endpos nblks transfer) fun result =>
      offset + result.2.alen ≤ endpos := by
  apply answers_bind answers_ioBlocks
  rintro ⟨ret, moved⟩ bound
  have inside : offset + moved.alen ≤ endpos := by
    simp only at bound
    omega
  cases ret with
  | some ret => exact answers_pure inside
  | none =>
      simp only []
      by_cases rest : endpos - (offset + moved.alen) > 0
      · rw [if_pos rest]
        apply answers_bind (answers_attempt answers_ioBuf)
        intro result moves
        cases result with
        | error ret => exact answers_pure inside
        | ok finished =>
            have alen := moves finished rfl
            exact answers_pure (show offset + finished.alen ≤ endpos by omega)
      · rw [if_neg rest]
        exact answers_pure inside

theorem answers_ioParts {buf : Bytes} (proper : offset ≤ endpos) :
    Answers (ioParts ino write offset endpos buf) fun result => offset + result.2.alen ≤ endpos := by
  have whole : (endpos / sfsBlksize - offset / sfsBlksize) * sfsBlksize + offset ≤
      endpos + offset % sfsBlksize := by
    unfold sfsBlksize
    omega
  have inBlock := Nat.mod_lt offset (show 0 < sfsBlksize by decide)
  unfold ioParts
  simp only []
  by_cases unaligned : offset % sfsBlksize ≠ 0
  · rw [if_pos unaligned]
    apply answers_bind (answers_attempt answers_ioBuf)
    intro result moves
    cases result with
    | error ret => exact answers_pure proper
    | ok moved =>
        have alen := moves moved rfl
        simp only [Nat.zero_add] at alen
        simp only []
        by_cases none : endpos / sfsBlksize - offset / sfsBlksize = 0
        · rw [if_neg (not_not.mpr none)] at alen
          rw [if_pos none]
          exact answers_pure (show offset + moved.alen ≤ endpos by omega)
        · rw [if_pos none] at alen
          rw [if_neg none]
          apply answers_ioAligned
          obtain ⟨more, isMore⟩ := Nat.exists_eq_succ_of_ne_zero none
          have split : (more + 1) * sfsBlksize = more * sfsBlksize + sfsBlksize := by ring
          rw [isMore, Nat.succ_eq_add_one] at whole ⊢
          rw [Nat.add_sub_cancel]
          show offset + moved.alen + more * sfsBlksize ≤ endpos
          omega
  · rw [if_neg unaligned]
    apply answers_ioAligned
    show offset + 0 + _ ≤ endpos
    omega

/-- A transfer moves no more bytes than it is asked for. -/
theorem answers_sfsIoNolock {buf : Bytes} {offset : Int} {length : Nat} :
    Answers (sfsIoNolock ino buf offset length write) fun result => result.2.1 ≤ length := by
  apply answers_then
  intro sin
  apply answers_then
  intro _
  simp only []
  by_cases invalid : offset < 0 ∨ offset ≥ sfsMaxFileSize ∨ offset > wrap64 (offset + length)
  · rw [if_pos invalid]
    exact answers_pure (Nat.zero_le _)
  rw [if_neg invalid]
  have bounded : wrap64 (offset + length) ≤ offset + length := by
    unfold wrap64
    omega
  by_cases empty : offset = wrap64 (offset + length)
  · rw [if_pos empty]
    exact answers_pure (Nat.zero_le _)
  rw [if_neg empty]
  by_cases nothing : write = false ∧ offset.toNat ≥ sin.din.size
  · rw [if_pos nothing]
    exact answers_pure (Nat.zero_le _)
  rw [if_neg nothing]
  generalize isLast : (if write = false ∧ (if wrap64 (offset + length) > sfsMaxFileSize then
      sfsMaxFileSize else (wrap64 (offset + length)).toNat) > sin.din.size then sin.din.size
    else if wrap64 (offset + length) > sfsMaxFileSize then sfsMaxFileSize
      else (wrap64 (offset + length)).toNat) = last
  have limits : offset.toNat ≤ last ∧ last ≤ offset.toNat + length := by
    cases write with
    | true =>
        simp only [Bool.true_eq_false, false_and, if_false] at isLast
        split_ifs at isLast <;> omega
    | false =>
        simp only [true_and] at nothing isLast
        split_ifs at isLast <;> omega
  apply answers_bind (answers_ioParts limits.1)
  rintro ⟨ret, moved⟩ inside
  have short : moved.alen ≤ length := by
    simp only at inside
    omega
  apply answers_then
  intro sin
  by_cases grown : offset.toNat + moved.alen > sin.din.size
  · rw [if_pos grown]
    exact answers_then fun _ => answers_then fun _ => answers_pure short
  · rw [if_neg grown]
    exact answers_pure short

end Bounds

end UCore.Fs
