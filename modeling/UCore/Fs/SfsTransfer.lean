import UCore.Fs.SfsIdentity
import UCore.Fs.SfsZeroFill

/-!
Contract: what one transfer does to the bytes of its file, `sfs_io_nolock` of
`kern/fs/sfs/sfs_inode.c`, wherever it starts and ends.

Owns:
- the bytes in the blocks of a file, whatever its size;
- a read delivers them and a write replaces them, as many as the call says;
- what reads, writes and seeks at the end of a file do to its size.

Does not own: which transfers return.
-/

set_option autoImplicit false

namespace UCore.Fs

open UCore.Lib UCore.Lib.Program

variable {sfs after : SfsFs} {inos : List Nat} {ino index block : Nat} {sin sin' : SfsInode}

/-! ## The bytes in the blocks -/

/-- The bytes in the blocks of a file. A block that is missing counts as empty. -/
def blockBytes (sfs : SfsFs) (ino : Nat) : Bytes := fun position =>
  filledData sfs ino (position / sfsBlksize) (position % sfsBlksize)

theorem blockBytes_congr (same : ∀ blocks, KeepsData sfs ino blocks after) :
    blockBytes after ino = blockBytes sfs ino := by
  funext position
  exact congrFun (same (position / sfsBlksize + 1) _ (Nat.lt_succ_self _)) _

/-- A block was loaded, or there was no free block for it. -/
def LoadsBytes (inos : List Nat) (ino index : Nat) (sfs : SfsFs) (sin : SfsInode)
    (result : Except Errno Nat) (after : SfsFs) : Prop :=
  blockBytes after ino = blockBytes sfs ino ∧ ∃ sin', BlocksAdded inos sfs ino sin after sin' ∧
    match result with
    | .ok block => slotAt after ino index = block ∧ block ≠ 0
    | .error ret => ret = .noMem

theorem FilledFile.load_bytes (file : FilledFile sfs ino sin) (consistent : Consistent sfs inos) :
    Ensures True (sfsBmapLoadNolock ino index) sfs (LoadsBytes inos ino index sfs sin) := by
  by_cases beyond : sin.din.blocks < index
  · exact ensures_of_stop (run_load_beyond file.loaded beyond) trivial
  have reached : index ≤ sin.din.blocks := Nat.not_lt.mp beyond
  have din := dinOf_loaded file.loaded
  have member := consistent.known ino sin file.loaded
  have placed := @ensures_bmapLoad sfs inos ino index sin consistent file.loaded
  have keeps : Ensures True (sfsBmapLoadNolock ino index) sfs fun _ after =>
      blockBytes after ino = blockBytes sfs ino := by
    by_cases atEnd : index = sin.din.blocks
    · have added := @FilledFile.load_keeps sfs inos ino sin file consistent
      rw [← atEnd] at added
      apply (added.both placed).weaken fun _ => trivial
      rintro result after ⟨kept, post⟩
      apply blockBytes_congr
      intro blocks
      cases result with
      | ok block => exact kept block rfl blocks
      | error ret =>
          have refused := post.2
          intro place _
          by_cases isIndex : place = index
          · subst isIndex
            rw [filledData, filledData, if_pos refused.still, if_pos refused.empty]
          · exact filledData_congr (refused.change.slots ino member place (Or.inr isIndex))
              (refused.change.data ino member place (Or.inr isIndex))
    · apply placed.weaken fun _ => trivial
      intro result after post
      cases result with
      | ok block =>
          rw [post.before (by rw [din]; omega)]
      | error ret =>
          have last := post.1
          rw [din] at last
          exact absurd last atEnd
  apply (keeps.both (file.load consistent reached)).weaken fun _ => trivial
  rintro result after ⟨same, _, sin', added, outcome⟩
  refine ⟨same, sin', added, ?_⟩
  cases result with
  | ok block => exact ⟨outcome.1, outcome.2.1⟩
  | error ret => exact outcome.1

/-- A block of the file is written. -/
theorem blockBytes_setBlock {bytes : Bytes} (consistent : Consistent sfs inos) (member : ino ∈ inos)
    (slot : slotAt sfs ino index = block) (nonzero : block ≠ 0) (position : Nat) :
    blockBytes (sfs.setBlock block bytes) ino position =
      if position / sfsBlksize = index then bytes (position % sfsBlksize)
      else blockBytes sfs ino position := by
  have held : target sfs inos (.slot ino index) = some block := by
    rw [← slot]
    exact target_of_slot member (by rwa [slot])
  have unread := consistent.unread_of_slot held
  by_cases here : position / sfsBlksize = index
  · rw [if_pos here, blockBytes, here, filledData, unread.slotAt member, slot, if_neg nonzero]
    exact congrFun (Function.update_self block bytes sfs.disk) _
  · rw [if_neg here]
    have kept : filledData (sfs.setBlock block bytes) ino (position / sfsBlksize) =
        filledData sfs ino (position / sfsBlksize) := by
      apply filledData_congr (unread.slotAt member)
      intro filled
      apply Function.update_of_ne
      intro same
      have holder : target sfs inos (.slot ino (position / sfsBlksize)) = some block := by
        rw [← same]
        exact target_of_slot member filled
      have twice := consistent.exact.once _ _ _ holder held
      exact here (Reference.slot.inj twice).2
    exact congrFun kept _

/-! ## The parts of a transfer -/

/-- A transfer that has come as far as `done` bytes. -/
structure MovedUpTo (inos : List Nat) (sfs : SfsFs) (ino : Nat) (sin : SfsInode) (write : Bool)
    (offset : Nat) (buf : Bytes) (done : Nat) (now : Bytes) (after : SfsFs) : Prop where
  file : ∃ sin', BlocksAdded inos sfs ino sin after sin'
  stored : blockBytes after ino =
    if write = true then (blockBytes sfs ino).overlay offset done buf else blockBytes sfs ino
  buffer : now = if write = true then buf else
    buf.overlay 0 done ((blockBytes sfs ino).drop offset)

section Parts

variable {write : Bool} {offset done size blkno blkoff : Nat} {buf now : Bytes}

theorem MovedUpTo.start (consistent : Consistent sfs inos) (file : FilledFile sfs ino sin) :
    MovedUpTo inos sfs ino sin write offset buf 0 buf sfs := by
  refine ⟨⟨sin, BlocksAdded.refl consistent file⟩, ?_, ?_⟩ <;>
  · cases write with
    | true => simp only [if_true, Bytes.overlay_nothing]
    | false => simp only [Bool.false_eq_true, if_false, Bytes.overlay_nothing]

/-- The block of a part is loaded. -/
theorem MovedUpTo.load (upTo : MovedUpTo inos sfs ino sin write offset buf done now after) :
    Ensures True (sfsBmapLoadNolock ino blkno) after fun result middle =>
      MovedUpTo inos sfs ino sin write offset buf done now middle ∧
        match result with
        | .ok block => OnDevice middle ∧ Addressable middle block ∧ Consistent middle inos ∧
            ino ∈ inos ∧ slotAt middle ino blkno = block ∧ block ≠ 0
        | .error ret => ret = .noMem := by
  obtain ⟨sin', added⟩ := upTo.file
  apply (added.file.load_bytes added.consistent).weaken fun _ => trivial
  rintro result middle ⟨same, sin'', loaded, outcome⟩
  refine ⟨⟨⟨sin'', added.trans loaded⟩, same.trans upTo.stored, upTo.buffer⟩, ?_⟩
  cases result with
  | ok block =>
      obtain ⟨slot, nonzero⟩ := outcome
      have member := loaded.consistent.known ino sin'' loaded.file.loaded
      have addressable : Addressable middle block := by
        rw [← slot]
        exact loaded.consistent.addressable_slot member (by rwa [slot])
      exact ⟨loaded.consistent.device, addressable, loaded.consistent, member, slot, nonzero⟩
  | error ret => exact outcome

/-- The bytes of a part are written to its block. -/
theorem MovedUpTo.stores {bytes : Bytes}
    (upTo : MovedUpTo inos sfs ino sin true offset buf done now after)
    (consistent : Consistent after inos) (member : ino ∈ inos)
    (slot : slotAt after ino blkno = block) (nonzero : block ≠ 0)
    (place : offset + done = blkno * sfsBlksize + blkoff) (inside : blkoff + size ≤ sfsBlksize)
    (written : ∀ position, position < sfsBlksize → bytes position =
      if blkoff ≤ position ∧ position < blkoff + size then buf (done + (position - blkoff))
      else after.disk block position) :
    MovedUpTo inos sfs ino sin true offset buf (done + size) now (after.setBlock block bytes) := by
  obtain ⟨sin', added⟩ := upTo.file
  refine ⟨⟨sin', added.setBlock slot nonzero⟩, ?_, upTo.buffer⟩
  have stored := upTo.stored
  rw [if_pos rfl] at stored ⊢
  funext position
  have inBlock := Nat.mod_lt position (show 0 < sfsBlksize by decide)
  have split := Nat.div_add_mod position sfsBlksize
  have commuted := Nat.mul_comm sfsBlksize (position / sfsBlksize)
  rw [blockBytes_setBlock consistent member slot nonzero]
  by_cases same : position / sfsBlksize = blkno
  · have sameStart : position / sfsBlksize * sfsBlksize = blkno * sfsBlksize := by rw [same]
    rw [if_pos same, written _ inBlock]
    by_cases replaced : blkoff ≤ position % sfsBlksize ∧ position % sfsBlksize < blkoff + size
    · rw [if_pos replaced, Bytes.overlay_inside (by omega) (by omega)]
      congr 1
      omega
    · have was := congrFun stored position
      rw [blockBytes, same, filledData, slot, if_neg nonzero] at was
      rw [if_neg replaced, overlay_more (by omega), was]
  · have outside : position < offset + done ∨ offset + done + size ≤ position := by
      by_contra within
      apply same
      have sameBlock := @place_of_byte blkno (position - blkno * sfsBlksize) (by omega)
      have whole : blkno * sfsBlksize + (position - blkno * sfsBlksize) = position := by omega
      rw [whole] at sameBlock
      exact sameBlock.1
    rw [if_neg same, overlay_more outside, stored]

/-- The bytes of a part are read from its block. -/
theorem MovedUpTo.reads {bytes : Bytes}
    (upTo : MovedUpTo inos sfs ino sin false offset buf done now after)
    (slot : slotAt after ino blkno = block) (nonzero : block ≠ 0)
    (place : offset + done = blkno * sfsBlksize + blkoff) (inside : blkoff + size ≤ sfsBlksize)
    (read : ∀ position, position < size → bytes position = after.disk block (blkoff + position)) :
    MovedUpTo inos sfs ino sin false offset buf (done + size) (now.overlay done size bytes)
      after := by
  refine ⟨upTo.file, upTo.stored, ?_⟩
  have stored := upTo.stored
  have buffer := upTo.buffer
  simp only [Bool.false_eq_true, if_false] at stored buffer ⊢
  have more := @Bytes.overlay_append buf ((blockBytes sfs ino).drop offset) 0 done size bytes
  rw [Nat.zero_add] at more
  rw [buffer, more]
  funext position
  by_cases low : position < done + size
  · rw [Bytes.overlay_inside (Nat.zero_le _) (by omega),
      Bytes.overlay_inside (Nat.zero_le _) (by omega), Bytes.append, Nat.sub_zero]
    by_cases first : position < done
    · rw [if_pos first]
    · have here := @place_of_byte blkno (blkoff + (position - done)) (by omega)
      have start : blkno * sfsBlksize + (blkoff + (position - done)) = offset + position := by omega
      rw [start] at here
      rw [if_neg first, read _ (by omega), Bytes.drop, ← stored, blockBytes, here.1, here.2,
        filledData, slot, if_neg nonzero]
  · rw [Bytes.overlay_outside (Or.inr (by omega)), Bytes.overlay_outside (Or.inr (by omega))]

theorem moveRules {endpos : Nat} :
    PartRules ino offset endpos write (fun _ _ => True) True
      (MovedUpTo inos sfs ino sin write offset buf) where
  piece after done blkno blkoff size now upTo place positive inside _ := by
    have inBlock : blkoff < sfsBlksize ∧ blkoff + size ≤ sfsBlksize := ⟨by omega, inside⟩
    apply ensures_bind upTo.load
    · rintro block middle ⟨loaded, device, addressable, consistent, member, slot, nonzero⟩
      cases write with
      | true =>
          apply ensures_bind_run (run_wbuf device addressable inBlock _)
          refine ensures_pure ⟨rfl, rfl, loaded.stores consistent member slot nonzero place inside ?_⟩
          intro position _
          rw [loaded.buffer, if_pos rfl]
          rfl
      | false =>
          apply ensures_bind_run (run_rbuf device addressable inBlock)
          exact ensures_pure ⟨rfl, rfl, loaded.reads slot nonzero place inside fun _ _ => rfl⟩
    · rintro ret middle ⟨loaded, noMem⟩
      exact ⟨noMem, trivial, loaded⟩
  whole after done blkno now upTo place _ := by
    have atStart : offset + done = blkno * sfsBlksize + 0 := by omega
    have inside : 0 + sfsBlksize ≤ sfsBlksize := by omega
    apply ensures_bind upTo.load
    · rintro block middle ⟨loaded, device, addressable, consistent, member, slot, nonzero⟩
      cases write with
      | true =>
          apply ensures_bind_run (run_wblock device addressable _)
          refine ensures_pure ⟨rfl, rfl,
            loaded.stores consistent member slot nonzero atStart inside ?_⟩
          intro position inBlock
          rw [if_pos ⟨Nat.zero_le _, by omega⟩, loaded.buffer, if_pos rfl, Nat.sub_zero]
          rfl
      | false =>
          apply ensures_bind_run (run_rblock device addressable _ _)
          refine ensures_pure ⟨rfl, rfl, loaded.reads slot nonzero atStart inside ?_⟩
          intro position _
          rw [Nat.zero_add]
    · rintro ret middle ⟨loaded, noMem⟩
      exact ⟨noMem, trivial, loaded⟩

end Parts

/-! ## The whole transfer -/

/-- A call that moved `alen` bytes. What it wrote are the first bytes of its buffer, and what it
read are bytes of the file. -/
structure BytesMoved (inos : List Nat) (sfs : SfsFs) (ino : Nat) (sin : SfsInode) (write : Bool)
    (offset : Int) (buf : Bytes) (alen : Nat) (now : Bytes) (after : SfsFs) (sin' : SfsInode) :
    Prop where
  consistent : Consistent after inos
  others : OthersKept inos ino sfs after
  file : FilledFile after ino sin'
  range : 0 < alen → 0 ≤ offset ∧ offset + alen ≤ sfsMaxFileSize ∧
    offset + alen ≤ (if write = true then sin' else sin).din.size
  grows : sin.din.size ≤ sin'.din.size
  size : write = false → sin'.din.size = sin.din.size
  stored : blockBytes after ino = if write = true then
    (blockBytes sfs ino).overlay offset.toNat alen buf else blockBytes sfs ino
  buffer : now = if write = true then buf else
    buf.overlay 0 alen ((blockBytes sfs ino).drop offset.toNat)

/-- Nothing was moved. -/
theorem FilledFile.unmoved {write : Bool} {offset : Int} {buf : Bytes} (file : FilledFile sfs ino sin)
    (consistent : Consistent sfs inos) :
    BytesMoved inos sfs ino sin write offset buf 0 buf sfs sin := by
  have start := @MovedUpTo.start sfs inos ino sin write offset.toNat buf consistent file
  exact ⟨consistent, OthersKept.refl, file, nofun, le_rfl, fun _ => rfl, start.stored,
    start.buffer⟩

/-- The result of a call, and what it moved. -/
def CallMoves (inos : List Nat) (sfs : SfsFs) (ino : Nat) (sin : SfsInode) (write : Bool)
    (offset : Int) (buf : Bytes) (result : Except Errno (Option Errno × Nat × Bytes))
    (after : SfsFs) : Prop :=
  ∃ ret alen now sin', result = .ok (ret, alen, now) ∧
    BytesMoved inos sfs ino sin write offset buf alen now after sin'

/-- The size is set where the transfer passed it. -/
theorem MovedUpTo.finish {write : Bool} {offset done endpos : Nat} {buf now : Bytes}
    {ret : Option Errno} (upTo : MovedUpTo inos sfs ino sin write offset buf done now after)
    (reached : offset + done ≤ endpos) (limit : endpos ≤ sfsMaxFileSize)
    (short : write = false → endpos ≤ sin.din.size) :
    Ensures True (do
      let sin ← getSin ino
      if offset + done > sin.din.size then do
        updateDin ino fun din => { din with size := offset + done }
        setDirty ino true
        pure (ret, done, now)
      else pure (ret, done, now) : SfsM (Option Errno × Nat × Bytes)) after
      (CallMoves inos sfs ino sin write offset buf) := by
  obtain ⟨sin', added⟩ := upTo.file
  have loaded := added.file.loaded
  have size := added.size
  have stored := upTo.stored
  have buffer := upTo.buffer
  apply ensures_bind_run (run_getSin loaded)
  by_cases grown : offset + done > sin'.din.size
  · have isWrite : write = true := by
      cases write with
      | true => rfl
      | false =>
          have inFile := short rfl
          omega
    subst isWrite
    let sin'' : SfsInode :=
      { sin' with din := { sin'.din with size := offset + done }, dirty := true }
    have pointers : SamePointers sin''.din sin'.din := ⟨fun _ _ => rfl, rfl⟩
    rw [if_pos grown]
    apply ensures_bind_run (run_updateDin loaded)
    apply ensures_bind_run (run_setDirty setInode_self)
    rw [setInode_setInode]
    have same : blockBytes (after.setInode ino sin'') ino = blockBytes after ino :=
      blockBytes_congr fun blocks =>
        KeepsData.setInode (fun _ _ => rfl) loaded pointers
    refine ensures_pure ⟨ret, done, now, sin'', rfl, ?_, ?_, ?_, ?_, ?_, nofun, ?_, buffer⟩
    · exact added.consistent.setHeader loaded pointers nofun
    · exact added.others.trans (OthersKept.setInode loaded pointers)
    · refine ⟨setInode_self, added.file.type, fun index low inMap => ?_⟩
      rw [slotAt_setInode loaded pointers]
      exact added.file.filled index low inMap
    · intro _
      have bound : offset + done ≤ sfsMaxFileSize := by omega
      refine ⟨by omega, by omega, ?_⟩
      show ((offset : Int) + done) ≤ ((offset + done : Nat) : Int)
      omega
    · show sin.din.size ≤ offset + done
      omega
    · rw [same, stored, Int.toNat_natCast]
  · rw [if_neg grown]
    refine ensures_pure ⟨ret, done, now, sin', rfl, added.consistent, added.others, added.file, ?_,
      Nat.le_of_eq size.symm, fun _ => size, ?_, ?_⟩
    · intro _
      refine ⟨by omega, by omega, ?_⟩
      cases write with
      | true =>
          rw [if_pos rfl]
          omega
      | false =>
          rw [if_neg Bool.false_ne_true]
          omega
    · rw [stored, Int.toNat_natCast]
    · rw [buffer, Int.toNat_natCast]

/-- A read delivers the bytes of the file from `offset` on, and a write replaces them, in both cases
as many as the call says. Nothing else changes. -/
theorem FilledFile.io_bytes {offset : Int} {length : Nat} {buf : Bytes} {write : Bool}
    (file : FilledFile sfs ino sin) (consistent : Consistent sfs inos) :
    Ensures True (sfsIoNolock ino buf offset length write) sfs
      (CallMoves inos sfs ino sin write offset buf) := by
  have nothing : ∀ ret, CallMoves inos sfs ino sin write offset buf (.ok (ret, 0, buf)) sfs :=
    fun ret => ⟨ret, 0, buf, sin, rfl, file.unmoved consistent⟩
  have notDir : sin.din.type ≠ sfsTypeDir := by
    rw [file.type]
    decide
  unfold sfsIoNolock
  apply ensures_bind_run (run_getSin file.loaded)
  apply ensures_bind_run (run_assert sfs notDir)
  simp only []
  by_cases invalid : offset < 0 ∨ offset ≥ sfsMaxFileSize ∨ offset > wrap64 (offset + length)
  · rw [if_pos invalid]
    exact ensures_pure (nothing _)
  rw [if_neg invalid]
  by_cases empty : offset = wrap64 (offset + length)
  · rw [if_pos empty]
    exact ensures_pure (nothing _)
  rw [if_neg empty]
  by_cases outside : write = false ∧ offset.toNat ≥ sin.din.size
  · rw [if_pos outside]
    exact ensures_pure (nothing _)
  rw [if_neg outside]
  have transfers : Transfers sin offset length write := by
    refine ⟨by omega, by omega, by omega, fun isRead => ?_⟩
    have low : ¬ offset.toNat ≥ sin.din.size := fun high => outside ⟨isRead, high⟩
    omega
  have proper := transfers.lt_lastByte
  have limit : lastByte sin offset length write ≤ sfsMaxFileSize := by
    simp only [lastByte]
    split_ifs <;> omega
  have short : write = false → lastByte sin offset length write ≤ sin.din.size := by
    rintro rfl
    unfold lastByte
    simp only [true_and]
    split_ifs <;> omega
  have parts := @ensures_ioParts ino offset.toNat (lastByte sin offset length write) write _ _ _ sfs
    moveRules buf (MovedUpTo.start consistent file) proper
  have whole : (offset.toNat : Int) = offset := Int.toNat_of_nonneg transfers.1
  apply ensures_bind parts
  · rintro ⟨outcome, moved⟩ middle ⟨upTo, finished⟩
    have reached : offset.toNat + moved.alen ≤ lastByte sin offset length write := by
      rcases finished with ⟨_, atEnd⟩ | ⟨_, _, before⟩ <;> omega
    have finish := @MovedUpTo.finish sfs middle inos ino sin write offset.toNat moved.alen _ buf
      moved.buf outcome upTo reached limit short
    rwa [whole] at finish
  · exact fun _ _ impossible => impossible.elim

/-! ## Transfers at the end of a file -/

section End

variable {offset : Int} {length : Nat} {buf : Bytes}

/-- A read at the end of a file finds nothing. -/
theorem ensures_read_end (loaded : sfs.inodes ino = some sin) (atEnd : offset = sin.din.size) :
    Ensures True (sfsIoNolock ino buf offset length false) sfs fun result after =>
      after = sfs ∧ ∀ ret alen now, result = .ok (ret, alen, now) → alen = 0 := by
  unfold sfsIoNolock
  apply ensures_bind_run (run_getSin loaded)
  apply ensures_require (fun _ => ?_) fun _ => trivial
  simp only []
  have nothing : ∀ ret : Option Errno, Ensures True
      (pure (ret, 0, buf) : SfsM (Option Errno × Nat × Bytes)) sfs fun result after =>
        after = sfs ∧ ∀ ret alen now, result = .ok (ret, alen, now) → alen = 0 :=
    fun ret => ensures_pure ⟨rfl, by rintro _ _ _ ⟨⟩; rfl⟩
  by_cases invalid : offset < 0 ∨ offset ≥ sfsMaxFileSize ∨ offset > wrap64 (offset + length)
  · rw [if_pos invalid]
    exact nothing _
  rw [if_neg invalid]
  by_cases empty : offset = wrap64 (offset + length)
  · rw [if_pos empty]
    exact nothing _
  rw [if_neg empty, if_pos ⟨trivial, by omega⟩]
  exact nothing _

/-- The size of a file that was `size` bytes long, behind `done` bytes more. -/
def Grown (ino size done : Nat) (after : SfsFs) : Prop :=
  ∃ sin', after.inodes ino = some sin' ∧ sin'.din.size = size + done ∧
    (0 < done → size + done ≤ sfsMaxFileSize)

theorem SameViews.grown (same : SameViews sizeView sfs after) (loaded : sfs.inodes ino = some sin) :
    Grown ino sin.din.size 0 after := by
  have kept := same ino
  rw [loaded, Option.map_some] at kept
  obtain ⟨sin', found, size⟩ := Option.map_eq_some_iff.mp kept
  exact ⟨sin', found, size, nofun⟩

/-- A write at the end of a file makes it as much longer as it moves. -/
theorem ensures_write_end (loaded : sfs.inodes ino = some sin) (atEnd : offset = sin.din.size) :
    Ensures True (sfsIoNolock ino buf offset length true) sfs fun result after =>
      match result with
      | .ok (_, alen, _) => Grown ino sin.din.size alen after
      | .error _ => Grown ino sin.din.size 0 after := by
  have still : Grown ino sin.din.size 0 sfs := (SameViews.refl sfs).grown loaded
  unfold sfsIoNolock
  apply ensures_bind_run (run_getSin loaded)
  apply ensures_require (fun _ => ?_) fun _ => trivial
  simp only []
  by_cases invalid : offset < 0 ∨ offset ≥ sfsMaxFileSize ∨ offset > wrap64 (offset + length)
  · rw [if_pos invalid]
    exact ensures_pure still
  rw [if_neg invalid]
  by_cases empty : offset = wrap64 (offset + length)
  · rw [if_pos empty]
    exact ensures_pure still
  have isWrite : ∀ P : Prop, ¬ ((true : Bool) = false ∧ P) := fun _ both => nomatch both.1
  rw [if_neg empty, if_neg (isWrite _), if_neg (isWrite _)]
  generalize isEnd : (if wrap64 (offset + length) > sfsMaxFileSize then sfsMaxFileSize
    else (wrap64 (offset + length)).toNat) = endpos
  have limits : offset.toNat ≤ endpos ∧ endpos ≤ sfsMaxFileSize := by
    rw [← isEnd]
    split_ifs <;> omega
  have parts := (@KeepsViews.moveParts _ sizeView _ ino true offset.toNat endpos buf sfs).both
    (@answers_ioParts ino offset.toNat endpos true buf limits.1).ensures
  apply ensures_bind (parts.weaken (fun _ => trivial) fun _ _ post => post)
  · rintro ⟨outcome, moved⟩ middle ⟨same, bounded⟩
    have short : offset.toNat + moved.alen ≤ endpos := bounded _ rfl
    obtain ⟨sin', found, size, _⟩ := same.grown loaded
    dsimp only
    apply ensures_bind_run (run_getSin found)
    by_cases grown : offset.toNat + moved.alen > sin'.din.size
    · rw [if_pos grown]
      apply ensures_bind_run (run_updateDin found)
      apply ensures_bind_run (run_setDirty setInode_self)
      rw [setInode_setInode]
      refine ensures_pure ⟨_, setInode_self, ?_, fun _ => by omega⟩
      show offset.toNat + moved.alen = _
      omega
    · rw [if_neg grown]
      exact ensures_pure ⟨sin', found, by omega, fun _ => by omega⟩
  · rintro errno middle ⟨same, _⟩
    exact same.grown loaded

/-- A seek behind the end of a file enlarges it up to there; one that fails keeps the size. -/
theorem ensures_tryseek_end {pos : Int} (loaded : sfs.inodes ino = some sin)
    (beyond : (sin.din.size : Int) ≤ pos) :
    Ensures True (sfsTryseek ino pos) sfs fun result after =>
      match result with
      | .ok () => ∃ sin', after.inodes ino = some sin' ∧ (sin'.din.size : Int) = pos
      | .error _ => Grown ino sin.din.size 0 after := by
  have still : Grown ino sin.din.size 0 sfs := (SameViews.refl sfs).grown loaded
  unfold sfsTryseek
  by_cases invalid : pos < 0 ∨ pos ≥ sfsMaxFileSize
  · rw [if_pos invalid]
    exact ensures_fail still
  rw [if_neg invalid]
  apply ensures_bind_run (run_getSin loaded)
  by_cases further : pos > sin.din.size
  · rw [if_pos further]
    unfold vopTruncate
    apply ensures_bind_run (run_getSin loaded)
    apply ensures_require (fun _ => ?_) fun _ => trivial
    unfold sfsTruncfile
    rw [if_neg (by omega)]
    apply ensures_bind_run (run_getSin loaded)
    rw [if_neg (by omega)]
    have finish : ∀ middle, SameViews sizeView sfs middle → Ensures True (do
        let sin ← getSin ino
        assert (sin.din.blocks = (pos.toNat + (sfsBlksize - 1)) / sfsBlksize)
        updateDin ino fun din => { din with size := pos.toNat }
        setDirty ino true : SfsM Unit) middle fun result after =>
        match result with
        | .ok () => ∃ sin', after.inodes ino = some sin' ∧ (sin'.din.size : Int) = pos
        | .error _ => Grown ino sin.din.size 0 after := by
      intro middle same
      obtain ⟨sin', found, _⟩ := same.grown loaded
      apply ensures_bind_run (run_getSin found)
      apply ensures_require (fun _ => ?_) fun _ => trivial
      apply ensures_of_run
      · rw [run_bind (run_updateDin found), run_setDirty setInode_self, setInode_setInode]
      · refine ⟨_, setInode_self, ?_⟩
        show ((pos.toNat : Nat) : Int) = pos
        omega
    by_cases longer : sin.din.blocks < (pos.toNat + (sfsBlksize - 1)) / sfsBlksize
    · rw [if_pos longer]
      exact ensures_bind (KeepsViews.grow ino _ _ sfs) (fun _ middle same => finish middle same)
        fun _ _ same => same.grown loaded
    · rw [if_neg longer]
      exact ensures_bind (KeepsViews.shrink ino _ sfs) (fun _ middle same => finish middle same)
        fun _ _ same => same.grown loaded
  · rw [if_neg further]
    exact ensures_pure ⟨sin, loaded, by omega⟩

end End

end UCore.Fs
