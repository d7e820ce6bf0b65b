import UCore.Fs.SfsFreemap

/-!
Contract: what a file contains, and what reading and writing do to it.

Owns:
- the induction over the parts of a transfer, for any invariant of one part;
- the bytes of a file;
- reading delivers them, and writing replaces them.

Does not own: the block map, which has its own specifications.
-/

set_option autoImplicit false

namespace UCore.Fs

open UCore.Lib UCore.Lib.Program

/-! ## The parts of a transfer -/

section Parts

variable {ino offset endpos : Nat} {write : Bool} {refused : Nat → SfsFs → Prop}
  {mayStop : Prop} {inv : Nat → Bytes → SfsFs → Prop}

/-- One part was transferred, or no block was left for it. -/
def PartDone (refused : Nat → SfsFs → Prop) (inv : Nat → Bytes → SfsFs → Prop)
    (done size blkno : Nat) (buf : Bytes) : Except Errno Transfer → SfsFs → Prop
  | .ok moved, after =>
      moved.alen = done + size ∧ moved.blkno = blkno ∧ inv (done + size) moved.buf after
  | .error ret, after => ret = .noMem ∧ refused done after ∧ inv done buf after

/-- Both ways of transferring a part keep `inv`, which says how far the transfer is. `refused` is
known where no block was left for a part. -/
structure PartRules (ino offset endpos : Nat) (write : Bool) (refused : Nat → SfsFs → Prop)
    (mayStop : Prop) (inv : Nat → Bytes → SfsFs → Prop) : Prop where
  piece : ∀ sfs done blkno blkoff size buf, inv done buf sfs →
    offset + done = blkno * sfsBlksize + blkoff → 0 < size → blkoff + size ≤ sfsBlksize →
    offset + done + size ≤ endpos →
    Ensures mayStop (ioBuf ino write size blkoff ⟨done, blkno, buf⟩) sfs
      (PartDone refused inv done size blkno buf)
  whole : ∀ sfs done blkno buf, inv done buf sfs → offset + done = blkno * sfsBlksize →
    offset + done + sfsBlksize ≤ endpos →
    Ensures mayStop (ioBlock ino write ⟨done, blkno, buf⟩) sfs
      (PartDone refused inv done sfsBlksize (blkno + 1) buf)

/-- The transfer reached its end, or the disk is full. -/
def Transferred (refused : Nat → SfsFs → Prop) (inv : Nat → Bytes → SfsFs → Prop)
    (offset endpos : Nat) :
    Except Errno (Option Errno × Transfer) → SfsFs → Prop
  | .ok (outcome, moved), after => inv moved.alen moved.buf after ∧
      ((outcome = none ∧ offset + moved.alen = endpos) ∨
        (outcome = some .noMem ∧ refused moved.alen after ∧ offset + moved.alen < endpos))
  | .error _, _ => False

/-- The whole blocks are done, or the disk is full. -/
def BlocksDone (refused : Nat → SfsFs → Prop) (inv : Nat → Bytes → SfsFs → Prop)
    (offset endpos blkno : Nat) :
    Except Errno (Option Errno × Transfer) → SfsFs → Prop
  | .ok (outcome, moved), after => inv moved.alen moved.buf after ∧
      ((outcome = none ∧ moved.blkno = blkno ∧ offset + moved.alen = blkno * sfsBlksize) ∨
        (outcome = some .noMem ∧ refused moved.alen after ∧ offset + moved.alen < endpos))
  | .error _, _ => False

variable {sfs : SfsFs} (rules : PartRules ino offset endpos write refused mayStop inv)
include rules

theorem ensures_ioBlocks {nblks : Nat} {transfer : Transfer}
    (start : inv transfer.alen transfer.buf sfs)
    (aligned : offset + transfer.alen = transfer.blkno * sfsBlksize)
    (room : (transfer.blkno + nblks) * sfsBlksize ≤ endpos) :
    Ensures mayStop (ioBlocks ino write nblks transfer) sfs
      (BlocksDone refused inv offset endpos (transfer.blkno + nblks)) := by
  have positive : 0 < sfsBlksize := by decide
  induction nblks generalizing transfer sfs with
  | zero => exact ensures_pure ⟨start, Or.inl ⟨rfl, rfl, aligned⟩⟩
  | succ nblks inductionHypothesis =>
      have more : (transfer.blkno + (nblks + 1)) * sfsBlksize =
          transfer.blkno * sfsBlksize + nblks * sfsBlksize + sfsBlksize := by ring
      have one := rules.whole sfs transfer.alen transfer.blkno transfer.buf start aligned (by omega)
      apply ensures_bind_attempt one
      intro result after part
      cases result with
      | error ret =>
          obtain ⟨rfl, fails, kept⟩ := part
          exact ensures_pure ⟨kept, Or.inr ⟨rfl, fails, by omega⟩⟩
      | ok moved =>
          obtain ⟨alen, blkno, kept⟩ := part
          have next : (transfer.blkno + 1) * sfsBlksize =
              transfer.blkno * sfsBlksize + sfsBlksize := by ring
          have shift : transfer.blkno + (nblks + 1) = moved.blkno + nblks := by omega
          rw [shift] at room ⊢
          apply inductionHypothesis
          · rwa [alen]
          · rw [alen, blkno, next]
            omega
          · exact room

theorem ensures_ioAligned {nblks : Nat} {transfer : Transfer}
    (start : inv transfer.alen transfer.buf sfs)
    (aligned : offset + transfer.alen = transfer.blkno * sfsBlksize)
    (last : transfer.blkno + nblks = endpos / sfsBlksize) :
    Ensures mayStop (ioAligned ino write offset endpos nblks transfer) sfs
      (Transferred refused inv offset endpos) := by
  have split := Nat.div_add_mod endpos sfsBlksize
  have tail := Nat.mod_lt endpos (show 0 < sfsBlksize by decide)
  have commuted := Nat.mul_comm sfsBlksize (endpos / sfsBlksize)
  apply ensures_bind (ensures_ioBlocks rules start aligned (by rw [last]; omega))
  · rintro ⟨outcome, moved⟩ after ⟨kept, finished⟩
    rcases finished with ⟨rfl, blkno, reached⟩ | ⟨rfl, short⟩
    · rw [last] at blkno reached
      by_cases rest : endpos - (offset + moved.alen) > 0
      · simp only [if_pos rest]
        have piece := rules.piece after moved.alen moved.blkno 0
          (endpos - (offset + moved.alen)) moved.buf kept (by rw [blkno]; omega) rest (by omega)
          (by omega)
        apply ensures_bind_attempt piece
        intro result after' part
        cases result with
        | error ret =>
            obtain ⟨rfl, fails, kept'⟩ := part
            exact ensures_pure ⟨kept', Or.inr ⟨rfl, fails, by omega⟩⟩
        | ok finished =>
            obtain ⟨alen, _, kept'⟩ := part
            refine ensures_pure ⟨by rwa [alen], Or.inl ⟨rfl, ?_⟩⟩
            rw [alen]
            omega
      · simp only [if_neg rest]
        exact ensures_pure ⟨kept, Or.inl ⟨rfl, by omega⟩⟩
    · exact ensures_pure ⟨kept, Or.inr ⟨rfl, short⟩⟩
  · exact fun _ _ impossible => impossible

theorem ensures_ioParts {buf : Bytes} (start : inv 0 buf sfs) (proper : offset < endpos) :
    Ensures mayStop (ioParts ino write offset endpos buf) sfs
      (Transferred refused inv offset endpos) := by
  have splitStart := Nat.div_add_mod offset sfsBlksize
  have splitEnd := Nat.div_add_mod endpos sfsBlksize
  have startTail := Nat.mod_lt offset (show 0 < sfsBlksize by decide)
  have endTail := Nat.mod_lt endpos (show 0 < sfsBlksize by decide)
  have commutedStart := Nat.mul_comm sfsBlksize (offset / sfsBlksize)
  have commutedEnd := Nat.mul_comm sfsBlksize (endpos / sfsBlksize)
  have monotone : offset / sfsBlksize ≤ endpos / sfsBlksize := Nat.div_le_div_right (by omega)
  unfold ioParts
  simp only []
  by_cases unaligned : offset % sfsBlksize ≠ 0
  · rw [if_pos unaligned]
    by_cases more : endpos / sfsBlksize - offset / sfsBlksize ≠ 0
    · have next : (offset / sfsBlksize + 1) * sfsBlksize =
          offset / sfsBlksize * sfsBlksize + sfsBlksize := by ring
      have reach : (offset / sfsBlksize + 1) * sfsBlksize ≤ endpos / sfsBlksize * sfsBlksize :=
        Nat.mul_le_mul_right _ (by omega)
      have piece := rules.piece sfs 0 (offset / sfsBlksize) (offset % sfsBlksize)
        (sfsBlksize - offset % sfsBlksize) buf start (by omega) (by omega) (by omega) (by omega)
      rw [if_pos more]
      apply ensures_bind_attempt piece
      intro result after part
      cases result with
      | error ret =>
          obtain ⟨rfl, fails, kept⟩ := part
          exact ensures_pure ⟨kept, Or.inr ⟨rfl, fails, by simpa using proper⟩⟩
      | ok moved =>
          obtain ⟨alen, _, kept⟩ := part
          simp only [if_neg more]
          apply ensures_ioAligned rules
          · exact alen ▸ kept
          · show offset + moved.alen = (offset / sfsBlksize + 1) * sfsBlksize
            rw [alen]
            omega
          · show offset / sfsBlksize + 1 + (endpos / sfsBlksize - offset / sfsBlksize - 1) = _
            omega
    · have same : endpos / sfsBlksize = offset / sfsBlksize := by omega
      have sameStart : endpos / sfsBlksize * sfsBlksize = offset / sfsBlksize * sfsBlksize := by
        rw [same]
      have piece := rules.piece sfs 0 (offset / sfsBlksize) (offset % sfsBlksize)
        (endpos - offset) buf start (by omega) (by omega) (by omega) (by omega)
      rw [if_neg more]
      apply ensures_bind_attempt piece
      intro result after part
      cases result with
      | error ret =>
          obtain ⟨rfl, fails, kept⟩ := part
          exact ensures_pure ⟨kept, Or.inr ⟨rfl, fails, by simpa using proper⟩⟩
      | ok moved =>
          obtain ⟨alen, _, kept⟩ := part
          simp only [if_pos (not_not.mp more)]
          refine ensures_pure ⟨by rwa [alen], Or.inl ⟨rfl, ?_⟩⟩
          rw [alen]
          omega
  · rw [if_neg unaligned]
    apply ensures_ioAligned rules start
    · show offset + 0 = offset / sfsBlksize * sfsBlksize
      omega
    · show offset / sfsBlksize + (endpos / sfsBlksize - offset / sfsBlksize) = _
      omega

end Parts

/-! ## Files -/

variable {sfs after : SfsFs} {inos : List Nat} {ino : Nat} {sin : SfsInode}

/-- The bytes of a file, as the kernel finds them through its block map. -/
def contentAt (sfs : SfsFs) (ino : Nat) : Bytes := fun position =>
  sfs.disk (slotAt sfs ino (position / sfsBlksize)) (position % sfsBlksize)

/-- The number of blocks of a file. -/
def fileBlocks (size : Nat) : Nat := (size + (sfsBlksize - 1)) / sfsBlksize

/-- The bytes that the direct and the indirect blocks hold. -/
def mappedSize : Nat := slotCount * sfsBlksize

/-- A regular file in memory, whose blocks are all there. -/
structure RegularFile (sfs : SfsFs) (ino : Nat) (sin : SfsInode) : Prop where
  loaded : sfs.inodes ino = some sin
  type : sin.din.type = sfsTypeFile
  blocks : sin.din.blocks = fileBlocks sin.din.size
  filled : ∀ index, index < sin.din.blocks → index < slotCount → slotAt sfs ino index ≠ 0

theorem lt_fileBlocks {position size : Nat} (inside : position < size) :
    position / sfsBlksize < fileBlocks size := by
  unfold fileBlocks sfsBlksize
  omega

theorem lt_slotCount {position : Nat} (inside : position < mappedSize) :
    position / sfsBlksize < slotCount := by
  unfold mappedSize at inside
  exact Nat.div_lt_of_lt_mul (Nat.mul_comm _ _ ▸ inside)

/-- The place of a byte in its block. -/
theorem place_of_byte {blkno place : Nat} (inside : place < sfsBlksize) :
    (blkno * sfsBlksize + place) / sfsBlksize = blkno ∧
      (blkno * sfsBlksize + place) % sfsBlksize = place := by
  unfold sfsBlksize at *
  omega

/-! ## Reading -/

/-- A read that has come as far as `done` bytes. -/
def ReadUpTo (sfs : SfsFs) (ino offset : Nat) (buf : Bytes) (done : Nat) (now : Bytes)
    (after : SfsFs) : Prop :=
  after = sfs ∧ now = buf.overlay 0 done ((contentAt sfs ino).drop offset)

/-- One part of a read. -/
theorem readUpTo_more {offset done size blkno blkoff : Nat} {buf now : Bytes}
    (upTo : ReadUpTo sfs ino offset buf done now sfs)
    (place : offset + done = blkno * sfsBlksize + blkoff) (inside : blkoff + size ≤ sfsBlksize) :
    ReadUpTo sfs ino offset buf (done + size)
      (now.overlay done size ((sfs.disk (slotAt sfs ino blkno)).drop blkoff)) sfs := by
  refine ⟨rfl, ?_⟩
  funext position
  by_cases low : position < done
  · rw [Bytes.overlay_outside (Or.inl low), upTo.2, Bytes.overlay_inside (by omega) (by omega),
      Bytes.overlay_inside (by omega) (by omega)]
  · by_cases high : position < done + size
    · have inBlock := @place_of_byte blkno (blkoff + (position - done)) (by omega)
      have same : offset + position = blkno * sfsBlksize + (blkoff + (position - done)) := by omega
      rw [Bytes.overlay_inside (by omega) high, Bytes.overlay_inside (by omega) (by omega),
        Nat.sub_zero, Bytes.drop, Bytes.drop, contentAt, same, inBlock.1, inBlock.2]
    · rw [Bytes.overlay_outside (Or.inr (by omega)), upTo.2,
        Bytes.overlay_outside (Or.inr (by omega)), Bytes.overlay_outside (Or.inr (by omega))]

section Read

variable {offset endpos : Nat} {buf : Bytes} (consistent : Consistent sfs inos)
  (file : RegularFile sfs ino sin) (short : endpos ≤ sin.din.size) (mapped : endpos ≤ mappedSize)
include consistent file short mapped

/-- A block below the end of the file is found, and nothing changes. -/
theorem ensures_loadBefore {position : Nat} (inside : position < endpos) :
    Ensures False (sfsBmapLoadNolock ino (position / sfsBlksize)) sfs fun result after =>
      result = .ok (slotAt sfs ino (position / sfsBlksize)) ∧ after = sfs ∧
        Addressable sfs (slotAt sfs ino (position / sfsBlksize)) := by
  have din := dinOf_loaded file.loaded
  have isBefore : position / sfsBlksize < (dinOf sfs ino).blocks := by
    rw [din, file.blocks]
    exact lt_fileBlocks (by omega)
  have inMap : position / sfsBlksize < slotCount := lt_slotCount (by omega)
  have filled := file.filled _ (din ▸ isBefore) inMap
  have canLoad : CanLoad sfs ino (position / sfsBlksize) :=
    ⟨Nat.le_of_lt isBefore, inMap, fun _ => filled⟩
  apply (ensures_bmapLoad consistent file.loaded).weaken (fun cannot => cannot canLoad)
  intro result after post
  cases result with
  | error ret => exact absurd post.1 (Nat.ne_of_lt isBefore)
  | ok block =>
      have same := post.before isBefore
      have slot := post.slot
      rw [same] at slot
      refine ⟨by rw [slot], same, ?_⟩
      exact consistent.addressable_slot (consistent.known ino sin file.loaded) filled

theorem readRules : PartRules ino offset endpos false (fun _ _ => False) False (ReadUpTo sfs ino offset buf) where
  piece now done blkno blkoff size buffer upTo place positive inside room := by
    obtain ⟨rfl, _⟩ := id upTo
    have block : (offset + done) / sfsBlksize = blkno := by
      rw [place]
      exact (place_of_byte (by omega)).1
    have found := ensures_loadBefore consistent file short mapped
      (show offset + done < endpos by omega)
    rw [block] at found
    apply ensures_bind found
    · rintro _ after ⟨same, rfl, addressable⟩
      cases same
      have inBlock : blkoff < sfsBlksize ∧ blkoff + size ≤ sfsBlksize := ⟨by omega, inside⟩
      apply ensures_bind_run (run_rbuf consistent.device addressable inBlock)
      exact ensures_pure ⟨rfl, rfl, readUpTo_more upTo place inside⟩
    · rintro _ _ ⟨impossible, _⟩
      cases impossible
  whole now done blkno buffer upTo place room := by
    obtain ⟨rfl, _⟩ := id upTo
    have positive : 0 < sfsBlksize := by decide
    have block : (offset + done) / sfsBlksize = blkno := by
      rw [place]
      exact Nat.mul_div_cancel _ positive
    have found := ensures_loadBefore consistent file short mapped
      (show offset + done < endpos by omega)
    rw [block] at found
    apply ensures_bind found
    · rintro _ after ⟨same, rfl, addressable⟩
      cases same
      apply ensures_bind_run (run_rblock consistent.device addressable _ _)
      refine ensures_pure ⟨rfl, rfl, ?_⟩
      have atStart : offset + done = blkno * sfsBlksize + 0 := by omega
      have more := readUpTo_more upTo atStart (show 0 + sfsBlksize ≤ sfsBlksize by omega)
      have same : ((after.disk (slotAt after ino blkno)).drop 0) =
          after.disk (slotAt after ino blkno) := by
        funext position
        rw [Bytes.drop, Nat.zero_add]
      rwa [same] at more
    · rintro _ _ ⟨impossible, _⟩
      cases impossible

end Read

/-! ## Writing -/

/-- The other inodes, and the contents of their blocks, are the same. -/
structure OthersKept (inos : List Nat) (ino : Nat) (sfs after : SfsFs) : Prop where
  inodes : ∀ other, other ≠ ino → after.inodes other = sfs.inodes other
  header : ∀ other, other ∈ inos → other ≠ ino → SameHeader (dinOf after other) (dinOf sfs other)
  slots : ∀ other, other ∈ inos → other ≠ ino → ∀ index,
    slotAt after other index = slotAt sfs other index
  data : ∀ other, other ∈ inos → other ≠ ino → ∀ index, slotAt sfs other index ≠ 0 →
    after.disk (slotAt sfs other index) = sfs.disk (slotAt sfs other index)

theorem OthersKept.refl : OthersKept inos ino sfs sfs :=
  ⟨fun _ _ => rfl, fun _ _ _ => SameHeader.refl _, fun _ _ _ _ => rfl, fun _ _ _ _ _ => rfl⟩

theorem OthersKept.trans {middle : SfsFs} (first : OthersKept inos ino sfs middle)
    (second : OthersKept inos ino middle after) : OthersKept inos ino sfs after where
  inodes other apart := (second.inodes other apart).trans (first.inodes other apart)
  header other member apart := (second.header other member apart).trans (first.header other member apart)
  slots other member apart index :=
    (second.slots other member apart index).trans (first.slots other member apart index)
  data other member apart index nonzero := by
    have same := first.slots other member apart index
    have kept := second.data other member apart index (same ▸ nonzero)
    rw [same] at kept
    exact kept.trans (first.data other member apart index nonzero)

/-- An inode changes, its block map apart. -/
theorem OthersKept.setInode {sin' : SfsInode} (loaded : sfs.inodes ino = some sin)
    (pointers : SamePointers sin'.din sin.din) : OthersKept inos ino sfs (sfs.setInode ino sin') where
  inodes other apart := Function.update_of_ne apart _ _
  header other _ apart := by
    rw [dinOf_setInode_of_ne apart]
    exact SameHeader.refl _
  slots other _ _ index := slotAt_setInode loaded pointers
  data _ _ _ _ _ := rfl

/-- The bytes of the other files are the same. -/
theorem OthersKept.content (kept : OthersKept inos ino sfs after) {other position : Nat}
    (member : other ∈ inos) (apart : other ≠ ino)
    (mapped : slotAt sfs other (position / sfsBlksize) ≠ 0) :
    contentAt after other position = contentAt sfs other position := by
  unfold contentAt
  rw [kept.slots other member apart, kept.data other member apart _ mapped]

theorem Resized.othersKept {index blocks : Nat} (change : Resized inos ino index blocks sfs after) :
    OthersKept inos ino sfs after :=
  ⟨change.others, change.headers,
    fun other member apart place => change.slots other member place (Or.inl apart),
    fun other member apart place => change.data other member place (Or.inl apart)⟩

theorem OnlySlot.othersKept {index : Nat} (change : OnlySlot inos ino index sfs after) :
    OthersKept inos ino sfs after :=
  ⟨change.others, fun other member _ => change.header other member,
    fun other member apart place => change.slots other member place (Or.inl apart),
    fun other member apart place => change.data other member place (Or.inl apart)⟩

/-- A write that has come as far as `done` bytes. The size is only set at the end. -/
structure WrittenUpTo (inos : List Nat) (sfs : SfsFs) (ino : Nat) (sin : SfsInode) (offset : Nat)
    (buf : Bytes) (done : Nat) (now : Bytes) (after : SfsFs) : Prop where
  buffer : now = buf
  consistent : Consistent after inos
  loaded : (after.inodes ino).isSome = true
  type : (dinOf after ino).type = sin.din.type
  nlinks : (dinOf after ino).nlinks = sin.din.nlinks
  size : (dinOf after ino).size = sin.din.size
  blocks : (dinOf after ino).blocks = fileBlocks (max sin.din.size (offset + done))
  filled : ∀ index, index < fileBlocks (max sin.din.size (offset + done)) → index < slotCount →
    slotAt after ino index ≠ 0
  content : ∀ position, position < max sin.din.size (offset + done) → position < mappedSize →
    contentAt after ino position = (contentAt sfs ino).overlay offset done buf position
  others : OthersKept inos ino sfs after

/-- What a loaded block means for its file: the other slots are kept, and so is the block where
it was there before. -/
theorem BlockLoaded.ofFile {middle : SfsFs} {index block : Nat} (member : ino ∈ inos)
    (loaded : BlockLoaded inos ino index sfs block middle) :
    OthersKept inos ino sfs middle ∧ (middle.inodes ino).isSome = (sfs.inodes ino).isSome ∧
      SameHeader (dinOf middle ino)
        { dinOf sfs ino with blocks := max (dinOf sfs ino).blocks (index + 1) } ∧
      (∀ place, place ≠ index → slotAt middle ino place = slotAt sfs ino place ∧
        (slotAt sfs ino place ≠ 0 →
          middle.disk (slotAt sfs ino place) = sfs.disk (slotAt sfs ino place))) ∧
      (index < (dinOf sfs ino).blocks →
        slotAt sfs ino index = block ∧ middle.disk block = sfs.disk block) := by
  by_cases isBefore : index < (dinOf sfs ino).blocks
  · have same := loaded.before isBefore
    have slot := loaded.slot
    subst same
    have blocks : max (dinOf middle ino).blocks (index + 1) = (dinOf middle ino).blocks := by omega
    rw [blocks]
    exact ⟨OthersKept.refl, rfl, SameHeader.refl _, fun _ _ => ⟨rfl, fun _ => rfl⟩,
      fun _ => ⟨slot, rfl⟩⟩
  · have inside := loaded.inside
    have change := loaded.atEnd (by omega)
    have blocks : max (dinOf sfs ino).blocks (index + 1) = (dinOf sfs ino).blocks + 1 := by omega
    rw [blocks]
    exact ⟨change.othersKept, change.loaded, change.header,
      fun place apart => ⟨change.slots ino member place (Or.inr apart),
        change.data ino member place (Or.inr apart)⟩,
      fun isBefore' => absurd isBefore' isBefore⟩

section Piece

variable {offset done size blkno blkoff block : Nat} {buf bytes now : Bytes} {middle : SfsFs}

/-- The number of blocks after a part that starts inside the file or at its end. -/
theorem fileBlocks_part {fileSize : Nat} (place : offset + done = blkno * sfsBlksize + blkoff)
    (inside : blkoff + size ≤ sfsBlksize) (positive : 0 < size) (_ : offset + done ≤ fileSize) :
    fileBlocks (max fileSize (offset + (done + size))) = max (fileBlocks fileSize) (blkno + 1) := by
  unfold fileBlocks sfsBlksize at *
  omega

theorem OthersKept.setBlock (consistent : Consistent middle inos)
    (held : target middle inos (.slot ino blkno) = some block) :
    OthersKept inos ino middle (middle.setBlock block bytes) := by
  have unread := consistent.unread_of_slot held
  refine ⟨fun _ _ => rfl, ?_, ?_, ?_⟩
  · exact fun other member _ => SameHeader.of_eq (unread.dinOf member)
  · exact fun other member _ index => unread.slotAt member
  · intro other member apart index nonzero
    apply Function.update_of_ne
    intro same
    have twice := consistent.exact.once _ _ _ held (same ▸ target_of_slot member nonzero)
    exact apart (Reference.slot.inj twice).1.symm

theorem overlay_more {content : Bytes} {position : Nat}
    (outside : position < offset + done ∨ offset + done + size ≤ position) :
    content.overlay offset (done + size) buf position = content.overlay offset done buf position := by
  unfold Bytes.overlay
  apply if_congr _ rfl rfl
  omega

/-- The block of a part is loaded and written. -/
theorem WrittenUpTo.part (member : ino ∈ inos)
    (upTo : WrittenUpTo inos sfs ino sin offset buf done now after)
    (place : offset + done = blkno * sfsBlksize + blkoff)
    (inside : blkoff + size ≤ sfsBlksize) (positive : 0 < size)
    (loaded : BlockLoaded inos ino blkno after block middle)
    (written : ∀ position, position < sfsBlksize → bytes position =
      if blkoff ≤ position ∧ position < blkoff + size then buf (done + (position - blkoff))
      else middle.disk block position) :
    WrittenUpTo inos sfs ino sin offset buf (done + size) now (middle.setBlock block bytes) := by
  obtain ⟨others, inMemory, header, otherSlots, ownBlock⟩ := loaded.ofFile member
  have held : target middle inos (.slot ino blkno) = some block := by
    rw [← loaded.slot]
    exact target_of_slot member (by rw [loaded.slot]; exact loaded.nonzero)
  have unread := loaded.consistent.unread_of_slot held
  have din : dinOf (middle.setBlock block bytes) ino = dinOf middle ino := unread.dinOf member
  have grown : fileBlocks (max sin.din.size (offset + (done + size))) =
      max (fileBlocks (max sin.din.size (offset + done))) (blkno + 1) := by
    rw [← fileBlocks_part place inside positive (Nat.le_max_right _ _)]
    congr 1
    omega
  have reached : blkno ≤ fileBlocks (max sin.din.size (offset + done)) := by
    rw [← upTo.blocks]
    exact loaded.inside
  have positiveBlock : 0 < sfsBlksize := by decide
  constructor
  · exact upTo.buffer
  · exact loaded.consistent.setBlock unread (loaded.consistent.slot_notInode held)
  · exact inMemory.trans upTo.loaded
  · rw [din, header.type]
    exact upTo.type
  · rw [din, header.nlinks]
    exact upTo.nlinks
  · rw [din, header.size]
    exact upTo.size
  · rw [din, header.blocks, grown]
    show max (dinOf after ino).blocks (blkno + 1) = _
    rw [upTo.blocks]
  · intro index low inMap
    rw [unread.slotAt member]
    by_cases same : index = blkno
    · rw [same, loaded.slot]
      exact loaded.nonzero
    · rw [(otherSlots index same).1]
      apply upTo.filled index _ inMap
      omega
  · intro position low inMap
    have inBlock := Nat.mod_lt position positiveBlock
    have split := Nat.div_add_mod position sfsBlksize
    have commuted := Nat.mul_comm sfsBlksize (position / sfsBlksize)
    by_cases same : position / sfsBlksize = blkno
    · -- in the block of this part
      have here : contentAt (middle.setBlock block bytes) ino position =
          bytes (position % sfsBlksize) := by
        rw [contentAt, unread.slotAt member, same, loaded.slot]
        exact congrFun (Function.update_self block bytes middle.disk) _
      have sameStart : position / sfsBlksize * sfsBlksize = blkno * sfsBlksize := by rw [same]
      rw [here, written _ inBlock]
      by_cases replaced : blkoff ≤ position % sfsBlksize ∧ position % sfsBlksize < blkoff + size
      · rw [if_pos replaced, Bytes.overlay_inside (by omega) (by omega)]
        congr 1
        omega
      · have outside : position < offset + done ∨ offset + done + size ≤ position := by omega
        have was : position < max sin.din.size (offset + done) := by omega
        have isBefore : blkno < (dinOf after ino).blocks := by
          rw [upTo.blocks, ← same]
          exact lt_fileBlocks was
        obtain ⟨slot, kept⟩ := ownBlock isBefore
        rw [if_neg replaced, overlay_more outside, ← upTo.content position was inMap, contentAt,
          same, slot, kept]
    · have outside : position < offset + done ∨ offset + done + size ≤ position := by
        by_contra within
        apply same
        have sameBlock := @place_of_byte blkno (position - blkno * sfsBlksize) (by omega)
        have whole : blkno * sfsBlksize + (position - blkno * sfsBlksize) = position := by omega
        rw [whole] at sameBlock
        exact sameBlock.1
      have was : position < max sin.din.size (offset + done) := by omega
      obtain ⟨slot, kept⟩ := otherSlots (position / sfsBlksize) same
      have filled := upTo.filled _ (lt_fileBlocks was) (lt_slotCount inMap)
      have apart : slotAt after ino (position / sfsBlksize) ≠ block := by
        intro equal
        have holder : target middle inos (.slot ino (position / sfsBlksize)) = some block := by
          rw [← equal, ← slot]
          exact target_of_slot member (by rwa [slot])
        have twice := loaded.consistent.exact.once _ _ _ holder held
        exact same (Reference.slot.inj twice).2
      rw [overlay_more outside, ← upTo.content position was inMap, contentAt, contentAt,
        unread.slotAt member, slot, show (middle.setBlock block bytes).disk
          (slotAt after ino (position / sfsBlksize)) = middle.disk _ from
          Function.update_of_ne apart _ _, kept filled]
  · exact upTo.others.trans (others.trans (OthersKept.setBlock loaded.consistent held))

/-- No block was left for the part. -/
theorem WrittenUpTo.refused {ret : Errno} (member : ino ∈ inos)
    (upTo : WrittenUpTo inos sfs ino sin offset buf done now after)
    (atEnd : blkno = (dinOf after ino).blocks)
    (refused : Refused inos ino blkno after ret middle) :
    WrittenUpTo inos sfs ino sin offset buf done now middle := by
  have header := refused.change.header ino member
  have below : ∀ index, index < fileBlocks (max sin.din.size (offset + done)) → index ≠ blkno := by
    intro index low
    rw [atEnd, upTo.blocks]
    omega
  have slots : ∀ index, index < fileBlocks (max sin.din.size (offset + done)) →
      slotAt middle ino index = slotAt after ino index :=
    fun index low => refused.change.slots ino member index (Or.inr (below index low))
  constructor
  · exact upTo.buffer
  · exact refused.consistent
  · exact refused.change.loaded.trans upTo.loaded
  · exact header.type.trans upTo.type
  · exact header.nlinks.trans upTo.nlinks
  · exact header.size.trans upTo.size
  · exact header.blocks.trans upTo.blocks
  · intro index low inMap
    rw [slots index low]
    exact upTo.filled index low inMap
  · intro position low inMap
    have inFile := lt_fileBlocks low
    have filled := upTo.filled _ inFile (lt_slotCount inMap)
    rw [← upTo.content position low inMap, contentAt, contentAt, slots _ inFile,
      refused.change.data ino member _ (Or.inr (below _ inFile)) filled]
  · exact upTo.others.trans refused.change.othersKept

/-- The block of a part can be loaded, up to the end of the block map. -/
theorem WrittenUpTo.ensures_load
    (upTo : WrittenUpTo inos sfs ino sin offset buf done now after)
    (place : offset + done = blkno * sfsBlksize + blkoff) :
    Ensures (¬ blkno * sfsBlksize < mappedSize) (sfsBmapLoadNolock ino blkno) after
      (LoadPost inos ino blkno after) := by
  obtain ⟨sin', loaded⟩ := Option.isSome_iff_exists.mp upTo.loaded
  have reached : blkno ≤ (dinOf after ino).blocks := by
    rw [upTo.blocks]
    unfold fileBlocks sfsBlksize at *
    omega
  apply (ensures_bmapLoad upTo.consistent loaded).weaken
  · intro cannot room
    have inMap : blkno < slotCount := by
      have inside := lt_slotCount room
      rwa [Nat.mul_div_cancel _ (show 0 < sfsBlksize by decide)] at inside
    apply cannot
    exact ⟨reached, inMap, fun low => upTo.filled blkno (upTo.blocks ▸ low) inMap⟩
  · exact fun _ _ post => post

theorem BlockLoaded.addressable (member : ino ∈ inos)
    (loaded : BlockLoaded inos ino blkno after block middle) : Addressable middle block := by
  rw [← loaded.slot]
  exact loaded.consistent.addressable_slot member (by rw [loaded.slot]; exact loaded.nonzero)

theorem writeRules {endpos : Nat} (member : ino ∈ inos) :
    PartRules ino offset endpos true (fun _ _ => True) (¬ endpos ≤ mappedSize)
      (WrittenUpTo inos sfs ino sin offset buf) where
  piece after done blkno blkoff size buffer upTo place positive inside room := by
    apply ensures_bind ((upTo.ensures_load place).weaken (by omega) fun _ _ post => post)
    · intro block middle loaded
      have inBlock : blkoff < sfsBlksize ∧ blkoff + size ≤ sfsBlksize := ⟨by omega, inside⟩
      apply ensures_bind_run (run_wbuf loaded.consistent.device (loaded.addressable member) inBlock _)
      refine ensures_pure ⟨rfl, rfl, upTo.part member place inside positive loaded ?_⟩
      intro position _
      rw [upTo.buffer]
      rfl
    · rintro ret middle ⟨atEnd, refused⟩
      exact ⟨refused.noMem, trivial, upTo.refused member atEnd refused⟩
  whole after done blkno buffer upTo place room := by
    have positive : 0 < sfsBlksize := by decide
    have atStart : offset + done = blkno * sfsBlksize + 0 := by omega
    apply ensures_bind ((upTo.ensures_load atStart).weaken (by omega) fun _ _ post => post)
    · intro block middle loaded
      apply ensures_bind_run (run_wblock loaded.consistent.device (loaded.addressable member) _)
      refine ensures_pure ⟨rfl, rfl, upTo.part member atStart (by omega) positive loaded ?_⟩
      intro position inBlock
      rw [if_pos ⟨Nat.zero_le _, by omega⟩, upTo.buffer, Nat.sub_zero]
      rfl
    · rintro ret middle ⟨atEnd, refused⟩
      exact ⟨refused.noMem, trivial, upTo.refused member atEnd refused⟩

end Piece

/-! ## The whole transfer -/

/-- Nothing is written yet. -/
theorem RegularFile.writtenUpTo {offset : Nat} {buf : Bytes} (consistent : Consistent sfs inos)
    (file : RegularFile sfs ino sin) (start : offset ≤ sin.din.size) :
    WrittenUpTo inos sfs ino sin offset buf 0 buf sfs := by
  have din := dinOf_loaded file.loaded
  have same : max sin.din.size (offset + 0) = sin.din.size := by omega
  constructor
  · rfl
  · exact consistent
  · rw [file.loaded]
    rfl
  · rw [din]
  · rw [din]
  · rw [din]
  · rw [din, same]
    exact file.blocks
  · intro index low
    rw [same, ← file.blocks] at low
    exact file.filled index low
  · intro position _ _
    rw [Bytes.overlay_outside (by omega)]
  · exact OthersKept.refl

/-- What a read of `length` bytes at `offset` delivers: the bytes up to the end of the file. -/
def delivered (offset : Int) (length size : Nat) : Nat :=
  if offset < 0 then 0 else min (offset.toNat + length) size - offset.toNat

theorem delivered_nat (start length size : Nat) :
    delivered (start : Int) length size = min (start + length) size - start := by
  rw [delivered, if_neg (by omega), Int.toNat_natCast]

theorem mappedSize_lt : mappedSize < sfsMaxFileSize := by decide

/-- What a read answers: an offset that no file has is refused. -/
def readRet (offset : Int) : Option Errno :=
  if offset < 0 ∨ offset ≥ sfsMaxFileSize then some .inval else none

section Whole

variable {length : Nat} {buf : Bytes} (consistent : Consistent sfs inos)
  (file : RegularFile sfs ino sin)
include file

theorem RegularFile.not_dir : sin.din.type ≠ sfsTypeDir := by
  rw [file.type]
  decide

/-- The first checks of the transfer. -/
theorem run_io_checks {offset : Int} {write : Bool} :
    sfsIoNolock ino buf offset length write sfs =
      (if offset < 0 ∨ offset ≥ sfsMaxFileSize ∨ offset > wrap64 (offset + length) then
        pure (some .inval, 0, buf)
      else if offset = wrap64 (offset + length) then pure (none, 0, buf)
      else do
        let endpos := if wrap64 (offset + length) > sfsMaxFileSize then sfsMaxFileSize
          else (wrap64 (offset + length)).toNat
        let offset := offset.toNat
        if write = false ∧ offset ≥ sin.din.size then pure (none, 0, buf)
        else do
          let endpos := if write = false ∧ endpos > sin.din.size then sin.din.size else endpos
          let (ret, moved) ← ioParts ino write offset endpos buf
          let sin ← getSin ino
          if offset + moved.alen > sin.din.size then do
            updateDin ino fun din => { din with size := offset + moved.alen }
            setDirty ino true
            pure (ret, moved.alen, moved.buf)
          else pure (ret, moved.alen, moved.buf) : SfsM (Option Errno × Nat × Bytes)) sfs := by
  rw [sfsIoNolock, run_bind (run_getSin file.loaded), run_bind (run_assert sfs file.not_dir)]

include consistent

/-- A read delivers the bytes of the file from `offset` on, and changes nothing. -/
theorem run_io_read {offset : Int} (noOverflow : offset + length < 2 ^ 63)
    (mapped : min (offset.toNat + length) sin.din.size ≤ mappedSize) :
    sfsIoNolock ino buf offset length false sfs =
      .ok (.ok (readRet offset, delivered offset length sin.din.size,
        buf.overlay 0 (delivered offset length sin.din.size)
          ((contentAt sfs ino).drop offset.toNat)), sfs) := by
  have limit := mappedSize_lt
  rw [run_io_checks file]
  unfold readRet
  by_cases negative : offset < 0
  · rw [if_pos (Or.inl negative), if_pos (Or.inl negative), delivered, if_pos negative,
      Bytes.overlay_nothing]
    rfl
  · obtain ⟨start, rfl⟩ := Int.eq_ofNat_of_zero_le (Int.not_lt.mp negative)
    have endpos : wrap64 ((start : Int) + length) = (start + length : Nat) := by
      rw [wrap64_of_range (by omega) (by omega)]
      omega
    have nothing : min (start + length) sin.din.size ≤ start →
        delivered (start : Int) length sin.din.size = 0 := by
      rw [delivered_nat]
      omega
    rw [Int.toNat_natCast] at mapped
    rw [endpos]
    by_cases tooFar : sfsMaxFileSize ≤ start
    · rw [if_pos (by omega), if_pos (by omega), nothing (by omega), Bytes.overlay_nothing]
      rfl
    rw [if_neg (by omega)]
    have valid : ¬ ((start : Int) < 0 ∨ (start : Int) ≥ sfsMaxFileSize) := by omega
    simp only [if_neg valid]
    by_cases empty : length = 0
    · rw [if_pos (by omega), nothing (by omega), Bytes.overlay_nothing]
      rfl
    rw [if_neg (by omega)]
    simp only [true_and, Int.toNat_natCast]
    by_cases beyond : start ≥ sin.din.size
    · rw [if_pos beyond, nothing (by omega), Bytes.overlay_nothing]
      rfl
    rw [if_neg beyond]
    have clamped : (if (if ((start + length : Nat) : Int) > sfsMaxFileSize then sfsMaxFileSize
        else start + length) > sin.din.size then sin.din.size
        else if ((start + length : Nat) : Int) > sfsMaxFileSize then sfsMaxFileSize
          else start + length) = min (start + length) sin.din.size := by
      split_ifs <;> omega
    rw [clamped, delivered_nat]
    have rules := @readRules sfs inos ino sin start (min (start + length) sin.din.size) buf
      consistent file (Nat.min_le_right _ _) mapped
    have whole := ensures_ioParts rules (show ReadUpTo sfs ino start buf 0 buf sfs from
      ⟨rfl, Bytes.overlay_nothing.symm⟩) (by omega)
    obtain ⟨result, after, ran, transferred⟩ := whole.returns id
    cases result with
    | error ret => exact transferred.elim
    | ok pair =>
        obtain ⟨outcome, moved⟩ := pair
        obtain ⟨⟨rfl, bytes⟩, finished⟩ := transferred
        rcases finished with ⟨rfl, reached⟩ | ⟨_, impossible, _⟩
        · have alen : moved.alen = min (start + length) sin.din.size - start := by omega
          rw [run_bind ran]
          simp only []
          rw [run_bind (run_getSin file.loaded), if_neg (by omega), bytes, alen]
          rfl
        · exact impossible.elim

end Whole

/-- Inside the block map only a negative offset is refused. -/
theorem refused_iff_negative {offset : Int} {length : Nat} (mapped : offset + length ≤ mappedSize) :
    (offset < 0 ∨ offset ≥ sfsMaxFileSize ∨ offset > wrap64 (offset + length)) ↔ offset < 0 := by
  have limit := mappedSize_lt
  have small : sfsMaxFileSize < 2 ^ 63 := by decide
  refine ⟨fun refused => ?_, Or.inl⟩
  by_contra nonneg
  rw [wrap64_of_range (by omega) (by omega)] at refused
  omega

/-- What a write of `length` bytes at `offset` leaves, where `alen` bytes were transferred. -/
structure FileWritten (inos : List Nat) (sfs : SfsFs) (ino : Nat) (sin : SfsInode) (offset : Int)
    (length : Nat) (buf : Bytes) (ret : Option Errno) (alen : Nat) (after : SfsFs)
    (sin' : SfsInode) : Prop where
  consistent : Consistent after inos
  file : RegularFile after ino sin'
  size : sin'.din.size = max sin.din.size (offset.toNat + alen)
  content : ∀ position, position < sin'.din.size → position < mappedSize →
    contentAt after ino position = (contentAt sfs ino).overlay offset.toNat alen buf position
  others : ∀ other, other ∈ inos → other ≠ ino →
    SameHeader (dinOf after other) (dinOf sfs other) ∧
      ∀ position, slotAt sfs other (position / sfsBlksize) ≠ 0 →
        contentAt after other position = contentAt sfs other position
  bounded : alen ≤ length
  complete : ret = none → alen = length
  failed : ∀ error, ret = some error →
    (error = .inval ∧ offset < 0 ∧ alen = 0) ∨ (error = .noMem ∧ alen < length)

section Write

variable {length start : Nat} {buf : Bytes} {now : Bytes} {alen : Nat} {ret : Option Errno}

/-- Where nothing was transferred, nothing changed. -/
theorem RegularFile.unwritten {offset : Int} (consistent : Consistent sfs inos)
    (file : RegularFile sfs ino sin) (low : offset ≤ sin.din.size)
    (complete : ret = none → 0 = length)
    (failed : ∀ error, ret = some error → error = .inval ∧ offset < 0) :
    FileWritten inos sfs ino sin offset length buf ret 0 sfs sin where
  consistent := consistent
  file := file
  size := by omega
  content position _ _ := by rw [Bytes.overlay_nothing]
  others _ _ _ := ⟨SameHeader.refl _, fun _ _ => rfl⟩
  bounded := Nat.zero_le _
  complete := complete
  failed error isError := by
    obtain ⟨invalid, negative⟩ := failed error isError
    exact Or.inl ⟨invalid, negative, rfl⟩

/-- The bytes that a write has transferred, all of them. -/
abbrev FileExtended (inos : List Nat) (sfs : SfsFs) (ino : Nat) (sin : SfsInode) (offset : Int)
    (buf : Bytes) (alen : Nat) (after : SfsFs) (sin' : SfsInode) : Prop :=
  FileWritten inos sfs ino sin offset alen buf none alen after sin'

theorem FileWritten.limited {offset : Int} {alen : Nat} {sin' : SfsInode}
    (written : FileExtended inos sfs ino sin offset buf alen after sin')
    (bounded : alen ≤ length) (complete : ret = none → alen = length)
    (failed : ∀ error, ret = some error →
      (error = .inval ∧ offset < 0 ∧ alen = 0) ∨ (error = .noMem ∧ alen < length)) :
    FileWritten inos sfs ino sin offset length buf ret alen after sin' :=
  { written with bounded := bounded, complete := complete, failed := failed }

/-- The end of a write, which sets the size where the file has grown. -/
theorem WrittenUpTo.finish (file : RegularFile sfs ino sin)
    (upTo : WrittenUpTo inos sfs ino sin start buf alen now after) :
    ∃ final sin', (do
      let sin ← getSin ino
      if start + alen > sin.din.size then do
        updateDin ino fun din => { din with size := start + alen }
        setDirty ino true
        pure (ret, alen, now)
      else pure (ret, alen, now) : SfsM (Option Errno × Nat × Bytes)) after =
        .ok (.ok (ret, alen, buf), final) ∧
      FileExtended inos sfs ino sin start buf alen final sin' ∧ OthersKept inos ino sfs final := by
  obtain ⟨middle, loaded⟩ := Option.isSome_iff_exists.mp upTo.loaded
  have din := dinOf_loaded loaded
  have size := upTo.size
  have type := upTo.type
  have blocks := upTo.blocks
  have filled := upTo.filled
  have content := upTo.content
  rw [din] at size type blocks
  have others : ∀ other, other ∈ inos → other ≠ ino →
      SameHeader (dinOf after other) (dinOf sfs other) ∧
        ∀ position, slotAt sfs other (position / sfsBlksize) ≠ 0 →
          contentAt after other position = contentAt sfs other position :=
    fun other isMember apart => ⟨upTo.others.header other isMember apart,
      fun position mapped => upTo.others.content isMember apart mapped⟩
  by_cases grown : start + alen > middle.din.size
  · let sin' : SfsInode :=
      { middle with din := { middle.din with size := start + alen }, dirty := true }
    have pointers : SamePointers sin'.din middle.din := ⟨fun _ _ => rfl, rfl⟩
    have reach : max sin.din.size (start + alen) = start + alen := by omega
    rw [reach] at blocks filled content
    have sameContent : ∀ other, contentAt (after.setInode ino sin') other = contentAt after other := by
      intro other
      funext position
      unfold contentAt
      rw [slotAt_setInode loaded pointers]
      rfl
    refine ⟨after.setInode ino sin', sin', ?_, ?_,
      upTo.others.trans (OthersKept.setInode loaded pointers)⟩
    · rw [run_bind (run_getSin loaded), if_pos grown, run_updateDin_dirty loaded, upTo.buffer]
      rfl
    · constructor
      · exact upTo.consistent.setHeader loaded pointers nofun
      · refine ⟨setInode_self, ?_, blocks, ?_⟩
        · rw [← file.type, ← type]
        · intro index low inMap
          rw [slotAt_setInode loaded pointers]
          exact filled index (blocks ▸ low) inMap
      · exact reach.symm
      · intro position low inMap
        rw [sameContent]
        exact content position low inMap
      · intro other isMember apart
        rw [dinOf_setInode_of_ne apart, sameContent]
        exact others other isMember apart
      · exact le_rfl
      · exact fun _ => rfl
      · exact nofun
  · have reach : max sin.din.size (start + alen) = middle.din.size := by omega
    rw [reach] at blocks filled content
    refine ⟨after, middle, ?_, ?_, upTo.others⟩
    · rw [run_bind (run_getSin loaded), if_neg grown, upTo.buffer]
      rfl
    · constructor
      · exact upTo.consistent
      · refine ⟨loaded, ?_, blocks, ?_⟩
        · rw [type, file.type]
        · intro index low inMap
          exact filled index (blocks ▸ low) inMap
      · exact reach.symm
      · exact content
      · exact others
      · exact le_rfl
      · exact fun _ => rfl
      · exact nofun

/-- A write of any length: what it transferred is in the file when it returns. -/
def WriteDone (inos : List Nat) (sfs : SfsFs) (ino : Nat) (sin : SfsInode) (offset : Int)
    (length : Nat) (buf : Bytes) (result : Except Errno (Option Errno × Nat × Bytes))
    (after : SfsFs) : Prop :=
  ∃ ret alen sin', result = .ok (ret, alen, buf) ∧
    FileExtended inos sfs ino sin offset buf alen after sin' ∧ OthersKept inos ino sfs after ∧
    (offset + length ≤ mappedSize → FileWritten inos sfs ino sin offset length buf ret alen after sin')

/-- A write stops only where it would pass the end of the block map. -/
theorem ensures_io_write {offset : Int} (consistent : Consistent sfs inos)
    (file : RegularFile sfs ino sin) (low : offset ≤ sin.din.size) :
    Ensures (¬ offset + length ≤ mappedSize) (sfsIoNolock ino buf offset length true) sfs
      (WriteDone inos sfs ino sin offset length buf) := by
  have limit := mappedSize_lt
  have small : sfsMaxFileSize < 2 ^ 63 := by decide
  apply Ensures.of_same (run_io_checks file)
  by_cases invalid : offset < 0 ∨ offset ≥ sfsMaxFileSize ∨ offset > wrap64 (offset + length)
  · rw [if_pos invalid]
    apply ensures_pure
    refine ⟨some .inval, 0, sin, rfl, file.unwritten consistent low (fun _ => rfl) nofun,
      OthersKept.refl, ?_⟩
    intro mapped
    have negative := (refused_iff_negative mapped).mp invalid
    refine file.unwritten consistent low ?_ ?_
    · intro isNone
      cases isNone
    · intro error isError
      exact ⟨(Option.some.inj isError).symm, negative⟩
  rw [if_neg invalid]
  have nonneg : 0 ≤ offset := by
    by_contra negative
    exact invalid (Or.inl (not_le.mp negative))
  have start : (offset.toNat : Int) = offset := Int.toNat_of_nonneg nonneg
  have endpos : offset + length ≤ mappedSize → wrap64 (offset + length) = offset + length :=
    fun mapped => wrap64_of_range (by omega) (by omega)
  by_cases empty : offset = wrap64 (offset + length)
  · rw [if_pos empty]
    apply ensures_pure
    refine ⟨none, 0, sin, rfl, file.unwritten consistent low (fun _ => rfl) nofun,
      OthersKept.refl, ?_⟩
    intro mapped
    have reached := endpos mapped
    exact file.unwritten consistent low (fun _ => by omega) nofun
  rw [if_neg empty]
  simp only [Bool.true_eq_false, false_and, if_false]
  generalize finish : (if wrap64 (offset + length) > sfsMaxFileSize then sfsMaxFileSize
    else (wrap64 (offset + length)).toNat) = last
  have proper : offset.toNat < last := by
    rw [← finish]
    split_ifs <;> omega
  have member := consistent.known ino sin file.loaded
  have whole := ensures_ioParts (@writeRules sfs inos ino sin offset.toNat buf last member)
    (file.writtenUpTo consistent (by omega)) proper
  have reach : offset + length ≤ mappedSize → last = offset.toNat + length := by
    intro mapped
    rw [← finish, endpos mapped, if_neg (by omega)]
    omega
  apply ensures_bind (whole.weaken (by omega) fun _ _ post => post)
  · rintro ⟨outcome, moved⟩ middle ⟨upTo, finished⟩
    obtain ⟨final, sin', ran, written, others⟩ := upTo.finish file
    rw [start] at written
    apply ensures_of_run ran
    refine ⟨outcome, moved.alen, sin', rfl, written, others, ?_⟩
    intro mapped
    have reached := reach mapped
    apply written.limited (by omega)
    · intro isNone
      rcases finished with ⟨_, reached⟩ | ⟨isSome, _⟩
      · omega
      · rw [isNone] at isSome
        cases isSome
    · intro error isError
      rcases finished with ⟨isNone, _⟩ | ⟨isSome, _, short⟩
      · rw [isNone] at isError
        cases isError
      · rw [isSome] at isError
        exact Or.inr ⟨(Option.some.inj isError).symm, by omega⟩
  · exact fun _ _ impossible => impossible.elim

/-- A write puts the bytes it transferred at `offset`, and changes nothing else. -/
theorem run_io_write {offset : Int} (consistent : Consistent sfs inos)
    (file : RegularFile sfs ino sin) (low : offset ≤ sin.din.size)
    (mapped : offset + length ≤ mappedSize) :
    ∃ ret alen after sin', sfsIoNolock ino buf offset length true sfs =
        .ok (.ok (ret, alen, buf), after) ∧
      FileWritten inos sfs ino sin offset length buf ret alen after sin' := by
  obtain ⟨_, after, ran, ret, alen, sin', rfl, _, _, written⟩ :=
    (ensures_io_write consistent file low).returns (not_not.mpr mapped)
  exact ⟨ret, alen, after, sin', ran, written mapped⟩

end Write

/-! The small volume with its file in memory. -/

def smallSin : SfsInode := ⟨dinOf smallSfs 1, false, 1, 1⟩

theorem smallOpen_consistent : Consistent (smallSfs.setInode 1 smallSin) [1] :=
  (mounted_fresh ⟨smallSfs_consistent, smallSfs_trimmed⟩ (List.mem_singleton.mpr rfl) rfl rfl
    (show smallSin.din.nlinks ≠ 0 by decide)).consistent

theorem smallOpen_file : RegularFile (smallSfs.setInode 1 smallSin) 1 smallSin where
  loaded := setInode_self
  type := by decide
  blocks := by decide
  filled index low _ := by
    have blocks : smallSin.din.blocks = 1 := by decide
    have first : index = 0 := by omega
    have slot : slotAt (smallSfs.setInode 1 smallSin) 1 index = slotAt smallSfs 1 index := by
      unfold slotAt
      rw [dinOf_loaded setInode_self]
      rfl
    rw [slot, smallSfs_slot, if_pos first]
    decide

end UCore.Fs
