import UCore.Fs.SfsIo

/-!
Contract: what reading, writing and resizing files leaves of the inodes in memory.

Owns:
- `SameViews`: the same inodes are in memory, and look the same through a view of them;
- that no function of the block map changes a view that is blind to the map;
- that every function of the Simple FS but those that take and drop references keeps the identities
  of inodes: their reference counts, types and link counts.

Does not own: what the functions do to blocks.
-/

set_option autoImplicit false

namespace UCore.Fs

open UCore.Lib UCore.Lib.Program

/-- The same inodes are in memory, and look the same through `view`. -/
def SameViews {γ : Type} (view : SfsInode → γ) (sfs after : SfsFs) : Prop :=
  ∀ ino, (after.inodes ino).map view = (sfs.inodes ino).map view

def KeepsViews {γ : Type} (view : SfsInode → γ) {α : Type} (program : SfsM α) : Prop :=
  ∀ sfs, Ensures True program sfs fun _ after => SameViews view sfs after

/-- A view of what allocating blocks leaves as it is. -/
class MapBlind {γ : Type} (view : SfsInode → γ) : Prop where
  same : ∀ sin sin' : SfsInode, sin'.refCount = sin.refCount → sin'.din.type = sin.din.type →
    sin'.din.nlinks = sin.din.nlinks → sin'.din.size = sin.din.size → view sin' = view sin

/-- What an inode keeps while it is in use. -/
def identity (sin : SfsInode) : Nat × Nat × Nat := (sin.refCount, sin.din.type, sin.din.nlinks)

abbrev SameIdentities (sfs after : SfsFs) : Prop := SameViews identity sfs after

abbrev KeepsIdentities {α : Type} (program : SfsM α) : Prop := KeepsViews identity program

instance : MapBlind identity where
  same sin sin' refCount type nlinks _ := by
    unfold identity
    rw [refCount, type, nlinks]

/-- The size of an inode, as `din->size` has it. -/
def sizeView (sin : SfsInode) : Nat := sin.din.size

instance : MapBlind sizeView where
  same _ _ _ _ _ size := size

variable {α β γ : Type} {view : SfsInode → γ} {sfs after : SfsFs} {ino : Nat} {sin : SfsInode}

namespace SameViews

theorem refl (sfs : SfsFs) : SameViews view sfs sfs := fun _ => rfl

theorem trans {middle : SfsFs} (first : SameViews view sfs middle)
    (second : SameViews view middle after) : SameViews view sfs after :=
  fun ino => (second ino).trans (first ino)

theorem of_inodes (same : after.inodes = sfs.inodes) : SameViews view sfs after :=
  fun ino => congrArg (Option.map view) (congrFun same ino)

theorem setInode {sin' : SfsInode} (loaded : sfs.inodes ino = some sin)
    (same : view sin' = view sin) : SameViews view sfs (sfs.setInode ino sin') := by
  intro other
  change (Function.update sfs.inodes ino (some sin') other).map view = _
  by_cases isIno : other = ino
  · subst isIno
    rw [Function.update_self, loaded, Option.map_some, Option.map_some, same]
  · rw [Function.update_of_ne isIno]

/-- An inode in memory afterwards was in memory, with the same view. -/
theorem loaded (same : SameViews view sfs after) {sin' : SfsInode}
    (found : after.inodes ino = some sin') :
    ∃ sin, sfs.inodes ino = some sin ∧ view sin' = view sin := by
  have kept := same ino
  rw [found, Option.map_some] at kept
  cases before : sfs.inodes ino with
  | none =>
      rw [before] at kept
      cases kept
  | some sin =>
      rw [before, Option.map_some] at kept
      exact ⟨sin, rfl, Option.some.inj kept⟩

end SameViews

namespace KeepsViews

/-! ## Rules -/

theorem ret (value : α) : KeepsViews view (pure value : SfsM α) :=
  fun sfs => ensures_pure (SameViews.refl sfs)

theorem fails (errno : Errno) : KeepsViews view (fail errno : SfsM α) :=
  fun sfs => ensures_fail (SameViews.refl sfs)

theorem stops (reason : Stop) : KeepsViews view (stop reason : SfsM α) :=
  fun _ => ensures_stop trivial

theorem bind {first : SfsM α} {second : α → SfsM β} (keeps : KeepsViews view first)
    (rest : ∀ value, KeepsViews view (second value)) : KeepsViews view (first >>= second) :=
  fun sfs => ensures_bind (keeps sfs)
    (fun value after same => (rest value after).weaken id fun _ _ more => same.trans more)
    fun _ _ same => same

theorem attempt {program : SfsM α} (keeps : KeepsViews view program) :
    KeepsViews view (Program.attempt program) :=
  fun sfs => ensures_attempt (keeps sfs)

theorem read : KeepsViews view (Program.read : SfsM SfsFs) :=
  fun sfs => SameViews.refl sfs

theorem assert (condition : Prop) [Decidable condition] : KeepsViews view (Fs.assert condition) := by
  intro sfs
  unfold Ensures Fs.assert require
  split_ifs
  · exact SameViews.refl sfs
  · trivial

theorem modify {change : SfsFs → SfsFs} (same : ∀ sfs, (change sfs).inodes = sfs.inodes) :
    KeepsViews view (Program.modify change : SfsM Unit) :=
  fun sfs => ensures_modify_last (SameViews.of_inodes (same sfs))

theorem branch {condition : Prop} [Decidable condition] {first second : SfsM α}
    (yes : KeepsViews view first) (no : KeepsViews view second) :
    KeepsViews view (if condition then first else second) := by
  split_ifs
  · exact yes
  · exact no

theorem reads {second : SfsFs → SfsM α} (rest : ∀ sfs, KeepsViews view (second sfs)) :
    KeepsViews view (Program.read >>= second) :=
  bind read rest

theorem asserts {condition : Prop} [Decidable condition] {second : Unit → SfsM α}
    (rest : KeepsViews view (second ())) : KeepsViews view (Fs.assert condition >>= second) :=
  bind (assert condition) fun _ => rest

/-! ## Blocks and the free map -/

theorem rwblock (blkno : Nat) (check : Bool) : KeepsViews view (sfsRwblockNolock blkno check) := by
  apply reads
  intro sfs
  apply asserts
  apply reads
  intro sfs
  exact branch (fails _) (branch (fails _) (ret _))

theorem readblock (blkno : Nat) (check : Bool) :
    KeepsViews view (sfsReadblockNolock blkno check) :=
  bind (rwblock blkno check) fun _ => reads fun _ => ret _

theorem writeblock (blkno : Nat) (check : Bool) (buf : Bytes) :
    KeepsViews view (sfsWriteblockNolock blkno check buf) :=
  bind (rwblock blkno check) fun _ => modify fun _ => rfl

theorem rblock (buf : Bytes) (done blkno nblks : Nat) :
    KeepsViews view (sfsRblock buf done blkno nblks) := by
  induction nblks generalizing buf done blkno with
  | zero => exact ret _
  | succ nblks inductionHypothesis =>
      exact bind (readblock blkno true) fun _ => inductionHypothesis _ _ _

theorem wblock (buf : Bytes) (blkno nblks : Nat) : KeepsViews view (sfsWblock buf blkno nblks) := by
  induction nblks generalizing buf blkno with
  | zero => exact ret _
  | succ nblks inductionHypothesis =>
      exact bind (writeblock blkno true buf) fun _ => inductionHypothesis _ _

theorem rbuf (len blkno offset : Nat) : KeepsViews view (sfsRbuf len blkno offset) :=
  asserts (bind (readblock blkno true) fun _ => ret _)

theorem wbuf (buf : Bytes) (len blkno offset : Nat) :
    KeepsViews view (sfsWbuf buf len blkno offset) :=
  asserts (bind (readblock blkno true) fun _ => writeblock _ _ _)

theorem clearBlock (blkno nblks : Nat) : KeepsViews view (sfsClearBlock blkno nblks) := by
  induction nblks generalizing blkno with
  | zero => exact ret _
  | succ nblks inductionHypothesis =>
      exact bind (writeblock blkno true Bytes.zeros) fun _ => inductionHypothesis _

theorem allocBit : KeepsViews view bitmapAlloc := by
  apply reads
  intro sfs
  cases firstFree sfs with
  | none => exact fails _
  | some index => exact bind (modify fun _ => rfl) fun _ => ret _

theorem testBit (index : Nat) : KeepsViews view (bitmapTest index) :=
  reads fun _ => asserts (ret _)

theorem freeBit (index : Nat) : KeepsViews view (bitmapFree index) :=
  bind (testBit index) fun _ => asserts (modify fun _ => rfl)

theorem blockInuse (ino : Nat) : KeepsViews view (sfsBlockInuse ino) :=
  reads fun _ => branch (bind (testBit ino) fun _ => ret _) (stops _)

theorem blockAlloc : KeepsViews view sfsBlockAlloc := by
  apply bind allocBit
  intro block
  apply reads
  intro sfs
  apply asserts
  have taken : KeepsViews view (Program.modify fun sfs : SfsFs =>
      { sfs with unusedBlocks := sfs.unusedBlocks - 1, superDirty := true } : SfsM Unit) :=
    modify fun _ => rfl
  apply bind taken
  intro _
  apply bind (blockInuse block)
  intro inuse
  exact asserts (bind (clearBlock block 1) fun _ => ret _)

theorem blockFree (ino : Nat) : KeepsViews view (sfsBlockFree ino) := by
  apply bind (blockInuse ino)
  intro inuse
  exact asserts (bind (freeBit ino) fun _ => modify fun _ => rfl)

/-! ## Inodes and the block map -/

theorem lookSin (ino : Nat) : KeepsViews view (getSin ino) := by
  apply reads
  intro sfs
  cases sfs.inodes ino with
  | none => exact stops _
  | some sin => exact ret _

/-- A change that leaves the view of the inode. -/
theorem changeSin {change : SfsInode → SfsInode}
    (same : ∀ sin, view (change sin) = view sin) :
    KeepsViews view (getSin ino >>= fun sin => setSin ino (change sin)) := by
  intro sfs
  cases loaded : sfs.inodes ino with
  | none =>
      have ran : getSin ino sfs = .error .panicked := by
        simp only [getSin, Bind.bind, Program.bind, Program.read, loaded]
        rfl
      exact ensures_bind_stop ran trivial
  | some sin =>
      have ran : getSin ino sfs = .ok (.ok sin, sfs) := by
        simp only [getSin, Bind.bind, Program.bind, Program.read, loaded]
        rfl
      exact ensures_bind_run ran (SameViews.setInode loaded (same sin))

theorem newEntry (entp ent index : Nat) : KeepsViews view (bmapNewEntry entp ent index) := by
  have undo : ∀ errno, KeepsViews view (do
      if ent ≠ entp then sfsBlockFree ent
      Program.fail errno : SfsM (Nat × Nat)) := by
    intro errno
    split_ifs
    · exact bind (blockFree ent) fun _ => fails errno
    · exact fails errno
  apply bind (attempt blockAlloc)
  intro allocated
  cases allocated with
  | error errno => exact undo errno
  | ok block =>
      apply bind (attempt (wbuf _ _ _ _))
      intro written
      cases written with
      | error errno => exact bind (blockFree block) fun _ => undo errno
      | ok _ => exact ret _

theorem getSub (entp index : Nat) (create : Bool) :
    KeepsViews view (sfsBmapGetSubNolock entp index create) := by
  apply asserts
  apply branch
  · apply bind (rbuf _ _ _)
    intro bytes
    exact branch (ret _) (newEntry _ _ _)
  · exact branch (ret _) (bind blockAlloc fun _ => newEntry _ _ _)

theorem freeSub (ent index : Nat) : KeepsViews view (sfsBmapFreeSubNolock ent index) := by
  apply bind (blockInuse ent)
  intro inuse
  apply asserts
  apply bind (rbuf _ _ _)
  intro bytes
  exact branch (bind (wbuf _ _ _ _) fun _ => blockFree _) (ret _)

variable [MapBlind view]

theorem dirty (ino : Nat) (dirty : Bool) : KeepsViews view (setDirty ino dirty) :=
  changeSin fun sin => MapBlind.same sin _ rfl rfl rfl rfl

theorem changeDin (ino : Nat) {change : DiskInode → DiskInode}
    (type : ∀ din, (change din).type = din.type) (nlinks : ∀ din, (change din).nlinks = din.nlinks)
    (size : ∀ din, (change din).size = din.size) : KeepsViews view (updateDin ino change) :=
  changeSin fun sin => MapBlind.same sin _ rfl (type sin.din) (nlinks sin.din) (size sin.din)

theorem getBlock (ino index : Nat) (create : Bool) :
    KeepsViews view (bmapGetBlock ino index create) := by
  apply bind (lookSin ino)
  intro sin
  apply branch
  · apply branch
    · apply bind blockAlloc
      intro block
      exact bind (changeDin ino (fun _ => rfl) (fun _ => rfl) fun _ => rfl) fun _ =>
        bind (dirty ino true) fun _ => ret _
    · exact ret _
  · apply branch
    · apply bind (getSub _ _ _)
      intro found
      apply branch
      · exact asserts (bind (changeDin ino (fun _ => rfl) (fun _ => rfl) fun _ => rfl) fun _ =>
          bind (dirty ino true) fun _ => ret _)
      · exact ret _
    · exact stops _

theorem bmapGet (ino index : Nat) (create : Bool) :
    KeepsViews view (sfsBmapGetNolock ino index create) := by
  apply bind (getBlock ino index create)
  intro block
  exact branch (ret _) (bind (blockInuse block) fun _ => asserts (ret _))

theorem bmapFree (ino index : Nat) : KeepsViews view (sfsBmapFreeNolock ino index) := by
  apply bind (lookSin ino)
  intro sin
  apply branch
  · apply branch
    · exact bind (blockFree _) fun _ => bind (changeDin ino (fun _ => rfl) (fun _ => rfl) fun _ => rfl) fun _ =>
        dirty ino true
    · exact ret _
  · exact branch (branch (freeSub _ _) (ret _)) (ret _)

theorem bmapLoad (ino index : Nat) : KeepsViews view (sfsBmapLoadNolock ino index) := by
  apply bind (lookSin ino)
  intro sin
  apply asserts
  apply bind (bmapGet ino index _)
  intro block
  apply bind (blockInuse block)
  intro inuse
  apply asserts
  exact branch (bind (changeDin ino (fun _ => rfl) (fun _ => rfl) fun _ => rfl) fun _ => ret _) (ret _)

theorem bmapTruncate (ino : Nat) : KeepsViews view (sfsBmapTruncateNolock ino) := by
  apply bind (lookSin ino)
  intro sin
  apply asserts
  exact bind (bmapFree ino _) fun _ =>
    bind (changeDin ino (fun _ => rfl) (fun _ => rfl) fun _ => rfl) fun _ => dirty ino true

/-! ## Files -/

theorem fsync (ino : Nat) : KeepsViews view (sfsFsync ino) := by
  apply bind (lookSin ino)
  intro sin
  apply branch
  · apply bind (dirty ino false)
    intro _
    apply bind (attempt (wbuf _ _ _ _))
    intro written
    cases written with
    | error errno => exact bind (dirty ino true) fun _ => fails errno
    | ok _ => exact ret _
  · exact ret _

theorem grow (ino nblks missing : Nat) : KeepsViews view (truncfileGrow ino nblks missing) := by
  induction missing generalizing nblks with
  | zero => exact ret _
  | succ missing inductionHypothesis =>
      exact bind (bmapLoad ino nblks) fun _ => inductionHypothesis _

theorem shrink (ino excess : Nat) : KeepsViews view (truncfileShrink ino excess) := by
  induction excess with
  | zero => exact ret _
  | succ excess inductionHypothesis => exact bind (bmapTruncate ino) fun _ => inductionHypothesis

theorem moveBuf (ino : Nat) (write : Bool) (size blkoff : Nat) (transfer : Transfer) :
    KeepsViews view (ioBuf ino write size blkoff transfer) := by
  apply bind (bmapLoad ino _)
  intro block
  exact branch (bind (wbuf _ _ _ _) fun _ => ret _) (bind (rbuf _ _ _) fun _ => ret _)

theorem moveBlock (ino : Nat) (write : Bool) (transfer : Transfer) :
    KeepsViews view (ioBlock ino write transfer) := by
  apply bind (bmapLoad ino _)
  intro block
  exact branch (bind (wblock _ _ _) fun _ => ret _) (bind (rblock _ _ _ _) fun _ => ret _)

theorem moveBlocks (ino : Nat) (write : Bool) (nblks : Nat) (transfer : Transfer) :
    KeepsViews view (ioBlocks ino write nblks transfer) := by
  induction nblks generalizing transfer with
  | zero => exact ret _
  | succ nblks inductionHypothesis =>
      apply bind (attempt (moveBlock ino write transfer))
      intro moved
      cases moved with
      | error errno => exact ret _
      | ok moved => exact inductionHypothesis moved

theorem moveAligned (ino : Nat) (write : Bool) (offset endpos nblks : Nat) (transfer : Transfer) :
    KeepsViews view (ioAligned ino write offset endpos nblks transfer) := by
  apply bind (moveBlocks ino write nblks transfer)
  rintro ⟨failed, moved⟩
  cases failed with
  | some errno => exact ret _
  | none =>
      apply branch
      · apply bind (attempt (moveBuf ino write _ _ _))
        intro moved
        cases moved with
        | error errno => exact ret _
        | ok moved => exact ret _
      · exact ret _

theorem moveParts (ino : Nat) (write : Bool) (offset endpos : Nat) (buf : Bytes) :
    KeepsViews view (ioParts ino write offset endpos buf) := by
  apply branch
  · apply bind (attempt (moveBuf ino write _ _ _))
    intro moved
    cases moved with
    | error errno => exact ret _
    | ok moved => exact branch (ret _) (moveAligned _ _ _ _ _ _)
  · exact moveAligned _ _ _ _ _ _

/-! ## Sizes -/

theorem changeSize (ino size : Nat) :
    KeepsIdentities (updateDin ino fun din => { din with size := size }) :=
  changeSin fun _ => rfl

theorem truncfile (ino : Nat) (len : Int) : KeepsIdentities (sfsTruncfile ino len) := by
  apply branch (fails _)
  apply bind (lookSin ino)
  intro sin
  have finish : KeepsIdentities (do
      let sin ← getSin ino
      Fs.assert (sin.din.blocks = (len.toNat + (sfsBlksize - 1)) / sfsBlksize)
      updateDin ino fun din => { din with size := len.toNat }
      setDirty ino true : SfsM Unit) := by
    apply bind (lookSin ino)
    intro sin
    exact asserts (bind (changeSize ino _) fun _ => dirty ino true)
  apply branch (assert _)
  apply branch
  · exact bind (grow ino _ _) fun _ => finish
  · exact bind (shrink ino _) fun _ => finish

theorem truncate (ino : Nat) (len : Int) : KeepsIdentities (vopTruncate ino len) :=
  bind (lookSin ino) fun _ => asserts (truncfile ino len)

theorem tryseek (ino : Nat) (pos : Int) : KeepsIdentities (sfsTryseek ino pos) :=
  branch (fails _) (bind (lookSin ino) fun _ => branch (truncate ino pos) (ret _))

theorem ioNolock (ino : Nat) (buf : Bytes) (offset : Int) (length : Nat) (write : Bool) :
    KeepsIdentities (sfsIoNolock ino buf offset length write) := by
  apply bind (lookSin ino)
  intro sin
  apply asserts
  apply branch (ret _)
  apply branch (ret _)
  apply branch (ret _)
  apply bind (moveParts _ _ _ _ _)
  rintro ⟨failed, moved⟩
  apply bind (lookSin ino)
  intro sin
  exact branch (bind (changeSize ino _) fun _ =>
    bind (dirty ino true) fun _ => ret _) (ret _)

end KeepsViews

/-! ## References -/

/-- What `sfs_load_inode` checks before it makes an inode. -/
structure Proper (din : DiskInode) : Prop where
  type : din.type = sfsTypeDir ∨ din.type = sfsTypeFile
  linked : din.nlinks ≠ 0

/-- Only `ino` changes. -/
def OthersSame (ino : Nat) (sfs after : SfsFs) : Prop :=
  ∀ other, other ≠ ino → (after.inodes other).map identity = (sfs.inodes other).map identity

/-- A reference more: the inode was in memory, or it was loaded. -/
def ReferenceTaken (ino : Nat) (sfs after : SfsFs) : Prop :=
  OthersSame ino sfs after ∧ ∃ sin', after.inodes ino = some sin' ∧
    ((∃ sin, sfs.inodes ino = some sin ∧ identity sin' = (sin.refCount + 1, (identity sin).2)) ∨
      sfs.inodes ino = none ∧ sin'.refCount = 1 ∧ Proper sin'.din)

theorem SfsFs.setInode_others {sin' : SfsInode} : OthersSame ino sfs (sfs.setInode ino sin') := by
  intro other apart
  change (Function.update sfs.inodes ino (some sin') other).map identity = _
  rw [Function.update_of_ne apart]

theorem setSin_loads {sin' : SfsInode} (same : SameIdentities sfs after)
    (missing : sfs.inodes ino = none) (referenced : sin'.refCount = 1) (proper : Proper sin'.din) :
    Ensures True (setSin ino sin') after fun _ final => ReferenceTaken ino sfs final := by
  apply ensures_modify_last
  refine ⟨?_, sin', Function.update_self .., Or.inr ⟨missing, referenced, proper⟩⟩
  intro other apart
  exact (SfsFs.setInode_others other apart).trans (same other)

theorem ensures_loadInode_identity (ino : Nat) :
    Ensures True (sfsLoadInode ino) sfs fun result after =>
      match result with
      | .ok () => ReferenceTaken ino sfs after
      | .error _ => SameIdentities sfs after := by
  apply ensures_read
  cases loaded : sfs.inodes ino with
  | some sin =>
      apply ensures_modify_last
      exact ⟨SfsFs.setInode_others, _, Function.update_self ..,
        Or.inl ⟨sin, loaded, rfl⟩⟩
  | none =>
      have keeps : ∀ {α : Type} {program : SfsM α} {middle : SfsFs}, KeepsIdentities program →
          SameIdentities sfs middle →
          Ensures True program middle fun _ after => SameIdentities sfs after :=
        fun kept same => (kept _).weaken id fun _ _ more => same.trans more
      apply ensures_bind (keeps (KeepsViews.blockInuse ino) (SameViews.refl sfs)) _
        fun _ _ same => same
      intro inuse middle same
      apply ensures_require _ fun _ => trivial
      intro _
      apply ensures_bind (keeps (KeepsViews.rbuf _ _ _) same) _ fun _ _ same => same
      intro bytes middle same
      apply ensures_require _ fun _ => trivial
      intro linked
      unfold sfsGetOps
      split_ifs with type
      · exact ensures_bind_run rfl (setSin_loads same loaded rfl ⟨type, linked⟩)
      · exact ensures_bind_stop rfl trivial

/-- Reclaiming a linked inode drops it, or leaves it with its identity. -/
theorem ensures_reclaim_identity (loaded : sfs.inodes ino = some sin) (linked : sin.din.nlinks ≠ 0) :
    Ensures True (sfsReclaim ino) sfs fun result after =>
      match result with
      | .ok () => sin.refCount = 0 ∧ OthersSame ino sfs after ∧ after.inodes ino = none
      | .error _ => SameIdentities sfs after := by
  have here : ∀ {middle : SfsFs} {found : SfsInode}, SameIdentities sfs middle →
      middle.inodes ino = some found → found.din.nlinks ≠ 0 := by
    intro middle found same isFound
    obtain ⟨before, isBefore, kept⟩ := same.loaded isFound
    obtain rfl := Option.some.inj (loaded.symm.trans isBefore)
    have links : found.din.nlinks = sin.din.nlinks := congrArg (fun label => label.2.2) kept
    rwa [links]
  have look : ∀ {α : Type} {middle : SfsFs} {second : SfsInode → SfsM α}
      {post : Except Errno α → SfsFs → Prop}, SameIdentities sfs middle →
      (∀ found, middle.inodes ino = some found → Ensures True (second found) middle post) →
      Ensures True (getSin ino >>= second) middle post := by
    intro α middle second post same rest
    cases isFound : middle.inodes ino with
    | none =>
        have ran : getSin ino middle = .error .panicked := by
          simp only [getSin, Bind.bind, Program.bind, Program.read, isFound]
          rfl
        exact ensures_bind_stop ran trivial
    | some found =>
        have ran : getSin ino middle = .ok (.ok found, middle) := by
          simp only [getSin, Bind.bind, Program.bind, Program.read, isFound]
          rfl
        exact ensures_bind_run ran (rest found isFound)
  apply look (SameViews.refl sfs)
  intro found isFound
  obtain rfl := Option.some.inj (loaded.symm.trans isFound)
  apply ensures_require _ fun _ => trivial
  intro counted
  have same : SameIdentities sfs
      (sfs.setInode ino { sin with reclaimCount := sin.reclaimCount - 1 }) :=
    SameViews.setInode loaded rfl
  apply ensures_bind_run (show setSin ino _ sfs = .ok (.ok (), _) from rfl)
  split_ifs with busy
  · exact ensures_fail same
  · push Not at busy
    have drop : ∀ {middle : SfsFs}, SameIdentities sfs middle → Ensures True (do
        let sin ← getSin ino
        removeSin ino
        if sin.din.nlinks = 0 then do
          sfsBlockFree ino
          if sin.din.indirect ≠ 0 then sfsBlockFree sin.din.indirect else pure ()
        else pure () : SfsM Unit) middle fun result after =>
          match result with
          | .ok () => sin.refCount = 0 ∧ OthersSame ino sfs after ∧ after.inodes ino = none
          | .error _ => SameIdentities sfs after := by
      intro middle same
      apply look same
      intro found isFound
      apply ensures_bind_run (show removeSin ino middle = .ok (.ok (), _) from rfl)
      rw [if_neg (here same isFound)]
      refine ensures_pure ⟨busy.2, ?_, Function.update_self ..⟩
      intro other apart
      change (Function.update middle.inodes ino none other).map identity = _
      rw [Function.update_of_ne apart]
      exact same other
    apply look same
    intro found isFound
    rw [if_neg (here same isFound)]
    apply look same
    intro found isFound
    split_ifs with flagged
    · exact ensures_bind ((KeepsViews.fsync ino _).weaken id fun _ _ more => same.trans more)
        (fun _ _ kept => drop kept) fun _ _ kept => kept
    · exact drop same

end UCore.Fs
