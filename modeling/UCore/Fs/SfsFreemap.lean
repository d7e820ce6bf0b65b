import UCore.Fs.SfsBmap
import UCore.Fs.SfsIo
import UCore.Lib.Transition

/-!
Contract: the free map of a mounted file system stays exact.

Owns:
- the invariant of a mounted file system, and what keeps it;
- each operation on inodes keeps it, and reclaiming an inode without links removes that inode;
- runs of operations over any inodes.

An operation may stop the kernel, which then has no further state.

Does not own: what files contain.
-/

set_option autoImplicit false

namespace UCore.Fs

open UCore.Lib UCore.Lib.Program

variable {sfs after : SfsFs} {inos : List Nat} {ino index block : Nat} {sin sin' : SfsInode}

/-- An inode in memory that has no links has no blocks beyond its end. -/
def Trimmed (sfs : SfsFs) : Prop :=
  ∀ ino sin, sfs.inodes ino = some sin → sin.din.nlinks = 0 →
    ∀ index, slotAt sfs ino index ≠ 0 → index < sin.din.blocks

structure Mounted (inos : List Nat) (sfs : SfsFs) : Prop where
  consistent : Consistent sfs inos
  trimmed : Trimmed sfs

/-- The number of links of an inode in memory. -/
def linksOf (sfs : SfsFs) (ino : Nat) : Option Nat := (sfs.inodes ino).map fun sin => sin.din.nlinks

/-- The file system is still as it should be, with the same inodes in memory. -/
structure Keeps (inos : List Nat) (sfs after : SfsFs) : Prop where
  mounted : Mounted inos after
  links : ∀ ino, linksOf after ino = linksOf sfs ino

theorem Keeps.refl (mounted : Mounted inos sfs) : Keeps inos sfs sfs := ⟨mounted, fun _ => rfl⟩

theorem Keeps.trans {middle : SfsFs} (first : Keeps inos sfs middle)
    (second : Keeps inos middle after) : Keeps inos sfs after :=
  ⟨second.mounted, fun ino => (second.links ino).trans (first.links ino)⟩

theorem linksOf_loaded (loaded : sfs.inodes ino = some sin) :
    linksOf sfs ino = some sin.din.nlinks := by
  rw [linksOf, loaded]
  rfl

theorem linksOf_of_header (known : (after.inodes ino).isSome = (sfs.inodes ino).isSome)
    (header : (dinOf after ino).nlinks = (dinOf sfs ino).nlinks) :
    linksOf after ino = linksOf sfs ino := by
  unfold dinOf at header
  unfold linksOf
  cases before : sfs.inodes ino <;> cases now : after.inodes ino
  · rfl
  · rw [before, now] at known
    cases known
  · rw [before, now] at known
    cases known
  · rw [before, now] at header
    exact congrArg some header

/-! ## Changes that keep the invariant -/

theorem OnlySlot.sameBlocks (change : OnlySlot inos ino index sfs after) (member : ino ∈ inos) :
    Resized inos ino index (dinOf sfs ino).blocks sfs after where
  others := change.others
  loaded := change.loaded
  header := change.header ino member
  headers other isMember _ := change.header other isMember
  slots := change.slots
  data := change.data

/-- A slot and the number of blocks change. -/
theorem keeps_resized {blocks : Nat} (mounted : Mounted inos sfs)
    (consistent : Consistent after inos) (change : Resized inos ino index blocks sfs after)
    (filled : slotAt after ino index ≠ 0 → index < blocks)
    (below : ∀ place, place ≠ index → place < (dinOf sfs ino).blocks → place < blocks) :
    Keeps inos sfs after where
  mounted := by
    refine ⟨consistent, ?_⟩
    intro other sin loaded unlinked place nonempty
    have member := consistent.known other sin loaded
    by_cases same : other = ino
    · subst same
      have was : ∃ sin', sfs.inodes other = some sin' := by
        rw [← Option.isSome_iff_exists, ← change.loaded, loaded]
        rfl
      obtain ⟨sin', loaded'⟩ := was
      have header := change.header
      rw [dinOf_loaded loaded, dinOf_loaded loaded'] at header
      rw [dinOf_loaded loaded'] at below
      rw [header.blocks]
      by_cases atIndex : place = index
      · exact atIndex ▸ filled (atIndex ▸ nonempty)
      · rw [change.slots other member place (Or.inr atIndex)] at nonempty
        apply below place atIndex
        exact mounted.trimmed other sin' loaded' (header.nlinks.symm.trans unlinked) place nonempty
    · rw [change.slots other member place (Or.inl same)] at nonempty
      rw [change.others other same] at loaded
      exact mounted.trimmed other sin loaded unlinked place nonempty
  links other := by
    by_cases same : other = ino
    · subst same
      exact linksOf_of_header change.loaded change.header.nlinks
    · rw [linksOf, linksOf, change.others other same]

theorem keeps_refused {ret : Errno} (mounted : Mounted inos sfs) (member : ino ∈ inos)
    (refused : Refused inos ino index sfs ret after) : Keeps inos sfs after :=
  keeps_resized mounted refused.consistent (refused.change.sameBlocks member)
    (fun nonempty => absurd refused.still nonempty) fun _ _ inside => inside

/-- An inode in memory changes, its block map and its links apart. -/
theorem keeps_setInode (mounted : Mounted inos sfs) (loaded : sfs.inodes ino = some sin)
    (pointers : SamePointers sin'.din sin.din) (nlinks : sin'.din.nlinks = sin.din.nlinks)
    (blocks : sin'.din.blocks = sin.din.blocks)
    (dirty : sin'.dirty = false → sin.dirty = false) :
    Keeps inos sfs (sfs.setInode ino sin') where
  mounted := by
    refine ⟨mounted.consistent.setHeader loaded pointers dirty, ?_⟩
    intro other found isFound unlinked place nonempty
    rw [slotAt_setInode loaded pointers] at nonempty
    by_cases same : other = ino
    · subst same
      rw [setInode_self] at isFound
      obtain rfl := Option.some.inj isFound
      rw [blocks]
      exact mounted.trimmed other sin loaded (nlinks ▸ unlinked) place nonempty
    · rw [show (sfs.setInode ino sin').inodes other = sfs.inodes other from
        Function.update_of_ne same _ _] at isFound
      exact mounted.trimmed other found isFound unlinked place nonempty
  links other := by
    by_cases same : other = ino
    · subst same
      rw [linksOf_loaded setInode_self, linksOf_loaded loaded, nlinks]
    · rw [linksOf, linksOf, show (sfs.setInode ino sin').inodes other = sfs.inodes other from
        Function.update_of_ne same _ _]

/-- The contents of a slot's block change. -/
theorem keeps_setData {bytes : Bytes} (mounted : Mounted inos sfs) (member : ino ∈ inos)
    (slot : slotAt sfs ino index = block) (nonzero : block ≠ 0) :
    Keeps inos sfs (sfs.setBlock block bytes) where
  mounted := by
    have held : target sfs inos (.slot ino index) = some block := by
      rw [← slot] at nonzero ⊢
      exact target_of_slot member nonzero
    have unread := mounted.consistent.unread_of_slot held
    refine ⟨mounted.consistent.setBlock unread (mounted.consistent.slot_notInode held), ?_⟩
    intro other sin loaded unlinked place nonempty
    rw [unread.slotAt (mounted.consistent.known other sin loaded)] at nonempty
    exact mounted.trimmed other sin loaded unlinked place nonempty
  links _ := rfl

/-! ## Programs that keep the invariant -/

/-- From a mounted file system the program returns to one, or it stops. -/
def Preserves (inos : List Nat) {α : Type} (program : SfsM α) : Prop :=
  ∀ sfs, Mounted inos sfs → Ensures True program sfs fun _ after => Keeps inos sfs after

namespace Preserves

variable {α β : Type} {program : SfsM α}

theorem bind {second : α → SfsM β} (first : Preserves inos program)
    (rest : ∀ value, Preserves inos (second value)) : Preserves inos (program >>= second) := by
  intro sfs mounted
  apply ensures_bind (first sfs mounted)
  · intro value middle keeps
    exact (rest value middle keeps.mounted).weaken id fun _ _ keeps' => keeps.trans keeps'
  · exact fun _ _ keeps => keeps

theorem pure (value : α) : Preserves inos (pure value : SfsM α) :=
  fun _ mounted => ensures_pure (Keeps.refl mounted)

theorem assert (condition : Prop) [Decidable condition] : Preserves inos (assert condition) := by
  intro sfs mounted
  by_cases holds : condition
  · exact ensures_of_run (run_assert sfs holds) (Keeps.refl mounted)
  · unfold Ensures
    rw [show Fs.assert condition sfs = .error .assertFailed from if_neg holds]
    trivial

theorem ite {condition : Prop} [Decidable condition] {other : SfsM α}
    (yes : Preserves inos program) (no : Preserves inos other) :
    Preserves inos (if condition then program else other) := by
  split_ifs
  · exact yes
  · exact no

theorem attempt (preserves : Preserves inos program) : Preserves inos (Program.attempt program) :=
  fun sfs mounted => ensures_attempt (preserves sfs mounted)

theorem getSin (ino : Nat) : Preserves inos (getSin ino) := by
  intro sfs mounted
  cases loaded : sfs.inodes ino with
  | some sin => exact ensures_of_run (run_getSin loaded) (Keeps.refl mounted)
  | none =>
      unfold Ensures
      rw [Fs.getSin, run_bind (show Program.read sfs = .ok (.ok sfs, sfs) from rfl), loaded]
      trivial

end Preserves

/-- The inode is in memory, or the kernel stops. -/
theorem ensures_getSin {β : Type} {second : SfsInode → SfsM β} {post : Except Errno β → SfsFs → Prop}
    (rest : ∀ sin, sfs.inodes ino = some sin → Ensures True (second sin) sfs post) :
    Ensures True (getSin ino >>= second) sfs post := by
  cases loaded : sfs.inodes ino with
  | some sin => exact ensures_bind_run (run_getSin loaded) (rest sin loaded)
  | none =>
      have stops : getSin ino sfs = .error .panicked := by
        rw [getSin, run_bind (show Program.read sfs = .ok (.ok sfs, sfs) from rfl), loaded]
        rfl
      unfold Ensures
      simp only [bind, Program.bind, stops]

namespace Preserves

theorem updateDin {change : DiskInode → DiskInode}
    (pointers : ∀ din, SamePointers (change din) din)
    (nlinks : ∀ din : DiskInode, (change din).nlinks = din.nlinks)
    (blocks : ∀ din : DiskInode, (change din).blocks = din.blocks) :
    Preserves inos (updateDin ino change) := by
  intro sfs mounted
  apply ensures_getSin
  intro sin loaded
  exact keeps_setInode mounted loaded (pointers _) (nlinks _) (blocks _) id

theorem setSize (size : Nat) :
    Preserves inos (Fs.updateDin ino fun din => { din with size := size }) :=
  updateDin (fun _ => ⟨fun _ _ => rfl, rfl⟩) (fun _ => rfl) fun _ => rfl

theorem setDirty : Preserves inos (setDirty ino true) := by
  intro sfs mounted
  apply ensures_getSin
  intro sin loaded
  exact keeps_setInode mounted loaded ⟨fun _ _ => rfl, rfl⟩ rfl rfl nofun

end Preserves

/-! ## Loading, truncating and transferring -/

/-- Where a block was loaded, it is in a slot. -/
def LoadKeeps (inos : List Nat) (ino : Nat) (sfs : SfsFs) (result : Except Errno Nat)
    (after : SfsFs) : Prop :=
  Keeps inos sfs after ∧ ∀ block, result = .ok block →
    ino ∈ inos ∧ block ≠ 0 ∧ ∃ index, slotAt after ino index = block

theorem ensures_load (mounted : Mounted inos sfs) :
    Ensures True (sfsBmapLoadNolock ino index) sfs (LoadKeeps inos ino sfs) := by
  have consistent := mounted.consistent
  cases loaded : sfs.inodes ino with
  | none =>
      apply ensures_getSin
      intro sin isLoaded
      rw [loaded] at isLoaded
      cases isLoaded
  | some sin =>
      have member := consistent.known ino sin loaded
      apply (ensures_bmapLoad consistent loaded).weaken fun _ => trivial
      intro result after post
      cases result with
      | error ret => exact ⟨keeps_refused mounted member post.2, nofun⟩
      | ok block =>
          refine ⟨?_, ?_⟩
          · by_cases isBefore : index < (dinOf sfs ino).blocks
            · rw [post.before isBefore]
              exact Keeps.refl mounted
            · have inside := post.inside
              have atEnd : index = (dinOf sfs ino).blocks := by omega
              apply keeps_resized mounted post.consistent (post.atEnd atEnd)
              · intro _
                omega
              · intro place _ _
                omega
          · intro block' same
            cases same
            exact ⟨member, post.nonzero, index, post.slot⟩

namespace Preserves

theorem bmapLoad : Preserves inos (sfsBmapLoadNolock ino index) :=
  fun _ mounted => (ensures_load mounted).weaken id fun _ _ post => post.1

theorem bmapTruncate : Preserves inos (sfsBmapTruncateNolock ino) := by
  intro sfs mounted
  apply ensures_getSin
  intro sin loaded
  have consistent := mounted.consistent
  have member := consistent.known ino sin loaded
  have din := dinOf_loaded loaded
  apply ensures_assert
  · intro nonempty
    obtain ⟨after, freed, emptied, _⟩ :=
      @run_bmapFree sfs inos ino (sin.din.blocks - 1) sin consistent loaded
    apply ensures_bind_run freed
    have still : ∃ sin', after.inodes ino = some sin' := by
      rw [← Option.isSome_iff_exists, emptied.change.loaded, loaded]
      rfl
    obtain ⟨sin', loaded'⟩ := still
    have blocks : sin'.din.blocks = sin.din.blocks := by
      rw [← dinOf_loaded loaded', ← din]
      exact (emptied.change.header ino member).blocks
    let moved : SfsInode := { sin' with
      din := { sin'.din with blocks := sin'.din.blocks - 1 }
      dirty := true }
    have pointers : SamePointers moved.din sin'.din := ⟨fun _ _ => rfl, rfl⟩
    have ran : (do
        Fs.updateDin ino fun din => { din with blocks := din.blocks - 1 }
        Fs.setDirty ino true : SfsM Unit) after = .ok (.ok (), after.setInode ino moved) := by
      rw [run_bind (run_updateDin loaded'), run_setDirty setInode_self, setInode_setInode]
    apply ensures_of_run ran
    apply keeps_resized mounted (emptied.consistent.setHeader loaded' pointers nofun)
      (emptied.change.resized member loaded' (show moved.din = _ from rfl))
    · intro filled
      rw [slotAt_setInode loaded' pointers] at filled
      exact absurd emptied.empty filled
    · intro place apart inside
      rw [din, ← blocks] at inside
      rw [← blocks] at apart
      omega
  · exact fun _ => trivial

end Preserves

section Transfer

variable {len offset : Nat} (mounted : Mounted inos sfs) (member : ino ∈ inos)
  (slot : slotAt sfs ino index = block) (nonzero : block ≠ 0)
include mounted member slot nonzero

theorem Mounted.addressable : Addressable sfs block := by
  rw [← slot] at nonzero ⊢
  exact mounted.consistent.addressable_slot member nonzero

theorem ensures_wbuf (buf : Bytes) :
    Ensures True (sfsWbuf buf len block offset) sfs fun _ after => Keeps inos sfs after := by
  have addressable := mounted.addressable member slot nonzero
  by_cases inside : offset < sfsBlksize ∧ offset + len ≤ sfsBlksize
  · exact ensures_of_run (run_wbuf mounted.consistent.device addressable inside buf)
      (keeps_setData mounted member slot nonzero)
  · apply ensures_assert
    · exact fun holds => absurd holds inside
    · exact fun _ => trivial

theorem ensures_rbuf :
    Ensures True (sfsRbuf len block offset) sfs fun _ after => Keeps inos sfs after := by
  have addressable := mounted.addressable member slot nonzero
  by_cases inside : offset < sfsBlksize ∧ offset + len ≤ sfsBlksize
  · exact ensures_of_run (run_rbuf mounted.consistent.device addressable inside)
      (Keeps.refl mounted)
  · apply ensures_assert
    · exact fun holds => absurd holds inside
    · exact fun _ => trivial

theorem ensures_wblock (buf : Bytes) :
    Ensures True (sfsWblock buf block 1) sfs fun _ after => Keeps inos sfs after :=
  ensures_of_run (run_wblock mounted.consistent.device (mounted.addressable member slot nonzero) buf)
    (keeps_setData mounted member slot nonzero)

theorem ensures_rblock (buf : Bytes) (done : Nat) :
    Ensures True (sfsRblock buf done block 1) sfs fun _ after => Keeps inos sfs after :=
  ensures_of_run
    (run_rblock mounted.consistent.device (mounted.addressable member slot nonzero) buf done)
    (Keeps.refl mounted)

end Transfer

namespace Preserves

variable {write : Bool}

/-- A block is loaded and then transferred. -/
theorem loadThen {α : Type} {transfer : Nat → SfsM α}
    (rest : ∀ sfs index block, Mounted inos sfs → ino ∈ inos → slotAt sfs ino index = block →
      block ≠ 0 → Ensures True (transfer block) sfs fun _ after => Keeps inos sfs after) :
    Preserves inos (sfsBmapLoadNolock ino index >>= transfer) := by
  intro sfs mounted
  apply ensures_bind (ensures_load mounted)
  · intro block middle post
    obtain ⟨member, nonzero, place, slot⟩ := post.2 block rfl
    have mounted' := post.1.mounted
    apply (rest middle place block mounted' member slot nonzero).weaken id
    exact fun _ _ keeps => post.1.trans keeps
  · exact fun _ _ post => post.1

theorem thenPure {α β : Type} {program : SfsM α} {result : α → β}
    (ensures : Ensures True program sfs fun _ after => Keeps inos sfs after) :
    Ensures True (program >>= fun value => (Pure.pure (result value) : SfsM β)) sfs
      fun _ after => Keeps inos sfs after :=
  ensures_bind ensures (fun _ _ keeps => ensures_pure keeps) fun _ _ keeps => keeps

theorem ioBuf (size blkoff : Nat) (transfer : Transfer) :
    Preserves inos (ioBuf ino write size blkoff transfer) := by
  apply loadThen
  intro sfs place block mounted member slot nonzero
  cases write with
  | true => exact thenPure (ensures_wbuf mounted member slot nonzero _)
  | false => exact thenPure (ensures_rbuf mounted member slot nonzero)

theorem ioBlock (transfer : Transfer) : Preserves inos (ioBlock ino write transfer) := by
  apply loadThen
  intro sfs place block mounted member slot nonzero
  cases write with
  | true => exact thenPure (ensures_wblock mounted member slot nonzero _)
  | false => exact thenPure (ensures_rblock mounted member slot nonzero _ _)

theorem ioBlocks (nblks : Nat) (transfer : Transfer) :
    Preserves inos (ioBlocks ino write nblks transfer) := by
  induction nblks generalizing transfer with
  | zero => exact pure _
  | succ nblks inductionHypothesis =>
      apply bind (attempt (ioBlock transfer))
      intro result
      cases result with
      | error ret => exact pure _
      | ok moved => exact inductionHypothesis moved

theorem ioAligned (offset endpos nblks : Nat) (transfer : Transfer) :
    Preserves inos (ioAligned ino write offset endpos nblks transfer) := by
  apply bind (ioBlocks nblks transfer)
  rintro ⟨outcome, moved⟩
  cases outcome with
  | some ret => exact pure _
  | none =>
      apply ite
      · apply bind (attempt (ioBuf _ _ _))
        intro result
        cases result with
        | error ret => exact pure _
        | ok finished => exact pure _
      · exact pure _

theorem ioParts (offset endpos : Nat) (buf : Bytes) :
    Preserves inos (ioParts ino write offset endpos buf) := by
  apply ite
  · apply bind (attempt (ioBuf _ _ _))
    intro result
    cases result with
    | error ret => exact pure _
    | ok moved =>
        apply ite
        · exact pure _
        · exact ioAligned _ _ _ _
  · exact ioAligned _ _ _ _

/-- `sfs_io_nolock` -/
theorem ioNolock (buf : Bytes) (offset : Int) (length : Nat) :
    Preserves inos (sfsIoNolock ino buf offset length write) := by
  apply bind (getSin ino)
  intro sin
  apply bind (assert _)
  intro _
  apply ite (pure _)
  apply ite (pure _)
  apply ite (pure _)
  apply bind (ioParts _ _ buf)
  rintro ⟨ret, moved⟩
  apply bind (getSin ino)
  intro sin'
  apply ite
  · exact bind (setSize _) fun _ => bind setDirty fun _ => pure _
  · exact pure _

theorem truncfileGrow (nblks missing : Nat) : Preserves inos (truncfileGrow ino nblks missing) := by
  induction missing generalizing nblks with
  | zero => exact pure _
  | succ missing inductionHypothesis => exact bind bmapLoad fun _ => inductionHypothesis _

theorem truncfileShrink (excess : Nat) : Preserves inos (truncfileShrink ino excess) := by
  induction excess with
  | zero => exact pure _
  | succ excess inductionHypothesis => exact bind bmapTruncate fun _ => inductionHypothesis

end Preserves

theorem ensures_assert_last {condition : Prop} [Decidable condition]
    {post : Except Errno Unit → SfsFs → Prop} (holds : condition → post (.ok ()) sfs) :
    Ensures True (assert condition) sfs post := by
  by_cases met : condition
  · exact ensures_of_run (run_assert sfs met) (holds met)
  · unfold Ensures
    rw [show assert condition sfs = .error .assertFailed from if_neg met]
    trivial

/-- The number of blocks that an inode has after a program that succeeds. -/
def LeavesBlocks (ino tblks : Nat) (result : Except Errno Unit) (after : SfsFs) : Prop :=
  result = .ok () → ∃ sin, after.inodes ino = some sin ∧ sin.din.blocks = tblks

theorem ensures_truncfile_finish {tblks size : Nat} (mounted : Mounted inos sfs) :
    Ensures True (do
      let sin ← getSin ino
      assert (sin.din.blocks = tblks)
      updateDin ino fun din => { din with size := size }
      setDirty ino true : SfsM Unit) sfs
      fun result after => Keeps inos sfs after ∧ LeavesBlocks ino tblks result after := by
  apply ensures_getSin
  intro sin loaded
  apply ensures_assert
  · intro blocks
    let moved : SfsInode := { sin with din := { sin.din with size := size }, dirty := true }
    apply ensures_bind_run (run_updateDin loaded)
    have ran : setDirty ino true
        (sfs.setInode ino { sin with din := { sin.din with size := size } }) =
        .ok (.ok (), sfs.setInode ino moved) := by
      rw [run_setDirty setInode_self, setInode_setInode]
    apply ensures_of_run ran
    refine ⟨?_, fun _ => ⟨moved, setInode_self, blocks⟩⟩
    exact @keeps_setInode sfs inos ino sin moved mounted loaded ⟨fun _ _ => rfl, rfl⟩ rfl rfl nofun
  · exact fun _ => trivial

/-- Where truncating succeeds, the inode has just the blocks for its new size. -/
theorem ensures_truncfile {len : Int} (mounted : Mounted inos sfs) :
    Ensures True (sfsTruncfile ino len) sfs fun result after => Keeps inos sfs after ∧
      LeavesBlocks ino ((len.toNat + (sfsBlksize - 1)) / sfsBlksize) result after := by
  unfold sfsTruncfile
  split_ifs with invalid
  · exact ensures_fail ⟨Keeps.refl mounted, by rintro ⟨⟩⟩
  apply ensures_getSin
  intro sin loaded
  have finish : ∀ program : SfsM Unit, Preserves inos program → Ensures True (do
      program
      let sin ← getSin ino
      assert (sin.din.blocks = (len.toNat + (sfsBlksize - 1)) / sfsBlksize)
      updateDin ino fun din => { din with size := len.toNat }
      setDirty ino true : SfsM Unit) sfs fun result after => Keeps inos sfs after ∧
        LeavesBlocks ino ((len.toNat + (sfsBlksize - 1)) / sfsBlksize) result after := by
    intro program preserves
    apply ensures_bind (preserves sfs mounted)
    · intro _ middle keeps
      apply (ensures_truncfile_finish keeps.mounted).weaken id
      exact fun _ _ post => ⟨keeps.trans post.1, post.2⟩
    · exact fun _ _ keeps => ⟨keeps, by rintro ⟨⟩⟩
  simp only []
  split_ifs with same longer
  · apply ensures_assert_last
    exact fun blocks => ⟨Keeps.refl mounted, fun _ => ⟨sin, loaded, blocks.symm⟩⟩
  · exact finish _ (Preserves.truncfileGrow _ _)
  · exact finish _ (Preserves.truncfileShrink _)

/-! ## Loading and reclaiming inodes -/

theorem ofBytes_drop_zero (bytes : Bytes) : DiskInode.ofBytes (bytes.drop 0) = DiskInode.ofBytes bytes := by
  have same : bytes.drop 0 = bytes := by
    funext position
    rw [Bytes.drop, Nat.zero_add]
  rw [same]

/-- An inode comes into memory as it is on disk. -/
theorem mounted_fresh (mounted : Mounted inos sfs) (member : ino ∈ inos)
    (absent : sfs.inodes ino = none) (stored : sin.din = DiskInode.ofBytes (sfs.disk ino))
    (linked : sin.din.nlinks ≠ 0) : Mounted inos (sfs.setInode ino sin) := by
  have dins : ∀ other, dinOf (sfs.setInode ino sin) other = dinOf sfs other := by
    intro other
    by_cases same : other = ino
    · rw [same, dinOf_loaded setInode_self, dinOf_unloaded absent, stored]
    · exact dinOf_setInode_of_ne same
  have slots : ∀ other index, slotAt (sfs.setInode ino sin) other index = slotAt sfs other index := by
    intro other index
    unfold slotAt
    rw [dins]
    rfl
  have sameTarget : target (sfs.setInode ino sin) inos = target sfs inos :=
    target_congr rfl (fun other _ => congrArg DiskInode.indirect (dins other))
      fun other _ index => slots other index
  have elsewhere : ∀ other, other ≠ ino → (sfs.setInode ino sin).inodes other = sfs.inodes other :=
    fun other apart => Function.update_of_ne apart _ _
  refine ⟨⟨?_, mounted.consistent.device.congr ⟨rfl, rfl, rfl⟩, ?_, ?_⟩, ?_⟩
  · rw [sameTarget]
    exact mounted.consistent.exact
  · intro other found isFound
    by_cases same : other = ino
    · exact same ▸ member
    · rw [elsewhere other same] at isFound
      exact mounted.consistent.known other found isFound
  · intro other found isFound isClean
    by_cases same : other = ino
    · subst same
      rw [setInode_self] at isFound
      obtain rfl := Option.some.inj isFound
      rw [stored]
      exact ⟨fun _ _ => rfl, rfl⟩
    · rw [elsewhere other same] at isFound
      exact mounted.consistent.clean other found isFound isClean
  · intro other found isFound unlinked index nonempty
    rw [slots] at nonempty
    by_cases same : other = ino
    · subst same
      rw [setInode_self] at isFound
      obtain rfl := Option.some.inj isFound
      exact absurd unlinked linked
    · rw [elsewhere other same] at isFound
      exact mounted.trimmed other found isFound unlinked index nonempty

/-- `sfs_load_inode` of an inode of the image. -/
theorem ensures_loadInode (mounted : Mounted inos sfs) (member : ino ∈ inos) :
    Ensures True (sfsLoadInode ino) sfs fun _ after => Mounted inos after ∧
      ∀ other, linksOf sfs other ≠ none → linksOf after other = linksOf sfs other := by
  apply ensures_read
  cases loaded : sfs.inodes ino with
  | some sin =>
      apply ensures_modify_last
      have keeps := @keeps_setInode sfs inos ino sin { sin with
        refCount := sin.refCount + 1
        reclaimCount := if sin.refCount + 1 = 1 then sin.reclaimCount + 1 else sin.reclaimCount }
        mounted loaded ⟨fun _ _ => rfl, rfl⟩ rfl rfl id
      exact ⟨keeps.mounted, fun other _ => keeps.links other⟩
  | none =>
      have addressable := mounted.consistent.of_held (target_of_inode member) nofun
      have used := mounted.consistent.used (target_of_inode member)
      apply ensures_bind_run (run_inuse mounted.consistent.device addressable)
      apply ensures_bind_run (run_assert sfs (by rw [used]; rfl))
      apply ensures_bind_run (run_rbuf mounted.consistent.device addressable (by decide))
      simp only [ofBytes_drop_zero]
      apply ensures_assert
      · intro linked
        unfold sfsGetOps
        split_ifs
        · apply ensures_bind_run (show (pure () : SfsM Unit) sfs = .ok (.ok (), sfs) from rfl)
          apply ensures_modify_last
          refine ⟨mounted_fresh mounted member loaded rfl linked, ?_⟩
          intro other present
          have apart : other ≠ ino := by
            rintro rfl
            rw [linksOf, loaded] at present
            exact present rfl
          unfold linksOf
          rw [show (sfs.setInode ino _).inodes other = sfs.inodes other from
            Function.update_of_ne apart _ _]
        · unfold Ensures
          simp only [bind, Program.bind, Program.stop]
      · exact fun _ => trivial

/-- The pointers of an inode in memory are block numbers. -/
theorem Consistent.pointer_small (consistent : Consistent sfs inos)
    (loaded : sfs.inodes ino = some sin) :
    (∀ index, index < sfsNdirect → sin.din.direct index < 2 ^ 32) ∧ sin.din.indirect < 2 ^ 32 := by
  have member := consistent.known ino sin loaded
  have small : ∀ reference block, target sfs inos reference = some block → block < 2 ^ 32 :=
    fun reference block held => consistent.block_small (consistent.exact.inRange reference block held)
  constructor
  · intro index direct
    by_cases zero : sin.din.direct index = 0
    · rw [zero]
      decide
    · have slot : slotAt sfs ino index = sin.din.direct index := by
        rw [slotAt_loaded loaded, slotOf_direct direct]
      rw [← slot] at zero ⊢
      exact small _ _ (target_of_slot member zero)
  · by_cases zero : sin.din.indirect = 0
    · rw [zero]
      decide
    · rw [← dinOf_loaded loaded] at zero ⊢
      exact small _ _ (target_of_indirect member zero)

/-- The inode is written to its block, and is clean. -/
theorem keeps_stored {bytes : Bytes} (mounted : Mounted inos sfs)
    (loaded : sfs.inodes ino = some sin)
    (stored : bytes = (sfs.disk ino).overlay 0 diskInodeSize sin.din.toBytes) :
    Keeps inos sfs ((sfs.setInode ino { sin with dirty := false }).setBlock ino bytes) := by
  have consistent := mounted.consistent
  have unread := consistent.unread_of_loaded loaded
  let cleaned : SfsInode := { sin with dirty := false }
  have here : ((sfs.setInode ino cleaned).setBlock ino bytes).inodes ino = some cleaned :=
    setInode_self
  have dins : ∀ other, other ∈ inos →
      dinOf ((sfs.setInode ino cleaned).setBlock ino bytes) other = dinOf sfs other := by
    intro other member
    by_cases same : other = ino
    · subst same
      exact (dinOf_loaded here).trans (dinOf_loaded loaded).symm
    · exact dinOf_congr (Function.update_of_ne same _ _) fun _ => Function.update_of_ne same _ _
  have slots : ∀ other, other ∈ inos → ∀ index,
      slotAt ((sfs.setInode ino cleaned).setBlock ino bytes) other index =
        slotAt sfs other index := by
    intro other member index
    unfold slotAt
    rw [dins other member]
    exact slotOf_congr ⟨fun _ _ => rfl, rfl⟩ fun nonzero =>
      Function.update_of_ne (unread.notIndirect other member nonzero) _ _
  have sameTarget : target ((sfs.setInode ino cleaned).setBlock ino bytes) inos = target sfs inos :=
    target_congr rfl (fun other member => congrArg DiskInode.indirect (dins other member)) slots
  have elsewhere : ∀ other, other ≠ ino →
      ((sfs.setInode ino cleaned).setBlock ino bytes).inodes other = sfs.inodes other :=
    fun other apart => Function.update_of_ne apart _ _
  obtain ⟨smallDirect, smallIndirect⟩ := consistent.pointer_small loaded
  refine ⟨⟨⟨?_, consistent.device.congr ⟨rfl, rfl, rfl⟩, ?_, ?_⟩, ?_⟩, ?_⟩
  · rw [sameTarget]
    exact consistent.exact
  · intro other found isFound
    by_cases same : other = ino
    · exact same ▸ consistent.known ino sin loaded
    · rw [elsewhere other same] at isFound
      exact consistent.known other found isFound
  · intro other found isFound isClean
    by_cases same : other = ino
    · subst same
      rw [here] at isFound
      obtain rfl := Option.some.inj isFound
      have disk : ((sfs.setInode other cleaned).setBlock other bytes).disk other = bytes :=
        Function.update_self _ _ _
      rw [disk, stored]
      constructor
      · intro index direct
        rw [DiskInode.stored_direct direct, Nat.mod_eq_of_lt (smallDirect index direct)]
      · rw [DiskInode.stored_indirect, Nat.mod_eq_of_lt smallIndirect]
    · rw [elsewhere other same] at isFound
      have disk : ((sfs.setInode ino cleaned).setBlock ino bytes).disk other = sfs.disk other :=
        Function.update_of_ne same _ _
      rw [disk]
      exact consistent.clean other found isFound isClean
  · intro other found isFound unlinked index nonempty
    by_cases same : other = ino
    · subst same
      rw [here] at isFound
      obtain rfl := Option.some.inj isFound
      rw [slots other (consistent.known other sin loaded)] at nonempty
      exact mounted.trimmed other sin loaded unlinked index nonempty
    · rw [elsewhere other same] at isFound
      rw [slots other (consistent.known other found isFound)] at nonempty
      exact mounted.trimmed other found isFound unlinked index nonempty
  · intro other
    by_cases same : other = ino
    · subst same
      exact (linksOf_loaded here).trans (linksOf_loaded loaded).symm
    · rw [linksOf, linksOf, elsewhere other same]

/-- `sfs_fsync` leaves the inode clean and does not fail. -/
theorem ensures_fsync (mounted : Mounted inos sfs) :
    Ensures True (sfsFsync ino) sfs fun _ after => Keeps inos sfs after ∧
      ∃ sin, sfs.inodes ino = some sin ∧ after.inodes ino = some { sin with dirty := false } := by
  apply ensures_getSin
  intro sin loaded
  by_cases dirty : sin.dirty = true
  · rw [if_pos dirty]
    have member := mounted.consistent.known ino sin loaded
    have addressable : Addressable (sfs.setInode ino { sin with dirty := false }) ino :=
      mounted.consistent.of_held (target_of_inode member) nofun
    have device : OnDevice (sfs.setInode ino { sin with dirty := false }) :=
      mounted.consistent.device.congr ⟨rfl, rfl, rfl⟩
    have written := @run_wbuf _ _ diskInodeSize 0 device addressable (by decide) sin.din.toBytes
    apply ensures_bind_run (run_setDirty loaded)
    apply ensures_bind_run (run_attempt written)
    apply ensures_pure
    exact ⟨keeps_stored mounted loaded rfl, sin, loaded, setInode_self⟩
  · rw [if_neg dirty]
    apply ensures_pure
    refine ⟨Keeps.refl mounted, sin, loaded, ?_⟩
    have same : sin.dirty = false := by simpa using dirty
    rw [loaded, ← same]

/-! ## Inodes that leave the memory -/

/-- The inodes of the image after an operation. One without links is gone when it leaves the
memory. -/
def remaining (before after : SfsFs) (inos : List Nat) : List Nat :=
  inos.filter fun ino => decide ¬ (linksOf before ino = some 0 ∧ (after.inodes ino).isNone = true)

/-- The file system after an operation, which may have removed an inode. -/
def Stepped (inos : List Nat) (before after : SfsFs) : Prop :=
  Mounted (remaining before after inos) after

theorem remaining_all (still : ∀ ino, linksOf sfs ino = some 0 → (after.inodes ino).isNone = false) :
    remaining sfs after inos = inos := by
  apply List.filter_eq_self.mpr
  intro ino _
  apply decide_eq_true
  rintro ⟨unlinked, gone⟩
  rw [still ino unlinked] at gone
  cases gone

theorem isNone_of_links {links : Nat} (present : linksOf sfs ino = some links) :
    (sfs.inodes ino).isNone = false := by
  unfold linksOf at present
  cases loaded : sfs.inodes ino with
  | none =>
      rw [loaded] at present
      cases present
  | some sin => rfl

theorem Keeps.stepped (keeps : Keeps inos sfs after) : Stepped inos sfs after := by
  have all : remaining sfs after inos = inos := by
    apply remaining_all
    intro ino unlinked
    exact isNone_of_links ((keeps.links ino).trans unlinked)
  unfold Stepped
  rw [all]
  exact keeps.mounted

theorem Stepped.after_keeps {middle : SfsFs} (keeps : Keeps inos sfs middle)
    (stepped : Stepped inos middle after) : Stepped inos sfs after := by
  have same : remaining sfs after inos = remaining middle after inos := by
    unfold remaining
    apply List.filter_congr
    intro ino _
    rw [keeps.links ino]
  unfold Stepped
  rw [same]
  exact stepped

def SfsFs.dropInode (sfs : SfsFs) (ino : Nat) : SfsFs :=
  { sfs with inodes := Function.update sfs.inodes ino none }

theorem dropInode_of_ne {other : Nat} (apart : other ≠ ino) :
    (sfs.dropInode ino).inodes other = sfs.inodes other :=
  Function.update_of_ne apart _ _

theorem dinOf_dropInode_of_ne {other : Nat} (apart : other ≠ ino) :
    dinOf (sfs.dropInode ino) other = dinOf sfs other :=
  dinOf_congr (dropInode_of_ne apart) fun _ => rfl

/-- A clean inode with links leaves the memory. -/
theorem stepped_linked (mounted : Mounted inos sfs) (loaded : sfs.inodes ino = some sin)
    (clean : sin.dirty = false) (linked : sin.din.nlinks ≠ 0) :
    Stepped inos sfs (sfs.dropInode ino) := by
  have consistent := mounted.consistent
  have pointers := consistent.clean ino sin loaded clean
  have gone : (sfs.dropInode ino).inodes ino = none := Function.update_self _ _ _
  have all : remaining sfs (sfs.dropInode ino) inos = inos := by
    apply remaining_all
    intro other unlinked
    have apart : other ≠ ino := by
      rintro rfl
      rw [linksOf_loaded loaded] at unlinked
      exact linked (Option.some.inj unlinked)
    rw [dropInode_of_ne apart]
    exact isNone_of_links unlinked
  have indirects : ∀ other, other ∈ inos →
      (dinOf (sfs.dropInode ino) other).indirect = (dinOf sfs other).indirect := by
    intro other _
    by_cases same : other = ino
    · rw [same, dinOf_unloaded gone, dinOf_loaded loaded, pointers.2]
      rfl
    · rw [dinOf_dropInode_of_ne same]
  have slots : ∀ other, other ∈ inos → ∀ index,
      slotAt (sfs.dropInode ino) other index = slotAt sfs other index := by
    intro other _ index
    unfold slotAt
    by_cases same : other = ino
    · rw [same, dinOf_unloaded gone, dinOf_loaded loaded]
      exact slotOf_congr pointers.symm fun _ => rfl
    · rw [dinOf_dropInode_of_ne same]
      rfl
  have sameTarget : target (sfs.dropInode ino) inos = target sfs inos :=
    target_congr rfl indirects slots
  have kept : ∀ other found, (sfs.dropInode ino).inodes other = some found →
      sfs.inodes other = some found := by
    intro other found isFound
    by_cases same : other = ino
    · rw [same, gone] at isFound
      cases isFound
    · rwa [dropInode_of_ne same] at isFound
  unfold Stepped
  rw [all]
  refine ⟨⟨?_, consistent.device.congr ⟨rfl, rfl, rfl⟩, ?_, ?_⟩, ?_⟩
  · rw [sameTarget]
    exact consistent.exact
  · exact fun other found isFound => consistent.known other found (kept other found isFound)
  · exact fun other found isFound => consistent.clean other found (kept other found isFound)
  · intro other found isFound unlinked index nonempty
    have was := kept other found isFound
    rw [slots other (consistent.known other found was)] at nonempty
    exact mounted.trimmed other found was unlinked index nonempty

theorem inode_ne_indirect {other ino : Nat} : Reference.inode other ≠ .indirect ino := by
  rintro ⟨⟩

theorem indirect_ne_inode {other ino : Nat} : Reference.indirect other ≠ .inode ino :=
  inode_ne_indirect.symm

/-- What the references hold after the inode `ino` was freed. -/
theorem target_freed (final : SfsFs) (blocks : final.blocks = sfs.blocks)
    (inodes : final.inodes = (sfs.dropInode ino).inodes) (disk : final.disk = sfs.disk)
    (empty : ∀ index, slotAt sfs ino index = 0) :
    target final (inos.filter fun other => decide (other ≠ ino)) =
      Function.update (Function.update (target sfs inos) (.inode ino) none) (.indirect ino) none := by
  have members : ∀ other, other ∈ (inos.filter fun other => decide (other ≠ ino)) ↔
      other ∈ inos ∧ other ≠ ino := by
    intro other
    rw [List.mem_filter, decide_eq_true_eq]
  have dins : ∀ other, other ≠ ino → dinOf final other = dinOf sfs other := fun other apart =>
    dinOf_congr ((congrFun inodes other).trans (dropInode_of_ne apart)) fun _ => congrFun disk other
  have slots : ∀ other, other ≠ ino → ∀ index, slotAt final other index = slotAt sfs other index := by
    intro other apart index
    unfold slotAt
    rw [dins other apart, disk]
  have elsewhere : ∀ reference, reference ≠ .inode ino → reference ≠ .indirect ino →
      Function.update (Function.update (target sfs inos) (.inode ino) none) (.indirect ino) none
        reference = target sfs inos reference := by
    intro reference notInode notIndirect
    rw [Function.update_of_ne notIndirect, Function.update_of_ne notInode]
  funext reference
  cases reference with
  | metadata block =>
      rw [elsewhere (.metadata block) (by rintro ⟨⟩) (by rintro ⟨⟩)]
      exact metadata_target_congr blocks
  | inode other =>
      by_cases same : other = ino
      · subst same
        rw [Function.update_of_ne inode_ne_indirect, Function.update_self]
        exact if_neg fun member => ((members other).mp member).2 rfl
      · rw [elsewhere (.inode other) (fun equal => same (Reference.inode.inj equal))
          inode_ne_indirect]
        apply if_congr _ rfl rfl
        rw [members]
        exact and_iff_left same
  | indirect other =>
      by_cases same : other = ino
      · subst same
        rw [Function.update_self]
        exact if_neg fun member => ((members other).mp member).2 rfl
      · rw [elsewhere (.indirect other) indirect_ne_inode fun equal =>
          same (Reference.indirect.inj equal), target, dins other same]
        apply if_congr _ rfl rfl
        rw [members]
        exact and_iff_left same
  | slot other index =>
      rw [elsewhere (.slot other index) (by rintro ⟨⟩) (by rintro ⟨⟩)]
      by_cases same : other = ino
      · subst same
        rw [target, target, empty, present_zero, ite_self,
          if_neg fun member => ((members other).mp member).2 rfl]
      · rw [target, target, slots other same]
        apply if_congr _ rfl rfl
        rw [members]
        exact and_iff_left same

section Freed

variable (mounted : Mounted inos sfs) (loaded : sfs.inodes ino = some sin)
  (unlinked : sin.din.nlinks = 0) (cut : sin.din.blocks = 0)
include mounted loaded unlinked cut

omit unlinked in
theorem empty_of_cut (unlinked : sin.din.nlinks = 0) (index : Nat) : slotAt sfs ino index = 0 := by
  by_contra nonempty
  have inside := mounted.trimmed ino sin loaded unlinked index nonempty
  omega

/-- An inode without links and without blocks leaves the memory and is freed. -/
theorem stepped_freed (final : SfsFs) (device : SameDevice sfs final)
    (inodes : final.inodes = (sfs.dropInode ino).inodes) (disk : final.disk = sfs.disk)
    (exact : Exact sfs.blocks final.freemap final.unusedBlocks
      (Function.update (Function.update (target sfs inos) (.inode ino) none) (.indirect ino) none)) :
    Stepped inos sfs final := by
  have consistent := mounted.consistent
  have gone : final.inodes ino = none :=
    (congrFun inodes ino).trans (Function.update_self _ _ _)
  have kept : ∀ other found, final.inodes other = some found →
      sfs.inodes other = some found ∧ other ≠ ino := by
    intro other found isFound
    by_cases same : other = ino
    · rw [same, gone] at isFound
      cases isFound
    · rw [congrFun inodes other, dropInode_of_ne same] at isFound
      exact ⟨isFound, same⟩
  have left : remaining sfs final inos = inos.filter fun other => decide (other ≠ ino) := by
    apply List.filter_congr
    intro other _
    apply decide_eq_decide.mpr
    by_cases same : other = ino
    · subst same
      rw [linksOf_loaded loaded, unlinked, gone]
      simp
    · refine iff_of_true ?_ same
      rintro ⟨noLinks, isGone⟩
      rw [congrFun inodes other, dropInode_of_ne same, isNone_of_links noLinks] at isGone
      cases isGone
  have members : ∀ other, other ∈ inos → other ≠ ino →
      other ∈ inos.filter fun other => decide (other ≠ ino) := by
    intro other member apart
    exact List.mem_filter.mpr ⟨member, decide_eq_true apart⟩
  have empty := empty_of_cut mounted loaded cut unlinked
  unfold Stepped
  rw [left]
  refine ⟨⟨?_, consistent.device.congr device, ?_, ?_⟩, ?_⟩
  · rw [device.blocks, target_freed final device.blocks inodes disk empty]
    exact exact
  · intro other found isFound
    obtain ⟨was, apart⟩ := kept other found isFound
    exact members other (consistent.known other found was) apart
  · intro other found isFound isClean
    rw [disk]
    exact consistent.clean other found (kept other found isFound).1 isClean
  · intro other found isFound noLinks index nonempty
    obtain ⟨was, apart⟩ := kept other found isFound
    have sameSlot : slotAt final other index = slotAt sfs other index := by
      unfold slotAt
      rw [dinOf_congr ((congrFun inodes other).trans (dropInode_of_ne apart))
        fun _ => congrFun disk other, disk]
    rw [sameSlot] at nonempty
    exact mounted.trimmed other found was noLinks index nonempty

/-- The end of `sfs_reclaim` for an inode without links. -/
theorem ensures_free :
    Ensures True (do
      sfsBlockFree ino
      if sin.din.indirect ≠ 0 then sfsBlockFree sin.din.indirect else pure () : SfsM Unit)
      (sfs.dropInode ino) fun _ after => Stepped inos sfs after := by
  have consistent := mounted.consistent
  have member := consistent.known ino sin loaded
  have heldInode : target sfs inos (.inode ino) = some ino := target_of_inode member
  have device : OnDevice (sfs.dropInode ino) := consistent.device.congr ⟨rfl, rfl, rfl⟩
  have addressable : Addressable (sfs.dropInode ino) ino :=
    consistent.of_held heldInode (by rintro ⟨⟩)
  have released := consistent.exact.release heldInode
  apply ensures_bind_run (run_blockFree device addressable (consistent.used heldInode))
  by_cases none : sin.din.indirect = 0
  · rw [if_neg (not_not.mpr none)]
    apply ensures_pure
    apply stepped_freed mounted loaded unlinked cut ((sfs.dropInode ino).give ino)
      ⟨rfl, rfl, rfl⟩ rfl rfl
    have vacant : Function.update (target sfs inos) (.inode ino) Option.none (.indirect ino) =
        Option.none := by
      rw [Function.update_of_ne indirect_ne_inode, target, if_pos member, dinOf_loaded loaded, none, present_zero]
    rw [Function.update_eq_self_iff.mpr vacant.symm]
    exact released
  · rw [if_pos none]
    have held : target sfs inos (.indirect ino) = some sin.din.indirect := by
      rw [← dinOf_loaded loaded] at none ⊢
      exact target_of_indirect member none
    have apart : sin.din.indirect ≠ ino := by
      intro same
      have twice := consistent.exact.once _ _ _ held (same ▸ heldInode)
      cases twice
    have used : ((sfs.dropInode ino).give ino).freemap sin.din.indirect = false :=
      (Function.update_of_ne apart _ _).trans (consistent.used held)
    have device' : OnDevice ((sfs.dropInode ino).give ino) := device.congr ⟨rfl, rfl, rfl⟩
    have addressable' : Addressable ((sfs.dropInode ino).give ino) sin.din.indirect :=
      consistent.of_held held (by rintro ⟨⟩)
    apply ensures_of_run (run_blockFree device' addressable' used)
    apply stepped_freed mounted loaded unlinked cut
      (((sfs.dropInode ino).give ino).give sin.din.indirect) ⟨rfl, rfl, rfl⟩ rfl rfl
    have held' : Function.update (target sfs inos) (.inode ino) Option.none (.indirect ino) =
        some sin.din.indirect := by
      rw [Function.update_of_ne indirect_ne_inode, held]
    exact released.release held'

end Freed

/-- `vop_truncate` to nothing. -/
theorem ensures_vopTruncate (mounted : Mounted inos sfs) :
    Ensures True (vopTruncate ino 0) sfs fun result after => Keeps inos sfs after ∧
      LeavesBlocks ino 0 result after := by
  apply ensures_getSin
  intro sin _
  apply ensures_assert
  · exact fun _ => ensures_truncfile mounted
  · exact fun _ => trivial

/-- The end of `sfs_reclaim`: a clean inode, without blocks where it has no links. -/
theorem ensures_remove (mounted : Mounted inos sfs)
    (clean : ∀ sin, sfs.inodes ino = some sin → sin.dirty = false)
    (cut : ∀ sin, sfs.inodes ino = some sin → sin.din.nlinks = 0 → sin.din.blocks = 0) :
    Ensures True (do
      let sin ← getSin ino
      removeSin ino
      if sin.din.nlinks = 0 then do
        sfsBlockFree ino
        if sin.din.indirect ≠ 0 then sfsBlockFree sin.din.indirect else pure ()
      else pure () : SfsM Unit) sfs fun _ after => Stepped inos sfs after := by
  apply ensures_getSin
  intro sin loaded
  apply ensures_modify
  by_cases unlinked : sin.din.nlinks = 0
  · rw [if_pos unlinked]
    exact ensures_free mounted loaded unlinked (cut sin loaded unlinked)
  · rw [if_neg unlinked]
    exact ensures_pure (stepped_linked mounted loaded (clean sin loaded) unlinked)

/-- The middle of `sfs_reclaim`: an inode that has no blocks where it has no links. -/
theorem ensures_syncRemove (mounted : Mounted inos sfs)
    (cut : ∀ sin, sfs.inodes ino = some sin → sin.din.nlinks = 0 → sin.din.blocks = 0) :
    Ensures True (do
      let sin ← getSin ino
      if sin.dirty = true then sfsFsync ino else pure ()
      let sin ← getSin ino
      removeSin ino
      if sin.din.nlinks = 0 then do
        sfsBlockFree ino
        if sin.din.indirect ≠ 0 then sfsBlockFree sin.din.indirect else pure ()
      else pure () : SfsM Unit) sfs fun _ after => Stepped inos sfs after := by
  apply ensures_getSin
  intro sin loaded
  simp only []
  split_ifs with dirty
  · apply ensures_bind (ensures_fsync mounted)
    · rintro _ middle ⟨keeps, sin', was, now⟩
      apply (@ensures_remove middle inos ino keeps.mounted _ _).weaken id
      · exact fun _ _ stepped => Stepped.after_keeps keeps stepped
      · intro found isFound
        rw [now] at isFound
        rw [← Option.some.inj isFound]
      · intro found isFound
        rw [now] at isFound
        rw [← Option.some.inj isFound]
        exact cut sin' was
    · exact fun _ _ post => post.1.stepped
  · apply ensures_remove mounted
    · intro found isFound
      rw [loaded] at isFound
      rw [← Option.some.inj isFound]
      simpa using dirty
    · exact cut

/-- The part of `sfs_reclaim` after its checks. -/
theorem ensures_reclaimUnused (mounted : Mounted inos sfs) :
    Ensures True (reclaimUnused ino) sfs fun _ after => Stepped inos sfs after := by
  apply ensures_getSin
  intro sin loaded
  simp only []
  split_ifs with unlinked
  · apply ensures_bind (ensures_vopTruncate mounted)
    · rintro _ middle ⟨keeps, leaves⟩
      apply (ensures_syncRemove keeps.mounted _).weaken id
      · exact fun _ _ stepped => Stepped.after_keeps keeps stepped
      · intro found isFound _
        obtain ⟨sin', loaded', blocks⟩ := leaves rfl
        rw [loaded'] at isFound
        rw [← Option.some.inj isFound, blocks]
    · exact fun _ _ post => post.1.stepped
  · apply ensures_syncRemove mounted
    intro found isFound noLinks
    rw [loaded] at isFound
    rw [← Option.some.inj isFound] at noLinks
    exact absurd noLinks unlinked

/-- `sfs_reclaim` -/
theorem ensures_reclaim (mounted : Mounted inos sfs) :
    Ensures True (sfsReclaim ino) sfs fun _ after => Stepped inos sfs after := by
  apply ensures_getSin
  intro sin loaded
  apply ensures_assert
  · intro _
    have keeps := @keeps_setInode sfs inos ino sin
      { sin with reclaimCount := sin.reclaimCount - 1 } mounted loaded ⟨fun _ _ => rfl, rfl⟩ rfl rfl id
    apply ensures_modify
    split_ifs
    · exact ensures_fail keeps.stepped
    · apply (ensures_reclaimUnused keeps.mounted).weaken id
      exact fun _ _ stepped => Stepped.after_keeps keeps stepped
  · exact fun _ => trivial

/-- `inode_ref_dec` -/
theorem ensures_refDec (mounted : Mounted inos sfs) :
    Ensures True (vopRefDec ino) sfs fun _ after => Stepped inos sfs after := by
  apply ensures_getSin
  intro sin loaded
  apply ensures_assert
  · intro _
    have keeps := @keeps_setInode sfs inos ino sin
      { sin with refCount := sin.refCount - 1 } mounted loaded ⟨fun _ _ => rfl, rfl⟩ rfl rfl id
    apply ensures_modify
    split_ifs
    · have reclaimed : Ensures True (Program.attempt (sfsReclaim ino))
          (sfs.setInode ino { sin with refCount := sin.refCount - 1 })
          fun _ after => Stepped inos sfs after :=
        ensures_attempt ((ensures_reclaim keeps.mounted).weaken id
          fun _ _ stepped => Stepped.after_keeps keeps stepped)
      apply ensures_bind reclaimed
      · exact fun _ _ stepped => ensures_pure stepped
      · exact fun _ _ stepped => stepped
    · exact ensures_pure keeps.stepped
  · exact fun _ => trivial

/-! ## Runs -/

/-- The operations of a run, on any inode. -/
inductive SfsEvent
  | io (ino : Nat) (buf : Bytes) (offset : Int) (length : Nat) (write : Bool)
  | truncate (ino : Nat) (len : Int)
  | bmapLoad (ino index : Nat)
  | bmapTruncate (ino : Nat)
  | loadInode (ino : Nat)
  | fsync (ino : Nat)
  | reclaim (ino : Nat)
  | refDec (ino : Nat)

def SfsEvent.run : SfsEvent → SfsM Unit
  | .io ino buf offset length write => do
      let _ ← sfsIoNolock ino buf offset length write
      pure ()
  | .truncate ino len => sfsTruncfile ino len
  | .bmapLoad ino index => do
      let _ ← sfsBmapLoadNolock ino index
      pure ()
  | .bmapTruncate ino => sfsBmapTruncateNolock ino
  | .loadInode ino => sfsLoadInode ino
  | .fsync ino => sfsFsync ino
  | .reclaim ino => sfsReclaim ino
  | .refDec ino => vopRefDec ino

/-- A mounted file system and the inodes of its image. -/
structure Volume where
  sfs : SfsFs
  inos : List Nat

/-- Only inodes of the image are loaded. An operation may return an error. -/
def sfsMachine : Machine Volume SfsEvent Stop where
  Admits volume event :=
    match event with
    | .loadInode ino => ino ∈ volume.inos
    | _ => True
  answer volume event :=
    match event.run volume.sfs with
    | .error stop => .error stop
    | .ok (_, after) => .ok ⟨after, remaining volume.sfs after volume.inos⟩

theorem ensures_event {event : SfsEvent} (mounted : Mounted inos sfs)
    (admitted : sfsMachine.Admits ⟨sfs, inos⟩ event) :
    Ensures True event.run sfs fun _ after => Stepped inos sfs after := by
  have ofPreserves : ∀ {program : SfsM Unit}, Preserves inos program →
      Ensures True program sfs fun _ after => Stepped inos sfs after :=
    fun preserves => (preserves sfs mounted).weaken id fun _ _ keeps => keeps.stepped
  cases event with
  | io ino buf offset length write =>
      exact ofPreserves ((Preserves.ioNolock buf offset length).bind fun _ => Preserves.pure _)
  | truncate ino len =>
      exact (ensures_truncfile mounted).weaken id fun _ _ post => post.1.stepped
  | bmapLoad ino index => exact ofPreserves (Preserves.bmapLoad.bind fun _ => Preserves.pure _)
  | bmapTruncate ino => exact ofPreserves Preserves.bmapTruncate
  | loadInode ino =>
      apply (ensures_loadInode mounted admitted).weaken id
      rintro _ after ⟨mounted', links⟩
      have all : remaining sfs after inos = inos := by
        apply remaining_all
        intro other unlinked
        have still := links other (by rw [unlinked]; exact nofun)
        exact isNone_of_links (still.trans unlinked)
      unfold Stepped
      rwa [all]
  | fsync ino => exact (ensures_fsync mounted).weaken id fun _ _ post => post.1.stepped
  | reclaim ino => exact ensures_reclaim mounted
  | refDec ino => exact ensures_refDec mounted

theorem mounted_step {before after : Volume} {event : SfsEvent}
    (mounted : Mounted before.inos before.sfs) (step : sfsMachine.Step before event after) :
    Mounted after.inos after.sfs := by
  obtain ⟨admitted, answered⟩ := step
  have ensures := ensures_event mounted admitted
  unfold sfsMachine at answered
  cases ran : event.run before.sfs with
  | error stop =>
      simp only [ran] at answered
      cases answered
  | ok pair =>
      simp only [ran] at answered
      cases answered
      exact ensures.of_ok ran

/-- From a consistent mounted image every run of operations leaves the free map exact: the blocks
in use are those that a reference holds, no two references hold one block, and the superblock
counts the free bits. -/
theorem sfs_freemap_exact {volume after : Volume} {events : List SfsEvent}
    (consistent : Consistent volume.sfs volume.inos) (trimmed : Trimmed volume.sfs)
    (run : Run sfsMachine.Step volume events after) :
    Exact after.sfs.blocks after.sfs.freemap after.sfs.unusedBlocks
      (target after.sfs after.inos) := by
  have mounted : Mounted after.inos after.sfs :=
    run.invariant (fun volume => Mounted volume.inos volume.sfs)
      (fun _ _ _ mounted step => mounted_step mounted step) ⟨consistent, trimmed⟩
  exact mounted.consistent.exact

/-! ## A small volume -/

/-- A file of five bytes in one block. -/
def smallDin : DiskInode :=
  ⟨5, sfsTypeFile, 1, 1, fun index => if index = 0 then 3 else 0, 0⟩

/-- Five blocks: the inode 1 is a file with the block 3, and the block 4 is free. -/
def smallSfs : SfsFs where
  blocks := 5
  unusedBlocks := 1
  superDirty := false
  freemapBits := 32768
  freemap := fun block => decide (block = 4)
  dBlocks := 5
  disk := Function.update (fun _ => fun _ => 42) 1
    (Bytes.zeros.overlay 0 diskInodeSize smallDin.toBytes)
  inodes := fun _ => none

theorem smallSfs_din : dinOf smallSfs 1 =
    DiskInode.ofBytes (Bytes.zeros.overlay 0 diskInodeSize smallDin.toBytes) := rfl

theorem smallSfs_indirect : (dinOf smallSfs 1).indirect = 0 := by
  rw [smallSfs_din, DiskInode.stored_indirect]
  rfl

theorem smallSfs_slot (index : Nat) : slotAt smallSfs 1 index = if index = 0 then 3 else 0 := by
  by_cases direct : index < sfsNdirect
  · rw [slotAt, slotOf_direct direct, smallSfs_din, DiskInode.stored_direct direct]
    show (if index = 0 then 3 else 0) % 2 ^ 32 = if index = 0 then 3 else 0
    split_ifs <;> rfl
  · have beyond : index ≠ 0 := by
      rintro rfl
      exact direct (by decide)
    rw [slotAt, slotOf_empty direct (Or.inr smallSfs_indirect), if_neg beyond]

theorem smallSfs_target {reference : Reference} {block : Nat} :
    target smallSfs [1] reference = some block ↔
      (reference = .metadata 0 ∧ block = 0) ∨ (reference = .inode 1 ∧ block = 1) ∨
        (reference = .metadata 2 ∧ block = 2) ∨ (reference = .slot 1 0 ∧ block = 3) := by
  cases reference with
  | metadata place =>
      have isMetadata : IsMetadata smallSfs place ↔ place = 0 ∨ place = 2 := by
        show place = 0 ∨ (2 ≤ place ∧ place < 3) ↔ _
        omega
      unfold target
      simp only [isMetadata, Option.ite_none_right_eq_some, Option.some.injEq,
        Reference.metadata.injEq, reduceCtorEq, false_and, false_or, or_false]
      omega
  | inode ino =>
      unfold target
      simp only [List.mem_singleton, Option.ite_none_right_eq_some, Option.some.injEq,
        Reference.inode.injEq, reduceCtorEq, false_and, false_or, or_false]
      omega
  | indirect ino =>
      by_cases same : ino = 1
      · subst same
        rw [target, smallSfs_indirect]
        simp
      · rw [target, if_neg (by simpa using same)]
        simp
  | slot ino index =>
      by_cases same : ino = 1
      · subst same
        rw [target, smallSfs_slot, if_pos (List.mem_singleton.mpr rfl)]
        by_cases first : index = 0
        · simp [first, present, eq_comm]
        · simp [first]
      · rw [target, if_neg (by simpa using same)]
        simp [same]

theorem smallSfs_consistent : Consistent smallSfs [1] where
  exact := {
    inRange := by
      intro reference block held
      show block < 5
      rcases smallSfs_target.mp held with ⟨_, rfl⟩ | ⟨_, rfl⟩ | ⟨_, rfl⟩ | ⟨_, rfl⟩ <;> decide
    once := by
      intro reference other block held held'
      rcases smallSfs_target.mp held with ⟨rfl, rfl⟩ | ⟨rfl, rfl⟩ | ⟨rfl, rfl⟩ | ⟨rfl, rfl⟩ <;>
        rcases smallSfs_target.mp held' with
          ⟨rfl, same⟩ | ⟨rfl, same⟩ | ⟨rfl, same⟩ | ⟨rfl, same⟩ <;>
        first | rfl | cases same
    used_iff := by
      intro block inside
      have free : smallSfs.freemap block = false ↔
          block = 0 ∨ block = 1 ∨ block = 2 ∨ block = 3 := by
        show decide (block = 4) = false ↔ _
        rw [decide_eq_false_iff_not]
        have bound : block < 5 := inside
        omega
      rw [free]
      constructor
      · rintro (rfl | rfl | rfl | rfl)
        · exact ⟨_, smallSfs_target.mpr (Or.inl ⟨rfl, rfl⟩)⟩
        · exact ⟨_, smallSfs_target.mpr (Or.inr (Or.inl ⟨rfl, rfl⟩))⟩
        · exact ⟨_, smallSfs_target.mpr (Or.inr (Or.inr (Or.inl ⟨rfl, rfl⟩)))⟩
        · exact ⟨_, smallSfs_target.mpr (Or.inr (Or.inr (Or.inr ⟨rfl, rfl⟩)))⟩
      · rintro ⟨reference, held⟩
        rcases smallSfs_target.mp held with ⟨_, rfl⟩ | ⟨_, rfl⟩ | ⟨_, rfl⟩ | ⟨_, rfl⟩ <;> simp
    freeInRange := by
      intro block isFree
      have four : block = 4 := of_decide_eq_true isFree
      exact four ▸ (by decide : 4 < 5)
    counted := rfl }
  device := ⟨by decide, by decide, by decide⟩
  known _ _ loaded := nomatch loaded
  clean _ _ loaded := nomatch loaded

theorem smallSfs_trimmed : Trimmed smallSfs := fun _ _ loaded => nomatch loaded

/-- Loading the inode, reading from it, cutting the file and dropping it. -/
theorem sfs_freemap_exact_small : ∃ after : Volume,
    Run sfsMachine.Step ⟨smallSfs, [1]⟩
      [.loadInode 1, .io 1 Bytes.zeros 0 3 false, .truncate 1 0, .refDec 1] after ∧
    Exact after.sfs.blocks after.sfs.freemap after.sfs.unusedBlocks
      (target after.sfs after.inos) := by
  have run : ∃ after, Run sfsMachine.Step ⟨smallSfs, [1]⟩
      [.loadInode 1, .io 1 Bytes.zeros 0 3 false, .truncate 1 0, .refDec 1] after :=
    ⟨_, .cons ⟨List.mem_singleton.mpr rfl, rfl⟩ (.cons ⟨trivial, rfl⟩ (.cons ⟨trivial, rfl⟩
      (.cons ⟨trivial, rfl⟩ (.nil _))))⟩
  obtain ⟨after, run⟩ := run
  exact ⟨after, run, sfs_freemap_exact smallSfs_consistent smallSfs_trimmed run⟩

end UCore.Fs
