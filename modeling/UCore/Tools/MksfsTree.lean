import UCore.Tools.MksfsAppend

/-!
Contract: the directory tree that `mksfs` packs keeps the blocks of the image in order.

Owns:
- what `add_entry` leaves in a directory;
- the content of a regular file that `open_file` packed, block by block;
- the invariant of the whole walk: every block in its place, and every regular file with all of
  its content.

Does not own: how the finished image is written out.
-/

set_option autoImplicit false

namespace UCore.Tools

open UCore.Lib UCore.Lib.Program UCore.Fs

variable {first : Nat} {layout before layout' : Layout} {sfs after : Mksfs}
  {ino other block file current : Nat} {inode inode' : CacheInode} {name : List UInt8}
  {files : Nat → HostFile} {content : HostFile}

/-! ## Blocks and entries -/

/-- The block that `write_block` makes of `len` bytes. -/
def written (data : Bytes) (len : Nat) : Bytes :=
  if len = sfsBlksize then data else Bytes.zeros.overlay 0 len data

theorem writeBlock_leaves {data : Bytes} {len : Nat} :
    Leaves (writeBlock data len block) sfs fun _ after =>
      after = sfs.setBlock block (written data len) := by
  unfold writeBlock
  apply ensures_read
  apply leaves_assert
  intro _
  exact leaves_of_run rfl rfl

namespace Later

/-- A block is written that is not used yet. -/
theorem setBlock {data : Bytes} (unused : layout.use block = none) :
    Later ino layout sfs layout (sfs.setBlock block data) where
  extension := Layout.Extends.refl
  ninos := rfl
  img other used := by
    have apart : other ≠ block := by
      rintro rfl
      exact used unused
    exact Function.update_of_ne apart _ _
  inodes _ inode found := ⟨inode, found, rfl, rfl, fun _ => ⟨rfl, rfl⟩⟩

theorem alloc : Later ino layout sfs layout sfs.alloc where
  extension := Layout.Extends.refl
  ninos := rfl
  img _ _ := rfl
  inodes _ inode found := ⟨inode, found, rfl, rfl, fun _ => ⟨rfl, rfl⟩⟩

/-- An inode changes, but not its blocks nor its size. -/
theorem setInode (found : sfs.inodes other = some inode) (type : inode'.din.type = inode.din.type)
    (real : inode'.real = inode.real) (nblks : inode'.nblks = inode.nblks)
    (size : inode'.din.size = inode.din.size) :
    Later ino layout sfs layout (sfs.setInode other inode') where
  extension := Layout.Extends.refl
  ninos := rfl
  img _ _ := rfl
  inodes next old was := by
    by_cases same : next = other
    · subst same
      rw [found] at was
      cases was
      exact ⟨inode', Function.update_self _ _ _, type, real, fun _ => ⟨nblks, size⟩⟩
    · exact ⟨old, (Function.update_of_ne same _ _).trans was, rfl, rfl, fun _ => ⟨rfl, rfl⟩⟩

end Later

/-- An inode keeps everything but its number of links. -/
theorem Laid.addLink (laid : Laid first layout sfs) (found : sfs.inodes ino = some inode) :
    Laid first layout (sfs.setInode ino
      { inode with din := { inode.din with nlinks := (inode.din.nlinks + 1) % 2 ^ 16 } }) :=
  laid.setInode found { laid.laid ino inode found with } rfl rfl

theorem Tight.setInode (tight : Tight layout sfs) (found : sfs.inodes ino = some inode)
    (nblks : inode'.nblks = inode.nblks) : Tight layout (sfs.setInode ino inode') := by
  obtain ⟨tables, double⟩ := tight ino inode found
  apply tight.change
  · exact fun other apart => Function.update_of_ne apart _ _
  · exact fun _ _ => rfl
  · exact fun _ _ => rfl
  · exact Function.update_self _ _ _
  · rw [nblks]
    exact tables
  · rw [nblks]
    exact double

/-- The block of an entry, of which `write_block` gets the size of the name. -/
def entryBlock (entry : Bytes) (ino : Nat) (name : List UInt8) : Bytes :=
  written (fillEntry entry ino name) entryNameSize

theorem entryBlock_ino {entry : Bytes} (small : ino < 2 ^ 32) :
    (entryBlock entry ino name).number 0 4 = ino := by
  have same : (entryBlock entry ino name).number 0 4 = (fillEntry entry ino name).number 0 4 := by
    apply Bytes.number_congr
    intro position _ inside
    unfold entryBlock written
    rw [if_neg (by decide), Bytes.overlay_inside (Nat.zero_le _) (by unfold entryNameSize; omega),
      Nat.sub_zero]
  rw [same]
  unfold fillEntry
  rw [Bytes.number_overlay_apart (by omega)]
  exact Bytes.number_overlay_same small

/-- The numbers of inodes fit into a word. -/
theorem Laid.used_small {use : Use} (laid : Laid first layout sfs)
    (used : layout.use block = some use) : block < 2 ^ 32 := by
  have below := (laid.range block use used).1
  have last := laid.sized.last
  have small := laid.sized.small
  unfold sfsMaxNblks at small
  omega

/-- What `add_entry` leaves: the directory has one more block, with the entry. -/
structure EntryAdded (first : Nat) (layout : Layout) (sfs : Mksfs) (current : Nat)
    (inode : CacheInode) (file : Nat) (name : List UInt8) (layout' : Layout) (after : Mksfs) :
    Prop where
  laid : Laid first layout' after
  tight : Tight layout' after
  later : Later current layout sfs layout' after
  entry : ∃ block, layout'.use block = some (.leaf current inode.nblks) ∧
    after.img block = entryBlock sfs.entry file name
  found : ∃ inode', after.inodes current = some inode' ∧ inode'.nblks = inode.nblks + 1
  back : ∀ other inode', after.inodes other = some inode' →
    ∃ old, sfs.inodes other = some old

theorem addEntry_leaves (laid : Laid first layout sfs) (tight : Tight layout sfs)
    (found : sfs.inodes current = some inode) (target : layout.use file = some .inode) :
    Leaves (addEntry current file name) sfs fun _ after => inode.din.type = sfsTypeDir ∧
      name.length ≤ sfsMaxFnameLen ∧
      ∃ layout', EntryAdded first layout sfs current inode file name layout' after := by
  unfold addEntry
  apply leaves_run (run_getInode found)
  apply leaves_assert
  rintro ⟨isDir, short⟩
  apply ensures_modify
  have laid0 : Laid first layout { sfs with entry := fillEntry sfs.entry file name } :=
    { laid with sized := laid.sized.same rfl rfl rfl rfl }
  apply sfsAllocIno_leaves.bind
  rintro block after ⟨rfl, rfl, room⟩
  obtain ⟨laid1, spare1⟩ := laid0.alloc room
  apply ensures_read
  apply writeBlock_leaves.bind
  rintro ⟨⟩ between isBetween
  have laid2 : Laid first layout between := by
    rw [isBetween]
    exact laid1.setBlock spare1.unused
  have spare2 : Spare first layout between sfs.nextIno := by
    rw [isBetween]
    exact ⟨spare1.unused, spare1.low, spare1.high⟩
  have tight2 : Tight layout between := by
    rw [isBetween]
    exact tight
  have found2 : between.inodes current = some inode := by
    rw [isBetween]
    exact found
  have later2 : Later current layout sfs layout between := by
    rw [isBetween]
    have before : Later current layout sfs layout
        (Mksfs.alloc { sfs with entry := fillEntry sfs.entry file name }) :=
      { (Later.alloc : Later current layout sfs layout sfs.alloc) with }
    exact before.trans (Later.setBlock spare1.unused)
  have isEntry : between.img sfs.nextIno = entryBlock sfs.entry file name := by
    rw [isBetween]
    exact Function.update_self _ _ _
  apply (appendBlock_leaves laid2 tight2 found2 spare2 (by
    intro _
    rw [isEntry, entryBlock_ino (laid.used_small target)]
    exact target)).bind
  rintro ⟨⟩ after ⟨_, layout', appended⟩
  obtain ⟨inode1, found1, nblks1, _⟩ := appended.found
  have target1 := appended.later.extension _ _ target
  obtain ⟨inode3, found3⟩ := (appended.laid.inodes file).mpr target1
  apply leaves_of_run (run_updateInode found3)
  refine ⟨isDir, short, layout', ?_⟩
  constructor
  · exact appended.laid.addLink found3
  · exact appended.tight.setInode found3 rfl
  · exact (later2.trans appended.later).trans (Later.setInode found3 rfl rfl rfl rfl)
  · exact ⟨sfs.nextIno, appended.used, appended.img.trans isEntry⟩
  · by_cases same : current = file
    · subst same
      rw [found1] at found3
      cases found3
      exact ⟨_, Function.update_self _ _ _, nblks1⟩
    · exact ⟨inode1, (Function.update_of_ne same _ _).trans found1, nblks1⟩
  · intro other inode' is
    by_cases isFile : other = file
    · subst isFile
      exact (laid.inodes other).mpr target
    by_cases isCurrent : other = current
    · subst isCurrent
      exact ⟨inode, found⟩
    · have old : after.inodes other = some inode' := (Function.update_of_ne isFile _ _).symm.trans is
      rw [appended.others other isCurrent, isBetween] at old
      exact ⟨inode', old⟩

/-! ## New inodes -/

/-- The inode that `alloc_cache_inode` makes. -/
def emptyInode (real type : Nat) : CacheInode :=
  ⟨⟨0, type, 0, 0, fun _ => 0, 0⟩, 0, real, 0, none, none⟩

/-- What `alloc_cache_inode` leaves. -/
structure InodeAdded (first : Nat) (layout : Layout) (sfs : Mksfs) (real type file : Nat)
    (layout' : Layout) (after : Mksfs) : Prop where
  laid : Laid first layout' after
  tight : Tight layout' after
  later : ∀ ino, Later ino layout sfs layout' after
  absent : sfs.inodes file = none
  found : after.inodes file = some (emptyInode real type)
  back : ∀ other inode', after.inodes other = some inode' →
    other = file ∨ sfs.inodes other = some inode'

theorem allocCacheInode_leaves {real type : Nat} (laid : Laid first layout sfs)
    (tight : Tight layout sfs) (small : type < 2 ^ 16) :
    Leaves (allocCacheInode real 0 type) sfs fun file after =>
      ∃ layout', InodeAdded first layout sfs real type file layout' after := by
  unfold allocCacheInode
  rw [if_neg (fun impossible => absurd rfl impossible)]
  apply sfsAllocIno_leaves.bind
  rintro file after ⟨rfl, rfl, room⟩
  obtain ⟨laid1, spare1⟩ := laid.alloc room
  have absent : sfs.inodes sfs.nextIno = none := (laid1.spare_uncached spare1).2
  apply ensures_modify
  apply leaves_pure
  refine ⟨((layout.setUse sfs.nextIno .inode).setTables sfs.nextIno 0).setDouble sfs.nextIno false,
    ?_⟩
  have kept : ∀ other inode', sfs.inodes other = some inode' → Function.update sfs.inodes
      sfs.nextIno (some (emptyInode real type)) other = some inode' := by
    intro other inode' found
    have apart : other ≠ sfs.nextIno := by
      rintro rfl
      rw [absent] at found
      cases found
    exact (Function.update_of_ne apart _ _).trans found
  constructor
  · exact laid1.addInode spare1 rfl rfl rfl rfl rfl small
  · intro other inode' is
    have is' : Function.update sfs.inodes sfs.nextIno (some (emptyInode real type)) other =
        some inode' := is
    by_cases same : other = sfs.nextIno
    · subst same
      rw [Function.update_self] at is'
      cases is'
      constructor
      · refine (Function.update_self _ _ _).trans ?_
        show 0 = (0 + 1011) / 1024
        decide
      · refine (Function.update_self _ _ _).trans ?_
        rfl
    · rw [Function.update_of_ne same] at is'
      obtain ⟨tables, double⟩ := tight other inode' is'
      exact ⟨(Function.update_of_ne same _ _).trans tables,
        (Function.update_of_ne same _ _).trans double⟩
  · intro ino
    refine ⟨Layout.extends_setUse spare1.unused, rfl, fun _ _ => rfl, ?_⟩
    intro other inode' found
    exact ⟨inode', kept other inode' found, rfl, rfl, fun _ => ⟨rfl, rfl⟩⟩
  · exact absent
  · exact Function.update_self _ _ _
  · intro other inode' is
    by_cases same : other = sfs.nextIno
    · exact Or.inl same
    · exact Or.inr ((Function.update_of_ne same _ _).symm.trans is)

/-- What happens to a new inode is nothing to the old ones. -/
theorem Later.trans_new {middle : Layout} {between : Mksfs} (absent : sfs.inodes file = none)
    (first : Later ino before sfs middle between)
    (second : Later file middle between layout' after) : Later ino before sfs layout' after where
  extension := Layout.Extends.trans second.extension first.extension
  ninos := second.ninos.trans first.ninos
  img block used := by
    have still : middle.use block ≠ none := by
      obtain ⟨use, isUse⟩ := Option.ne_none_iff_exists'.mp used
      rw [first.extension block use isUse]
      exact nofun
    exact (second.img block still).trans (first.img block used)
  inodes other inode found := by
    obtain ⟨inode1, found1, type1, real1, same1⟩ := first.inodes other inode found
    obtain ⟨inode2, found2, type2, real2, same2⟩ := second.inodes other inode1 found1
    refine ⟨inode2, found2, type2.trans type1, real2.trans real1, ?_⟩
    intro apart
    have notNew : other ≠ file := by
      rintro rfl
      rw [absent] at found
      cases found
    exact ⟨(same2 notNew).1.trans (same1 apart).1, (same2 notNew).2.trans (same1 apart).2⟩

/-! ## Contents -/

/-- The block `k` of a file of the host. -/
def HostFile.blockAt (content : HostFile) (k : Nat) : Bytes :=
  written (content.bytes.drop (sfsBlksize * k)) (min sfsBlksize (content.length - sfsBlksize * k))

/-- The number of blocks of a file of the host. -/
def HostFile.nblks (content : HostFile) : Nat := (content.length + (sfsBlksize - 1)) / sfsBlksize

/-- The first `count` blocks of the file are packed. -/
structure Packed (layout : Layout) (sfs : Mksfs) (ino : Nat) (content : HostFile) (count : Nat) :
    Prop where
  found : ∃ inode, sfs.inodes ino = some inode ∧ inode.nblks = count ∧
    inode.din.size = u32 (min content.length (sfsBlksize * count))
  held : ∀ k, k < count → ∃ block, layout.use block = some (.leaf ino k) ∧
    sfs.img block = content.blockAt k

theorem Packed.later {count : Nat} (packed : Packed layout sfs ino content count)
    (later : Later other layout sfs layout' after) (apart : ino ≠ other) :
    Packed layout' after ino content count := by
  constructor
  · obtain ⟨inode, found, nblks, size⟩ := packed.found
    obtain ⟨inode', found', _, _, same⟩ := later.inodes ino inode found
    obtain ⟨sameNblks, sameSize⟩ := same apart
    exact ⟨inode', found', sameNblks.trans nblks, sameSize.trans size⟩
  · intro k low
    obtain ⟨block, used, isBlock⟩ := packed.held k low
    refine ⟨block, later.extension _ _ used, ?_⟩
    rw [later.img block (by rw [used]; exact nofun)]
    exact isBlock

/-- `open_file` packs all blocks that are left. -/
theorem openFileLoop_leaves (content : HostFile) (nblks index : Nat)
    (laid : Laid first layout sfs) (tight : Tight layout sfs)
    (packed : Packed layout sfs file content index)
    (isFile : ∀ inode, sfs.inodes file = some inode → inode.din.type ≠ sfsTypeDir)
    (whole : index + nblks = content.nblks) :
    Leaves (openFileLoop file content index nblks) sfs fun _ after => ∃ layout',
      Laid first layout' after ∧ Tight layout' after ∧ Later file layout sfs layout' after ∧
      Packed layout' after file content content.nblks ∧
      ∀ other inode', after.inodes other = some inode' →
        ∃ old, sfs.inodes other = some old := by
  induction nblks generalizing layout sfs index with
  | zero =>
      apply leaves_pure
      have all : index = content.nblks := whole
      exact ⟨layout, laid, tight, Later.refl, all ▸ packed, fun _ inode' is => ⟨inode', is⟩⟩
  | succ nblks inductionHypothesis =>
      unfold openFileLoop
      obtain ⟨inode, found, length, size⟩ := packed.found
      apply sfsAllocIno_leaves.bind
      rintro block after ⟨rfl, rfl, room⟩
      obtain ⟨laid1, spare1⟩ := laid.alloc room
      apply writeBlock_leaves.bind
      rintro ⟨⟩ between rfl
      have laid2 := @Laid.setBlock _ _ _ _ laid1 (content.blockAt index) spare1.unused
      have spare2 : Spare first layout (sfs.alloc.setBlock sfs.nextIno (content.blockAt index))
          sfs.nextIno := ⟨spare1.unused, spare1.low, spare1.high⟩
      have later2 : Later file layout sfs layout
          (sfs.alloc.setBlock sfs.nextIno (content.blockAt index)) :=
        Later.alloc.trans (Later.setBlock spare1.unused)
      apply (appendBlock_leaves laid2 tight found spare2
        (fun isDir => absurd isDir (isFile inode found))).bind
      rintro ⟨⟩ after ⟨_, layout', appended⟩
      have later3 := later2.trans appended.later
      obtain ⟨inode', found', length', size'⟩ := appended.found
      have packed' : Packed layout' after file content (index + 1) := by
        constructor
        · refine ⟨inode', found', by rw [length', length], ?_⟩
          rw [size', size]
          have inside : sfsBlksize * index < content.length := by
            unfold HostFile.nblks sfsBlksize at whole
            unfold sfsBlksize
            omega
          have sum : min content.length (sfsBlksize * index) +
              min sfsBlksize (content.length - sfsBlksize * index) =
                min content.length (sfsBlksize * (index + 1)) := by
            rw [Nat.mul_succ]
            omega
          rw [← sum]
          unfold u32
          exact Nat.mod_add_mod _ _ _
        · intro k low
          by_cases last : k = index
          · subst last
            refine ⟨sfs.nextIno, length ▸ appended.used, ?_⟩
            rw [appended.img]
            exact Function.update_self _ _ _
          · obtain ⟨block, used, isBlock⟩ := packed.held k (by omega)
            refine ⟨block, later3.extension _ _ used, ?_⟩
            rw [later3.img block (by rw [used]; exact nofun)]
            exact isBlock
      have isFile' : ∀ inode, after.inodes file = some inode → inode.din.type ≠ sfsTypeDir := by
        intro inode1 found1
        obtain ⟨inode2, found2, type2, _⟩ := later3.inodes file inode found
        rw [found1] at found2
        cases found2
        rw [type2]
        exact isFile inode found
      apply (inductionHypothesis (index + 1) appended.laid appended.tight packed' isFile'
        (by omega)).weaken
      rintro ⟨⟩ last ⟨layout2, laid4, tight4, later4, packed4, back4⟩
      refine ⟨layout2, laid4, tight4, later3.trans later4, packed4, ?_⟩
      intro other inode4 is
      obtain ⟨old, was⟩ := back4 other inode4 is
      by_cases same : other = file
      · subst same
        exact ⟨inode, found⟩
      · rw [appended.others other same] at was
        exact ⟨old, was⟩

/-! ## The walk -/

/-- The image while the tree is walked: every regular file has its content. -/
structure Built (first : Nat) (files : Nat → HostFile) (layout : Layout) (sfs : Mksfs) : Prop where
  laid : Laid first layout sfs
  tight : Tight layout sfs
  packed : ∀ ino inode, sfs.inodes ino = some inode → inode.din.type = sfsTypeFile →
    Packed layout sfs ino (files inode.real) (files inode.real).nblks

/-- What each part of the walk leaves: the directory `current` alone has more entries. -/
def Walked (first : Nat) (files : Nat → HostFile) (current : Nat) (layout : Layout) (sfs : Mksfs)
    (after : Mksfs) : Prop :=
  ∃ layout', Built first files layout' after ∧ Later current layout sfs layout' after

namespace Built

variable (built : Built first files layout sfs)

include built

theorem walked : Walked first files current layout sfs sfs := ⟨layout, built, Later.refl⟩

/-- Only an inode that is not one of a regular file changes its blocks. -/
theorem later (laid : Laid first layout' after) (tight : Tight layout' after)
    (later : Later current layout sfs layout' after)
    (back : ∀ other inode', after.inodes other = some inode' → ∃ old, sfs.inodes other = some old)
    (other : ∀ inode, sfs.inodes current = some inode → inode.din.type ≠ sfsTypeFile) :
    Built first files layout' after := by
  refine ⟨laid, tight, ?_⟩
  intro ino inode' is isFile
  obtain ⟨inode, was⟩ := back ino inode' is
  obtain ⟨inode1, is1, type, real, _⟩ := later.inodes ino inode was
  rw [is] at is1
  cases is1
  have apart : ino ≠ current := by
    rintro rfl
    exact other inode was (type.symm.trans isFile)
  rw [real]
  exact (built.packed ino inode was (type.symm.trans isFile)).later later apart

theorem addEntry (found : sfs.inodes current = some inode)
    (target : layout.use file = some .inode) :
    Leaves (addEntry current file name) sfs fun _ after =>
      Walked first files current layout sfs after := by
  apply (addEntry_leaves built.laid built.tight found target).weaken
  rintro ⟨⟩ after ⟨isDir, _, layout', added⟩
  refine ⟨layout', ?_, added.later⟩
  apply built.later added.laid added.tight added.later added.back
  intro inode' was
  rw [found] at was
  cases was
  rw [isDir]
  decide

/-- A new inode that is not one of a regular file. -/
theorem addInode {real type : Nat} (other : type ≠ sfsTypeFile)
    (added : InodeAdded first layout sfs real type file layout' after) :
    Built first files layout' after := by
  refine ⟨added.laid, added.tight, ?_⟩
  intro ino inode' is isFile
  rcases added.back ino inode' is with rfl | was
  · rw [added.found] at is
    cases is
    exact absurd isFile other
  · have apart : ino ≠ file := by
      rintro rfl
      rw [added.absent] at was
      cases was
    exact (built.packed ino inode' was isFile).later (added.later file) apart

/-- `add_file` -/
theorem addFile {real : Nat} (found : sfs.inodes current = some inode) :
    Leaves (addFile files current name real) sfs fun _ after =>
      Walked first files current layout sfs after := by
  unfold Tools.addFile
  have searched : searchCacheInode real sfs = .ok (.ok ((sfs.inodeList.find? fun element =>
      element.1 = real).map Prod.snd), sfs) := rfl
  apply leaves_run searched
  cases hit : sfs.inodeList.find? fun element => element.1 = real with
  | some element =>
      exact built.addEntry found (built.laid.listedInode element.1 element.2
        (List.mem_of_find?_eq_some hit))
  | none =>
      apply (allocCacheInode_leaves built.laid built.tight (by decide)).bind
      rintro file between ⟨layout1, added⟩
      have empty : Packed layout1 between file (files real) 0 := by
        refine ⟨⟨_, added.found, rfl, ?_⟩, fun k low => absurd low (Nat.not_lt_zero k)⟩
        rw [Nat.mul_zero, Nat.min_zero]
        rfl
      have isFile : ∀ inode, between.inodes file = some inode → inode.din.type ≠ sfsTypeDir := by
        intro inode1 found1
        rw [added.found] at found1
        cases found1
        show sfsTypeFile ≠ sfsTypeDir
        decide
      apply (openFileLoop_leaves (files real) (files real).nblks 0 added.laid added.tight empty
        isFile (Nat.zero_add _)).bind
      rintro ⟨⟩ between2 ⟨layout2, laid2, tight2, later2, packed2, back2⟩
      have later3 : ∀ ino, Later ino layout sfs layout2 between2 := fun ino =>
        Later.trans_new added.absent (added.later ino) later2
      have built2 : Built first files layout2 between2 := by
        refine ⟨laid2, tight2, ?_⟩
        intro ino inode' is isFile'
        obtain ⟨inode1, was⟩ := back2 ino inode' is
        obtain ⟨inode2, is2, type, sameReal, _⟩ := later2.inodes ino inode1 was
        rw [is] at is2
        cases is2
        rcases added.back ino inode1 was with rfl | old
        · rw [added.found] at was
          cases was
          rw [sameReal]
          exact packed2
        · have apart : ino ≠ file := by
            rintro rfl
            rw [added.absent] at old
            cases old
          rw [sameReal]
          exact (built.packed ino inode1 old (type.symm.trans isFile')).later (later3 file) apart
      obtain ⟨inode3, found3, _⟩ := (later3 current).inodes current inode found
      have target : layout2.use file = some .inode := by
        obtain ⟨inode4, found4, _⟩ := packed2.found
        exact (laid2.inodes file).mp ⟨inode4, found4⟩
      apply (built2.addEntry found3 target).weaken
      rintro ⟨⟩ after ⟨layout4, built4, later4⟩
      exact ⟨layout4, built4, (later3 current).trans later4⟩

/-- `add_link` -/
theorem addLink {real length : Nat} {target : Bytes} (found : sfs.inodes current = some inode) :
    Leaves (addLink current name real length target) sfs fun _ after =>
      Walked first files current layout sfs after := by
  unfold Tools.addLink
  apply (allocCacheInode_leaves built.laid built.tight (by decide)).bind
  rintro file between ⟨layout1, added⟩
  have built1 := built.addInode (by decide) added
  unfold openLink
  apply @Leaves.bind _ _ _ _ _ (fun _ => Walked first files file layout1 between)
  · apply sfsAllocIno_leaves.bind
    rintro block after ⟨rfl, rfl, room⟩
    obtain ⟨laid2, spare2⟩ := added.laid.alloc room
    by_cases whole : min sfsBlksize length = sfsBlksize
    · rw [if_pos whole]
      exact leaves_stop
    rw [if_neg whole]
    apply writeBlock_leaves.bind
    rintro ⟨⟩ between2 rfl
    have laid3 := @Laid.setBlock _ _ _ _ laid2 (written target (min sfsBlksize length))
      spare2.unused
    have spare3 : Spare first layout1 (between.alloc.setBlock between.nextIno
        (written target (min sfsBlksize length))) between.nextIno :=
      ⟨spare2.unused, spare2.low, spare2.high⟩
    have later3 : Later file layout1 between layout1 (between.alloc.setBlock between.nextIno
        (written target (min sfsBlksize length))) :=
      Later.alloc.trans (Later.setBlock spare2.unused)
    have isLink : (emptyInode real sfsTypeLink).din.type ≠ sfsTypeDir := by
      show sfsTypeLink ≠ sfsTypeDir
      decide
    apply (appendBlock_leaves laid3 added.tight added.found spare3
      (fun isDir => absurd isDir isLink)).weaken
    rintro ⟨⟩ after ⟨_, layout', appended⟩
    have later4 := later3.trans appended.later
    refine ⟨layout', ?_, later4⟩
    apply built1.later appended.laid appended.tight later4
    · intro other inode' is
      by_cases same : other = file
      · subst same
        exact ⟨_, added.found⟩
      · rw [appended.others other same] at is
        exact ⟨inode', is⟩
    · intro inode' was
      rw [added.found] at was
      cases was
      show sfsTypeLink ≠ sfsTypeFile
      decide
  · rintro ⟨⟩ between2 ⟨layout2, built2, later2⟩
    have later3 := Later.trans_new added.absent (added.later current) later2
    obtain ⟨inode3, found3, _⟩ := later3.inodes current inode found
    obtain ⟨inode4, found4, _⟩ := later2.inodes file _ added.found
    apply (built2.addEntry found3 ((built2.laid.inodes file).mp ⟨inode4, found4⟩)).weaken
    rintro ⟨⟩ after ⟨layout4, built4, later4⟩
    exact ⟨layout4, built4, later3.trans later4⟩

end Built

/-- An entry of the directory, in two steps of the walk. -/
theorem Walked.bind {α : Type} {program : MksfsM α} {second : α → MksfsM Unit}
    (leaves : Leaves program sfs fun _ after => Walked first files current layout sfs after)
    (found : sfs.inodes current = some inode)
    (rest : ∀ value layout' after, Built first files layout' after →
      (∃ inode', after.inodes current = some inode') →
      Leaves (second value) after fun _ last =>
        Walked first files current layout' after last) :
    Leaves (program >>= second) sfs fun _ after =>
      Walked first files current layout sfs after := by
  apply leaves.bind
  rintro value after ⟨layout1, built1, later1⟩
  obtain ⟨inode1, found1, _⟩ := later1.inodes current inode found
  apply (rest value layout1 after built1 ⟨inode1, found1⟩).weaken
  rintro ⟨⟩ last ⟨layout2, built2, later2⟩
  exact ⟨layout2, built2, later1.trans later2⟩

/-- `open_dir` keeps the invariant, whatever the directory holds. -/
theorem openDirLoop_leaves (home : HostDir) (built : Built first files layout sfs)
    (found : sfs.inodes current = some inode) :
    Leaves (openDirLoop files current home) sfs fun _ after =>
      Walked first files current layout sfs after := by
  induction home generalizing layout sfs current inode with
  | nil => exact leaves_pure built.walked
  | file name real rest inductionHypothesis =>
      unfold openDirLoop
      split_ifs
      · exact inductionHypothesis built found
      · exact leaves_stop
      · refine Walked.bind (built.addFile found) found ?_
        rintro ⟨⟩ layout' after built' ⟨inode', found'⟩
        exact inductionHypothesis built' found'
  | link name real length target rest inductionHypothesis =>
      unfold openDirLoop
      split_ifs
      · exact inductionHypothesis built found
      · exact leaves_stop
      · refine Walked.bind (built.addLink found) found ?_
        rintro ⟨⟩ layout' after built' ⟨inode', found'⟩
        exact inductionHypothesis built' found'
  | special name rest inductionHypothesis =>
      unfold openDirLoop
      split_ifs
      · exact inductionHypothesis built found
      · exact leaves_stop
      · exact inductionHypothesis built found
  | dir name real inner rest innerHypothesis inductionHypothesis =>
      unfold openDirLoop
      split_ifs
      · exact inductionHypothesis built found
      · exact leaves_stop
      have searched : searchCacheInode real sfs = .ok (.ok ((sfs.inodeList.find? fun element =>
          element.1 = real).map Prod.snd), sfs) := rfl
      apply leaves_run searched
      apply leaves_assert
      intro _
      apply (allocCacheInode_leaves built.laid built.tight (by decide)).bind
      rintro child between ⟨layout1, added⟩
      have built1 := built.addInode (by decide) added
      have isCurrent := (added.later current).extension _ _ ((built.laid.inodes current).mp ⟨_, found⟩)
      have isChild := (added.laid.inodes child).mp ⟨_, added.found⟩
      -- the child is filled, which is nothing to the directories that were there
      apply (built1.addEntry added.found isChild).bind
      rintro ⟨⟩ between2 ⟨layout2, built2, later2⟩
      obtain ⟨inode2, found2, _⟩ := later2.inodes child _ added.found
      apply (built2.addEntry found2 (later2.extension _ _ isCurrent)).bind
      rintro ⟨⟩ between3 ⟨layout3, built3, later3⟩
      obtain ⟨inode3, found3, _⟩ := later3.inodes child _ found2
      apply (innerHypothesis built3 found3).bind
      rintro ⟨⟩ between4 ⟨layout4, built4, later4⟩
      have inside := (later2.trans later3).trans later4
      have outside := Later.trans_new added.absent (added.later current) inside
      -- then the directory gets its entry
      obtain ⟨inode4, found4, _⟩ := outside.inodes current inode found
      apply (built4.addEntry found4 (inside.extension _ _ isChild)).bind
      rintro ⟨⟩ between5 ⟨layout5, built5, later5⟩
      obtain ⟨inode5, found5, _⟩ := later5.inodes current inode4 found4
      apply (inductionHypothesis built5 found5).weaken
      rintro ⟨⟩ after ⟨layout6, built6, later6⟩
      exact ⟨layout6, built6, (outside.trans later5).trans later6⟩

/-- The tree of the root. -/
theorem openRoot_leaves (home : HostDir) (built : Built first files layout sfs) :
    Leaves (openRoot files home) sfs fun _ after =>
      Walked first files sfsBlknRoot layout sfs after := by
  have isRoot := built.laid.root
  obtain ⟨inode, found⟩ := (built.laid.inodes sfsBlknRoot).mpr isRoot
  unfold openRoot
  refine Walked.bind (built.addEntry found isRoot) found ?_
  rintro ⟨⟩ layout1 between1 built1 ⟨inode1, found1⟩
  refine Walked.bind (built1.addEntry found1 built1.laid.root) found1 ?_
  rintro ⟨⟩ layout2 between2 built2 ⟨inode2, found2⟩
  exact openDirLoop_leaves home built2 found2

end UCore.Tools
