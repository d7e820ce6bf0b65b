import UCore.Tools.MksfsFreemap
import UCore.Tools.MksfsTree

/-!
Contract: the image that `mksfs` leaves when it finishes.

Owns:
- the empty image of `create_sfs`, and where `close_sfs` writes each inode, index block, the free
  map and the superblock;
- the blocks that can be reached in an image, from the root on;
- that an image passes the checks of mounting, and that the kernel never allocates a block of it.

Does not own: what the kernel reads in the files.
-/

set_option autoImplicit false

namespace UCore.Tools

open UCore.Lib UCore.Lib.Program UCore.Fs

variable {first : Nat} {layout : Layout} {sfs after : Mksfs} {ino other block : Nat}
  {inode : CacheInode} {cache : Bytes} {files : Nat → HostFile}

/-! ## The empty image -/

/-- Only the root is used. -/
def rootLayout : Layout where
  use := Function.update (fun _ => none) sfsBlknRoot (some .inode)
  tables := fun _ => 0
  double := fun _ => false

theorem rootLayout_uses :
    rootLayout.use = Function.update (fun _ => none) sfsBlknRoot (some .inode) := rfl

theorem rootLayout_root : rootLayout.use sfsBlknRoot = some .inode := by
  rw [rootLayout_uses, Function.update_self]

theorem rootLayout_use {use : Use} (used : rootLayout.use block = some use) :
    block = sfsBlknRoot ∧ use = .inode := by
  by_cases same : block = sfsBlknRoot
  · subst same
    rw [rootLayout_root] at used
    cases used
    exact ⟨rfl, rfl⟩
  · rw [rootLayout_uses, Function.update_of_ne same] at used
    cases used

/-- An image with an empty root. -/
theorem built_root {image : Mksfs} (sized : Sized first image)
    (inodes : image.inodes = Function.update (fun _ => none) sfsBlknRoot
      (some (emptyInode 0 sfsTypeDir)))
    (inodeList : image.inodeList = [(0, sfsBlknRoot)])
    (cacheBlocks : image.cacheBlocks = fun _ => none) : Built first files rootLayout image := by
  have isRoot : ∀ ino inode, image.inodes ino = some inode →
      ino = sfsBlknRoot ∧ inode = emptyInode 0 sfsTypeDir := by
    intro ino inode found
    rw [inodes] at found
    by_cases same : ino = sfsBlknRoot
    · subst same
      rw [Function.update_self] at found
      cases found
      exact ⟨rfl, rfl⟩
    · rw [Function.update_of_ne same] at found
      cases found
  have root : image.inodes sfsBlknRoot = some (emptyInode 0 sfsTypeDir) := by
    rw [inodes, Function.update_self]
  have uncached : ∀ block cache, image.cacheBlocks block ≠ some cache := by
    intro block cache cached
    rw [cacheBlocks] at cached
    cases cached
  have noUse : ∀ block use, rootLayout.use block = some use → use ≠ .inode → False := by
    intro block use used other
    exact other (rootLayout_use used).2
  constructor
  · constructor
    · exact sized
    · intro block use used
      obtain ⟨rfl, rfl⟩ := rootLayout_use used
      have start := sized.start
      have low := sized.first
      have freemap : sfsBlknRoot < sfsBlknFreemap := by decide
      exact ⟨by omega, Or.inr ⟨rfl, rfl⟩⟩
    · exact fun one _ use used _ other => (noUse one use used other).elim
    · exact rootLayout_root
    · intro ino
      constructor
      · rintro ⟨inode, found⟩
        obtain ⟨rfl, _⟩ := isRoot ino inode found
        exact rootLayout_root
      · intro used
        obtain ⟨rfl, _⟩ := rootLayout_use used
        exact ⟨_, root⟩
    · intro ino inode found
      obtain ⟨rfl, rfl⟩ := isRoot ino inode found
      constructor
      · exact fun k _ low => absurd low (Nat.not_lt_zero k)
      · exact fun _ _ => rfl
      · exact fun some => absurd some (Nat.lt_irrefl 0)
      · exact fun _ => rfl
      · exact nofun
      · exact fun _ => rfl
      · exact Nat.zero_le _
      · rfl
      · show sfsTypeDir < 2 ^ 16
        decide
    · exact fun block ino position used => (noUse block _ used nofun).elim
    · exact fun block ino number used => (noUse block _ used nofun).elim
    · exact fun block ino used => (noUse block _ used nofun).elim
    · exact fun block cache cached => absurd cached (uncached block cache)
    · exact fun block ino position _ used => (noUse block _ used nofun).elim
    · intro ino used
      obtain ⟨rfl, _⟩ := rootLayout_use used
      exact ⟨0, by rw [inodeList]; exact List.mem_singleton_self _⟩
    · intro real ino member
      rw [inodeList] at member
      cases List.mem_singleton.mp member
      exact rootLayout_root
    · exact fun block cache cached => absurd cached (uncached block cache)
  · intro ino inode found
    obtain ⟨rfl, rfl⟩ := isRoot ino inode found
    constructor
    · show 0 = (0 + 1011) / 1024
      decide
    · rfl
  · intro ino inode found isFile
    obtain ⟨rfl, rfl⟩ := isRoot ino inode found
    cases isFile

/-- `create_sfs` -/
theorem createSfs_leaves {imgSize : Nat} {img : Nat → Bytes} {memory entry : Bytes} :
    Leaves (createSfs imgSize img memory entry) sfs fun _ after =>
      ∃ layout, Built (sfsBlknFreemap + sfsFreemapBlocks after.ninos) files layout after := by
  unfold createSfs
  simp only []
  generalize isNinos : (if u32 (imgSize / sfsBlksize) > sfsMaxNblks then sfsMaxNblks
    else u32 (imgSize / sfsBlksize)) = ninos
  have small : ninos ≤ sfsMaxNblks := by
    rw [← isNinos]
    split_ifs with large
    · exact le_rfl
    · exact Nat.not_lt.mp large
  split_ifs with full
  · exact leaves_stop
  have room := Nat.lt_of_not_le full
  apply ensures_modify
  have allocated : allocCacheInode 0 sfsBlknRoot sfsTypeDir
      { blocks := ninos, unusedBlocks := ninos - (sfsBlknFreemap + (ninos + sfsBlkbits - 1) /
          sfsBlkbits),
        info := memory.overlay 0 19 infoText, ninos := ninos,
        nextIno := sfsBlknFreemap + (ninos + sfsBlkbits - 1) / sfsBlkbits,
        inodes := fun _ => none, inodeList := [], cacheBlocks := fun _ => none, blockList := [],
        entry := entry, img := img } =
      .ok (.ok sfsBlknRoot,
        { blocks := ninos, unusedBlocks := ninos - (sfsBlknFreemap + (ninos + sfsBlkbits - 1) /
            sfsBlkbits),
          info := memory.overlay 0 19 infoText, ninos := ninos,
          nextIno := sfsBlknFreemap + (ninos + sfsBlkbits - 1) / sfsBlkbits,
          inodes := Function.update (fun _ => none) sfsBlknRoot (some (emptyInode 0 sfsTypeDir)),
          inodeList := [(0, sfsBlknRoot)], cacheBlocks := fun _ => none, blockList := [],
          entry := entry, img := img }) := rfl
  apply leaves_run allocated
  apply leaves_pure
  refine ⟨rootLayout, built_root ?_ rfl rfl rfl⟩
  have some : 0 < ninos := (Nat.zero_le _).trans_lt room
  refine ⟨rfl, small, rfl, ?_, ?_, ?_⟩
  · show sfsBlknFreemap < sfsBlknFreemap + sfsFreemapBlocks ninos
    unfold sfsFreemapBlocks sfsBlkbits
    omega
  · show sfsBlknFreemap + sfsFreemapBlocks ninos ≤ sfsBlknFreemap + (ninos + sfsBlkbits - 1) / sfsBlkbits
    unfold sfsFreemapBlocks sfsBlkbits
    omega
  · exact Nat.le_of_lt room

/-! ## What is written at the end -/

/-- The image with other blocks. -/
def Mksfs.setImg (sfs : Mksfs) (img : Nat → Bytes) : Mksfs := { sfs with img := img }

/-- The blocks of the free map, and nothing else. -/
theorem writeFreemap_leaves (i start nblks : Nat) :
    Leaves (writeFreemap i start nblks) sfs fun _ after => ∃ img, after = sfs.setImg img ∧
      (∀ k, k < nblks → img (start + k) =
        freemapBlock sfs.ninos sfs.nextIno (i + k * sfsBlkbits)) ∧
      ∀ block, block < start ∨ start + nblks ≤ block → img block = sfs.img block := by
  induction nblks generalizing sfs i start with
  | zero => exact leaves_pure ⟨sfs.img, rfl, fun k low => absurd low (Nat.not_lt_zero k),
      fun _ _ => rfl⟩
  | succ nblks inductionHypothesis =>
      unfold writeFreemap
      apply ensures_read
      apply writeBlock_leaves.bind
      rintro ⟨⟩ between rfl
      have block : written (freemapBlock sfs.ninos sfs.nextIno i) sfsBlksize =
          freemapBlock sfs.ninos sfs.nextIno i := if_pos rfl
      apply (inductionHypothesis (i + sfsBlkbits) (start + 1)).weaken
      rintro ⟨⟩ after ⟨img, rfl, mapped, others⟩
      refine ⟨img, rfl, ?_, ?_⟩
      · intro k low
        cases k with
        | zero =>
            refine (others start (by omega)).trans ?_
            refine (Function.update_self _ _ _).trans ?_
            rw [block, Nat.zero_mul, Nat.add_zero]
        | succ k =>
            have next := mapped k (by omega)
            rw [show start + (k + 1) = start + 1 + k by omega, next, Nat.succ_mul,
              Nat.add_comm (k * sfsBlkbits), Nat.add_assoc]
            rfl
      · intro block outside
        refine (others block (by omega)).trans ?_
        exact Function.update_of_ne (by omega) _ _

/-- Where all that is written to a block is the same, the block has it. -/
theorem flush_leaves (writes : List (Bytes × Nat × Nat)) :
    Leaves (flush writes) sfs fun _ after => ∃ img, after = sfs.setImg img ∧
      ∀ block value, (∀ data len, (data, len, block) ∈ writes → written data len = value) →
        ((∃ data len, (data, len, block) ∈ writes) ∨ sfs.img block = value) →
        img block = value := by
  induction writes generalizing sfs with
  | nil =>
      apply leaves_pure
      refine ⟨sfs.img, rfl, ?_⟩
      rintro block value _ (⟨data, len, member⟩ | same)
      · cases member
      · exact same
  | cons write rest inductionHypothesis =>
      obtain ⟨data, len, block⟩ := write
      unfold flush
      apply writeBlock_leaves.bind
      rintro ⟨⟩ between rfl
      apply inductionHypothesis.weaken
      rintro ⟨⟩ after ⟨img, rfl, holds⟩
      refine ⟨img, rfl, ?_⟩
      intro other value all some
      apply holds other value fun data' len' member => all data' len' (List.mem_cons_of_mem _ member)
      by_cases same : other = block
      · subst same
        right
        refine (Function.update_self _ _ _).trans ?_
        exact all data len List.mem_cons_self
      · rcases some with ⟨data', len', member⟩ | was
        · rcases List.mem_cons.mp member with isFirst | later
          · cases isFirst
            exact absurd rfl same
          · exact Or.inl ⟨data', len', later⟩
        · exact Or.inr ((Function.update_of_ne same _ _).trans was)

theorem hashBucket_lt (value : Nat) : hashBucket value < hashListSize := by
  unfold hashBucket Libs.hash32 hashListSize u32
  have low : value * 0x9e370001 % 2 ^ 32 < 2 ^ 32 := Nat.mod_lt _ (by decide)
  omega

/-- What `close_sfs` writes of the hash lists: the blocks and the inodes that are cached. -/
theorem mem_bucketWrites {data : Bytes} {len : Nat} (laid : Laid first layout sfs) :
    (data, len, block) ∈ (List.range hashListSize).flatMap (bucketWrites sfs) ↔
      (len = sfsBlksize ∧ sfs.cacheBlocks block = some data) ∨
        ∃ inode, sfs.inodes block = some inode ∧ data = inode.toBytes ∧ len = cacheInodeSize := by
  constructor
  · intro member
    obtain ⟨i, _, among⟩ := List.mem_flatMap.mp member
    rcases List.mem_append.mp among with isBlock | isInode
    · left
      obtain ⟨element, listed, is⟩ := List.mem_filterMap.mp isBlock
      obtain ⟨cache, cached, same⟩ := Option.map_eq_some_iff.mp is
      cases same
      exact ⟨rfl, cached⟩
    · right
      obtain ⟨element, listed, is⟩ := List.mem_filterMap.mp isInode
      obtain ⟨inode, found, same⟩ := Option.map_eq_some_iff.mp is
      cases same
      exact ⟨inode, found, rfl, rfl⟩
  · rintro (⟨rfl, cached⟩ | ⟨inode, found, rfl, rfl⟩)
    · apply List.mem_flatMap.mpr
      refine ⟨hashBucket 0, List.mem_range.mpr (hashBucket_lt 0), ?_⟩
      apply List.mem_append_left
      refine List.mem_filterMap.mpr ⟨(hashBucket 0, block), ?_, ?_⟩
      · exact List.mem_filter.mpr ⟨laid.blockListed block data cached, decide_eq_true rfl⟩
      · rw [cached]
        rfl
    · obtain ⟨real, listed⟩ := laid.inodeListed block ((laid.inodes block).mp ⟨inode, found⟩)
      apply List.mem_flatMap.mpr
      refine ⟨hashBucket real, List.mem_range.mpr (hashBucket_lt real), ?_⟩
      apply List.mem_append_right
      refine List.mem_filterMap.mpr ⟨(real, block), ?_, ?_⟩
      · exact List.mem_filter.mpr ⟨listed, decide_eq_true rfl⟩
      · rw [found]
        rfl

/-- The finished image: where everything is on disk. -/
structure Written (first : Nat) (layout : Layout) (sfs : Mksfs) (img : Nat → Bytes) : Prop where
  super : img sfsBlknSuper = written (superBytes sfs) superSize
  freemap : ∀ k, k < sfsFreemapBlocks sfs.ninos → img (sfsBlknFreemap + k) =
    freemapBlock sfs.ninos sfs.nextIno (k * sfsBlkbits)
  inodes : ∀ ino inode, sfs.inodes ino = some inode →
    img ino = written inode.toBytes cacheInodeSize
  caches : ∀ block cache, sfs.cacheBlocks block = some cache → img block = cache
  leaves : ∀ block ino position, layout.use block = some (.leaf ino position) →
    img block = sfs.img block

/-- `close_sfs` -/
theorem closeSfs_leaves (laid : Laid first layout sfs)
    (isFirst : first = sfsBlknFreemap + sfsFreemapBlocks sfs.ninos) :
    Leaves closeSfs sfs fun _ after => ∃ img, after = sfs.setImg img ∧
      Written first layout sfs img := by
  have range := laid.range
  have start := laid.sized.start
  have freemapIs : sfsBlknFreemap = 2 := rfl
  have rootIs : sfsBlknRoot = 1 := rfl
  have superIs : sfsBlknSuper = 0 := rfl
  have member : ∀ data len block, _ ↔ _ := fun data len block =>
    @mem_bucketWrites first layout sfs block data len laid
  unfold closeSfs
  apply ensures_read
  generalize (List.range hashListSize).flatMap (bucketWrites sfs) = writes at member ⊢
  apply (writeFreemap_leaves 0 sfsBlknFreemap _).bind
  rintro ⟨⟩ between1 ⟨img1, rfl, mapped, others⟩
  apply writeBlock_leaves.bind
  rintro ⟨⟩ between2 rfl
  apply (flush_leaves _).weaken
  rintro ⟨⟩ after ⟨img, rfl, holds⟩
  refine ⟨img, rfl, ?_⟩
  -- the blocks that are not used are only written before the hash lists
  have unused : ∀ block value, layout.use block = none →
      Function.update img1 sfsBlknSuper (written (superBytes sfs) superSize) block = value →
        img block = value := by
    intro block value none same
    apply holds block value ?_ (Or.inr same)
    intro data len among
    rcases (member data len block).mp among with ⟨_, cached⟩ | ⟨inode, found, _, _⟩
    · obtain ⟨ino, ⟨number, used⟩ | used⟩ := laid.cached block data cached
      · rw [none] at used
        cases used
      · rw [none] at used
        cases used
    · have used := (laid.inodes block).mp ⟨inode, found⟩
      rw [none] at used
      cases used
  have free : ∀ block, block < first → block ≠ sfsBlknRoot → layout.use block = none := by
    intro block low notRoot
    cases used : layout.use block with
    | none => rfl
    | some use =>
        rcases (range block use used).2 with high | ⟨isRoot, _⟩
        · omega
        · exact absurd isRoot notRoot
  constructor
  · exact unused _ _ (free _ (by omega) (by decide)) (Function.update_self _ _ _)
  · intro k low
    apply unused _ _ (free _ (by omega) (by omega))
    refine (Function.update_of_ne (by omega) _ _).trans ?_
    rw [mapped k low, Nat.zero_add]
  · intro ino inode found
    have used := (laid.inodes ino).mp ⟨inode, found⟩
    apply holds ino
    · intro data len among
      rcases (member data len ino).mp among with ⟨_, cached⟩ | ⟨inode', found', rfl, rfl⟩
      · obtain ⟨owner, ⟨number, isIndex⟩ | isIndex⟩ := laid.cached ino data cached
        · rw [used] at isIndex
          cases isIndex
        · rw [used] at isIndex
          cases isIndex
      · rw [found] at found'
        cases found'
        rfl
    · exact Or.inl ⟨_, _, (member _ _ _).mpr (Or.inr ⟨inode, found, rfl, rfl⟩)⟩
  · intro block cache cached
    apply holds block
    · intro data len among
      rcases (member data len block).mp among with ⟨rfl, cached'⟩ | ⟨inode, found, _, _⟩
      · rw [cached] at cached'
        cases cached'
        exact if_pos rfl
      · have used := (laid.inodes block).mp ⟨inode, found⟩
        obtain ⟨owner, ⟨number, isIndex⟩ | isIndex⟩ := laid.cached block cache cached
        · rw [used] at isIndex
          cases isIndex
        · rw [used] at isIndex
          cases isIndex
    · exact Or.inl ⟨_, _, (member _ _ _).mpr (Or.inl ⟨rfl, cached⟩)⟩
  · intro block ino position used
    have place := range block _ used
    apply holds block
    · intro data len among
      rcases (member data len block).mp among with ⟨_, cached⟩ | ⟨inode, found, _, _⟩
      · obtain ⟨owner, ⟨number, isIndex⟩ | isIndex⟩ := laid.cached block data cached
        · rw [used] at isIndex
          cases isIndex
        · rw [used] at isIndex
          cases isIndex
      · have isInode := (laid.inodes block).mp ⟨inode, found⟩
        rw [used] at isInode
        cases isInode
    · right
      have high : first ≤ block := by
        rcases place.2 with high | ⟨_, impossible⟩
        · exact high
        · cases impossible
      refine (Function.update_of_ne (by omega) _ _).trans ?_
      refine others block (Or.inr ?_)
      rw [isFirst] at high
      exact high

/-! ## The superblock and the free map -/

theorem superBytes_number {offset value : Nat} (inside : offset + 4 ≤ superSize)
    (small : value < 2 ^ 32) (bytes : ∀ position, position < 4 →
      superBytes sfs (offset + position) = UInt8.ofNat (value / 256 ^ position)) :
    (written (superBytes sfs) superSize).number offset 4 = value := by
  have isPart : written (superBytes sfs) superSize =
      Bytes.zeros.overlay 0 superSize (superBytes sfs) := if_neg (by decide)
  rw [isPart, @Bytes.number_of_bytes _ _ value]
  · exact Nat.mod_eq_of_lt small
  · intro position low
    rw [Bytes.overlay_inside (Nat.zero_le _) (by omega), Nat.sub_zero]
    exact bytes position low

theorem Written.onDisk {img : Nat → Bytes} (finished : Written first layout sfs img)
    (sized : Sized first sfs) : FreemapOnDisk sfs.ninos sfs.nextIno img := by
  have small := sized.small
  unfold sfsMaxNblks at small
  constructor
  · show (img sfsBlknSuper).number 0 4 = sfsMagic
    rw [finished.super]
    apply superBytes_number (by decide) (by decide)
    intro position low
    rw [Nat.zero_add, superBytes, if_pos low]
    rfl
  · show (img sfsBlknSuper).number 4 4 = sfs.ninos
    rw [finished.super, ← sized.blocks]
    apply superBytes_number (by decide) (by rw [sized.blocks]; omega)
    intro position low
    rw [superBytes, if_neg (by omega), if_pos (by omega), Nat.add_sub_cancel_left]
    rfl
  · show (img sfsBlknSuper).number 8 4 = sfs.ninos - sfs.nextIno
    rw [finished.super, ← sized.unused]
    apply superBytes_number (by decide) (by rw [sized.unused]; omega)
    intro position low
    rw [superBytes, if_neg (by omega), if_neg (by omega), if_pos (by omega),
      Nat.add_sub_cancel_left]
    rfl
  · exact finished.freemap

/-! ## What an image uses -/

/-- The use of a block that can be reached from the root: over the pointers of an inode, the words
of its index blocks, and the entries of a directory. -/
inductive Reaches (disk : Nat → Bytes) : Nat → Use → Prop
  | root : Reaches disk sfsBlknRoot .inode
  | direct {ino k : Nat} (holder : Reaches disk ino .inode) (inside : k < sfsNdirect)
      (points : (DiskInode.ofBytes (disk ino)).direct k ≠ 0) :
      Reaches disk ((DiskInode.ofBytes (disk ino)).direct k) (.leaf ino k)
  | indirect {ino : Nat} (holder : Reaches disk ino .inode)
      (points : (DiskInode.ofBytes (disk ino)).indirect ≠ 0) :
      Reaches disk (DiskInode.ofBytes (disk ino)).indirect (.index ino 0)
  | dbIndirect {ino : Nat} (holder : Reaches disk ino .inode)
      (points : (disk ino).number diskInodeSize 4 ≠ 0) :
      Reaches disk ((disk ino).number diskInodeSize 4) (.index2 ino)
  | table {ino block word : Nat} (holder : Reaches disk block (.index2 ino))
      (inside : word < sfsBlkNentry) (points : (disk block).number (4 * word) 4 ≠ 0) :
      Reaches disk ((disk block).number (4 * word) 4) (.index ino (word + 1))
  | word {ino block number word : Nat} (holder : Reaches disk block (.index ino number))
      (inside : word < sfsBlkNentry) (points : (disk block).number (4 * word) 4 ≠ 0) :
      Reaches disk ((disk block).number (4 * word) 4) (.leaf ino (tableBase number + word))
  | entry {ino block position : Nat} (holder : Reaches disk block (.leaf ino position))
      (isDir : (DiskInode.ofBytes (disk ino)).type = sfsTypeDir) :
      Reaches disk ((disk block).number 0 4) .inode

/-- A block of the image: the superblock, a block of the free map, or one that is reached. -/
def ImageUses (disk : Nat → Bytes) (block : Nat) : Prop :=
  block = sfsBlknSuper ∨
  (∃ k, k < sfsFreemapBlocks (SfsSuper.ofBytes (disk sfsBlknSuper)).blocks ∧
    block = sfsBlknFreemap + k) ∨
  ∃ use, Reaches disk block use

/-- The inode on disk that is a whole block. -/
theorem inode_number {offset width : Nat} (inside : offset + width ≤ diskInodeSize) :
    (written inode.toBytes cacheInodeSize).number offset width =
      (Bytes.zeros.overlay 0 diskInodeSize inode.din.toBytes).number offset width := by
  have isPart : written inode.toBytes cacheInodeSize =
      Bytes.zeros.overlay 0 cacheInodeSize inode.toBytes := if_neg (by decide)
  have sizes : diskInodeSize + 4 = cacheInodeSize := rfl
  rw [isPart]
  apply Bytes.number_congr
  intro position _ low
  rw [Bytes.overlay_inside (Nat.zero_le _) (by omega),
    Bytes.overlay_inside (Nat.zero_le _) (by omega), Nat.sub_zero]
  exact Bytes.overlay_outside (Or.inl (by omega))

theorem inode_direct {k : Nat} (inside : k < sfsNdirect) :
    (DiskInode.ofBytes (written inode.toBytes cacheInodeSize)).direct k =
      inode.din.direct k % 2 ^ 32 := by
  rw [← @DiskInode.stored_direct inode.din Bytes.zeros k inside]
  apply inode_number
  unfold sfsNdirect at inside
  unfold diskInodeSize
  omega

theorem inode_indirect : (DiskInode.ofBytes (written inode.toBytes cacheInodeSize)).indirect =
    inode.din.indirect % 2 ^ 32 := by
  rw [← @DiskInode.stored_indirect inode.din Bytes.zeros]
  exact inode_number (by decide)

theorem inode_type : (DiskInode.ofBytes (written inode.toBytes cacheInodeSize)).type =
    inode.din.type % 2 ^ 16 := by
  rw [← @DiskInode.stored_type inode.din Bytes.zeros]
  exact inode_number (by decide)

theorem inode_dbIndirect (small : inode.dbIndirect < 2 ^ 32) :
    (written inode.toBytes cacheInodeSize).number diskInodeSize 4 = inode.dbIndirect := by
  have isPart : written inode.toBytes cacheInodeSize =
      Bytes.zeros.overlay 0 cacheInodeSize inode.toBytes := if_neg (by decide)
  have sizes : diskInodeSize + 4 = cacheInodeSize := rfl
  rw [isPart, @Bytes.number_of_bytes _ _ inode.dbIndirect]
  · exact Nat.mod_eq_of_lt small
  · intro position low
    rw [Bytes.overlay_inside (Nat.zero_le _) (by omega), Nat.sub_zero]
    unfold CacheInode.toBytes
    rw [Bytes.overlay_inside (by omega) (by omega), Nat.add_sub_cancel_left]
    rfl

/-- What can be reached has the use that the builder has it for. -/
theorem Written.reaches {img : Nat → Bytes} {use : Use} (finished : Written first layout sfs img)
    (laid : Laid first layout sfs) (reached : Reaches img block use) :
    layout.use block = some use := by
  have isInode : ∀ ino, layout.use ino = some .inode → ∃ inode,
      sfs.inodes ino = some inode ∧ InodeLaid layout ino inode ∧
        img ino = written inode.toBytes cacheInodeSize := by
    intro ino used
    obtain ⟨inode, found⟩ := (laid.inodes ino).mpr used
    exact ⟨inode, found, laid.laid ino inode found, finished.inodes ino inode found⟩
  have word : ∀ {other : Nat} {other' : Use}, layout.use other = some other' →
      other % 2 ^ 32 = other := fun used => Nat.mod_eq_of_lt (laid.used_small used)
  induction reached with
  | root => exact laid.root
  | @direct ino k _ inside points inductionHypothesis =>
      obtain ⟨inode, found, pointers, stored⟩ := isInode ino inductionHypothesis
      rw [stored, inode_direct inside] at points ⊢
      by_cases low : k < inode.nblks
      · rw [word (pointers.direct k inside low)]
        exact pointers.direct k inside low
      · rw [pointers.noDirect k (Nat.not_lt.mp low)] at points
        exact absurd rfl points
  | @indirect ino _ points inductionHypothesis =>
      obtain ⟨inode, found, pointers, stored⟩ := isInode ino inductionHypothesis
      rw [stored, inode_indirect] at points ⊢
      rcases Nat.eq_zero_or_pos (layout.tables ino) with none | some
      · rw [pointers.noIndirect none] at points
        exact absurd rfl points
      · rw [word (pointers.indirect some)]
        exact pointers.indirect some
  | @dbIndirect ino _ points inductionHypothesis =>
      obtain ⟨inode, found, pointers, stored⟩ := isInode ino inductionHypothesis
      cases double : layout.double ino with
      | false =>
          have zero := pointers.noDbIndirect double
          rw [stored, inode_dbIndirect (by omega)] at points
          exact absurd zero points
      | true =>
          have used := pointers.dbIndirect double
          rw [stored, inode_dbIndirect (laid.used_small used)]
          exact used
  | @table ino block word' _ inside points inductionHypothesis =>
      obtain ⟨_, _, cache, cached, words⟩ := laid.index2s block ino inductionHypothesis
      rw [finished.caches block cache cached] at points ⊢
      by_cases low : word' + 1 < layout.tables ino
      · exact words.filled word' inside low
      · exact absurd (words.empty word' inside (Nat.not_lt.mp low)) points
  | @word ino block number word' _ inside points inductionHypothesis =>
      obtain ⟨_, inode, cache, found, cached, words⟩ :=
        laid.indexes block ino number inductionHypothesis
      rw [finished.caches block cache cached] at points ⊢
      by_cases low : tableBase number + word' < inode.nblks
      · exact words.filled word' inside low
      · exact absurd (words.empty word' inside (Nat.not_lt.mp low)) points
  | @entry ino block position _ isDir inductionHypothesis =>
      obtain ⟨inode, found, _⟩ := laid.leaves block ino position inductionHypothesis
      rw [finished.inodes ino inode found, inode_type,
        Nat.mod_eq_of_lt (laid.laid ino inode found).type] at isDir
      rw [finished.leaves block ino position inductionHypothesis]
      exact laid.entries block ino position inode inductionHypothesis found isDir

/-- Every block of the image is below the first free one. -/
theorem Written.uses_below {img : Nat → Bytes} (finished : Written first layout sfs img)
    (laid : Laid first layout sfs) (isFirst : first = sfsBlknFreemap + sfsFreemapBlocks sfs.ninos)
    (used : ImageUses img block) : block < sfs.nextIno := by
  have low := laid.sized.first
  have start := laid.sized.start
  rcases used with rfl | ⟨k, inside, rfl⟩ | ⟨use, reached⟩
  · unfold sfsBlknSuper
    omega
  · rw [(finished.onDisk laid.sized).blocks] at inside
    omega
  · exact (laid.range block use (finished.reaches laid reached)).1

/-! ## Mounting the image -/

/-- What holds when `mksfs` has finished. -/
theorem mksfs_leaves {imgSize : Nat} {img : Nat → Bytes} {memory entry : Bytes} {home : HostDir} :
    Leaves (mksfs imgSize img memory entry files home) sfs fun _ after =>
      ∃ first layout last, Built first files layout last ∧
        first = sfsBlknFreemap + sfsFreemapBlocks last.ninos ∧ after = last.setImg after.img ∧
        Written first layout last after.img := by
  unfold mksfs
  apply createSfs_leaves.bind
  rintro ⟨⟩ empty ⟨layout0, built0⟩
  apply (openRoot_leaves home built0).bind
  rintro ⟨⟩ last ⟨layout1, built1, later1⟩
  have isFirst : sfsBlknFreemap + sfsFreemapBlocks empty.ninos =
      sfsBlknFreemap + sfsFreemapBlocks last.ninos := by
    rw [later1.ninos]
  apply (closeSfs_leaves built1.laid isFirst).weaken
  rintro ⟨⟩ after ⟨img', rfl, finished⟩
  exact ⟨_, layout1, last, built1, isFirst, rfl, finished⟩

/-- The program returns. -/
def finishes (program : MksfsM Unit) (sfs : Mksfs) : Bool :=
  match program sfs with
  | .ok (.ok (), _) => true
  | .error _ => false

theorem returns_of_finishes {program : MksfsM Unit} (does : finishes program sfs = true) :
    ∃ after, program sfs = .ok (.ok (), after) := by
  unfold finishes at does
  split at does
  · exact ⟨_, ‹_›⟩
  · cases does

/-- When `mksfs` has finished, the free map on disk has exactly the blocks from `next_ino` on, the
superblock has their number, and all that the image uses is below. So mounting never fails the
assertion on that number, a device that has all blocks is mounted, and whatever `bitmap_alloc`
answers then is a block of the file system that the image does not use. -/
theorem mksfs_image_mounts (imgSize : Nat) (img : Nat → Bytes) (memory entry : Bytes)
    (files : Nat → HostFile) (home : HostDir) (start after : Mksfs)
    (ran : mksfs imgSize img memory entry files home start = .ok (.ok (), after)) :
    let super := SfsSuper.ofBytes (after.img sfsBlknSuper)
    let freemap := readFreemap after.img (sfsFreemapBits super.blocks)
    super.blocks = after.ninos ∧
    (∀ i, freemap i = true ↔ after.nextIno ≤ i ∧ i < after.ninos) ∧
    super.unusedBlocks = (List.range (sfsFreemapBits super.blocks)).countP freemap ∧
    (∀ block, ImageUses after.img block → block < after.nextIno) ∧
    ∀ dBlocks,
      (∃ result, sfsDoMount dBlocks after.img = .ok result) ∧
      (after.ninos ≤ dBlocks → ∃ mounted info,
        sfsDoMount dBlocks after.img = .ok (.ok (mounted, info))) ∧
      ∀ mounted info, sfsDoMount dBlocks after.img = .ok (.ok (mounted, info)) →
        ∀ calls answers last, bitmapAllocs calls mounted = .ok (.ok answers, last) →
          ∀ ino ∈ answers, ¬ ImageUses after.img ino ∧ ino < super.blocks := by
  have leaves := mksfs_leaves.of_ok ran () rfl
  obtain ⟨first, layout, last, built, isFirst, isAfter, finished⟩ := leaves
  have sized := built.laid.sized
  have ninos : after.ninos = last.ninos := by
    rw [isAfter]
    rfl
  have nextIno : after.nextIno = last.nextIno := by
    rw [isAfter]
    rfl
  have onDisk := finished.onDisk sized
  have below : ∀ block, ImageUses after.img block → block < after.nextIno := by
    intro block used
    rw [nextIno]
    exact finished.uses_below built.laid isFirst used
  have freemap := onDisk.readFreemap
  have some : 0 < last.ninos := by
    have low := sized.start
    have first' := sized.first
    have high := sized.last
    omega
  have inside : sfsBlknFreemap + sfsFreemapBlocks last.ninos ≤ last.ninos := by
    have first' := sized.first
    have high := sized.last
    omega
  simp only []
  rw [onDisk.blocks, ninos, nextIno]
  refine ⟨rfl, ?_, ?_, ?_, ?_⟩
  · intro i
    rw [freemap]
    exact decide_eq_true_iff
  · rw [onDisk.counted]
    exact onDisk.unusedBlocks
  · rw [← nextIno]
    exact below
  · intro dBlocks
    refine ⟨onDisk.mount_returns some, ?_, ?_⟩
    · intro fits
      obtain ⟨info, mounted⟩ := onDisk.mounts some inside fits
      exact ⟨_, info, mounted⟩
    · intro mounted info isMounted calls answers last' alloced ino member
      have isFree : mounted.freemap ino = true :=
        (bitmapAllocs_free calls mounted).of_ok alloced answers rfl ino member
      rw [onDisk.mounted_freemap isMounted] at isFree
      obtain ⟨high, inside'⟩ := of_decide_eq_true isFree
      refine ⟨?_, inside'⟩
      intro used
      have low := below ino used
      omega

/-- An image that is not made yet. -/
def noImage : Mksfs :=
  ⟨0, 0, Bytes.zeros, 0, 0, fun _ => none, [], fun _ => none, [], Bytes.zeros, fun _ => Bytes.zeros⟩

/-- An image of 64 blocks with a file, a directory and a link to the file in it. -/
def smallImage : MksfsM Unit :=
  mksfs (64 * 4096) (fun _ => Bytes.zeros) Bytes.zeros Bytes.zeros (fun _ => ⟨5000, fun _ => 7⟩)
    (.file [97] 5 (.dir [98] 6 (.file [99] 5 .nil) .nil))

theorem smallImage_finishes : finishes smallImage noImage = true := by decide +kernel

theorem mksfs_image_mounts_small : ∃ after, smallImage noImage = .ok (.ok (), after) ∧
    (∀ i, readFreemap after.img
        (sfsFreemapBits (SfsSuper.ofBytes (after.img sfsBlknSuper)).blocks) i = true ↔
      after.nextIno ≤ i ∧ i < after.ninos) ∧
    ∀ block, ImageUses after.img block → block < after.nextIno := by
  obtain ⟨after, ran⟩ := returns_of_finishes smallImage_finishes
  obtain ⟨_, freemap, _, below, _⟩ := mksfs_image_mounts (64 * 4096) (fun _ => Bytes.zeros)
    Bytes.zeros Bytes.zeros (fun _ => ⟨5000, fun _ => 7⟩)
    (.file [97] 5 (.dir [98] 6 (.file [99] 5 .nil) .nil)) noImage after ran
  exact ⟨after, ran, freemap, below⟩

end UCore.Tools
