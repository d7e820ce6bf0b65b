import UCore.Tools.Mksfs

/-!
Contract: how the blocks of an image under construction are used.

Owns:
- the use of a block: an inode, a block of a file or directory, or an index block of one;
- the invariant that every pointer of an inode and of an index block leads to the block with the
  use it is for;
- how the invariant survives each change that the functions of `mksfs` make.

The uses are not in the source. A file has the index blocks that its length needs, but for the
moment between the allocation of an index block and the entry that it is allocated for.

Does not own: the functions of `mksfs`.
-/

set_option autoImplicit false

namespace UCore.Tools

open UCore.Lib UCore.Fs

/-! ## Uses -/

/-- What a block is used for: an inode, the block at `position` of the file `owner`, the index block
`number` of its file, counted from the one that `indirect` points to, or its second-level index
block. -/
inductive Use
  | inode
  | leaf (owner position : Nat)
  | index (owner number : Nat)
  | index2 (owner : Nat)
deriving DecidableEq, Repr

/-- The uses of the blocks, how many index blocks each file has, and whether it has one of the
second level. -/
structure Layout where
  use : Nat → Option Use
  tables : Nat → Nat
  double : Nat → Bool

/-- More blocks are used. -/
def Layout.Extends (layout before : Layout) : Prop :=
  ∀ block use, before.use block = some use → layout.use block = some use

/-- The blocks that an inode points to. -/
structure InodeLaid (layout : Layout) (ino : Nat) (inode : CacheInode) : Prop where
  direct : ∀ k, k < sfsNdirect → k < inode.nblks →
    layout.use (inode.din.direct k) = some (.leaf ino k)
  noDirect : ∀ k, inode.nblks ≤ k → inode.din.direct k = 0
  indirect : 0 < layout.tables ino → layout.use inode.din.indirect = some (.index ino 0)
  noIndirect : layout.tables ino = 0 → inode.din.indirect = 0
  dbIndirect : layout.double ino = true → layout.use inode.dbIndirect = some (.index2 ino)
  noDbIndirect : layout.double ino = false → inode.dbIndirect = 0
  small : inode.nblks ≤ sfsLnNblks
  blocks : inode.din.blocks = inode.nblks
  type : inode.din.type < 2 ^ 16

/-- The words of an index block: the blocks from `base` on of the file `ino`. -/
structure WordsLaid (layout : Layout) (ino base nblks : Nat) (cache : Bytes) : Prop where
  filled : ∀ word, word < sfsBlkNentry → base + word < nblks →
    layout.use (cache.number (4 * word) 4) = some (.leaf ino (base + word))
  empty : ∀ word, word < sfsBlkNentry → nblks ≤ base + word → cache.number (4 * word) 4 = 0

/-- The words of a second-level index block. -/
structure TablesLaid (layout : Layout) (ino : Nat) (cache : Bytes) : Prop where
  filled : ∀ word, word < sfsBlkNentry → word + 1 < layout.tables ino →
    layout.use (cache.number (4 * word) 4) = some (.index ino (word + 1))
  empty : ∀ word, word < sfsBlkNentry → layout.tables ino ≤ word + 1 →
    cache.number (4 * word) 4 = 0

/-- The sizes and the counters of the image. -/
structure Sized (first : Nat) (sfs : Mksfs) : Prop where
  blocks : sfs.blocks = sfs.ninos
  small : sfs.ninos ≤ sfsMaxNblks
  unused : sfs.unusedBlocks = sfs.ninos - sfs.nextIno
  start : sfsBlknFreemap < first
  first : first ≤ sfs.nextIno
  last : sfs.nextIno ≤ sfs.ninos

/-- The first block of the file `ino` that the index block `number` has. -/
def tableBase (number : Nat) : Nat := sfsNdirect + sfsBlkNentry * number

structure Laid (first : Nat) (layout : Layout) (sfs : Mksfs) : Prop where
  sized : Sized first sfs
  range : ∀ block use, layout.use block = some use →
    block < sfs.nextIno ∧ (first ≤ block ∨ (block = sfsBlknRoot ∧ use = .inode))
  once : ∀ block other use, layout.use block = some use → layout.use other = some use →
    use ≠ .inode → block = other
  root : layout.use sfsBlknRoot = some .inode
  inodes : ∀ ino, (∃ inode, sfs.inodes ino = some inode) ↔ layout.use ino = some .inode
  laid : ∀ ino inode, sfs.inodes ino = some inode → InodeLaid layout ino inode
  leaves : ∀ block ino position, layout.use block = some (.leaf ino position) →
    ∃ inode, sfs.inodes ino = some inode ∧ position < inode.nblks
  indexes : ∀ block ino number, layout.use block = some (.index ino number) →
    number < layout.tables ino ∧ ∃ inode cache, sfs.inodes ino = some inode ∧
      sfs.cacheBlocks block = some cache ∧
      WordsLaid layout ino (tableBase number) inode.nblks cache
  index2s : ∀ block ino, layout.use block = some (.index2 ino) →
    layout.double ino = true ∧ (∃ inode, sfs.inodes ino = some inode) ∧
      ∃ cache, sfs.cacheBlocks block = some cache ∧ TablesLaid layout ino cache
  cached : ∀ block cache, sfs.cacheBlocks block = some cache →
    ∃ ino, (∃ number, layout.use block = some (.index ino number)) ∨
      layout.use block = some (.index2 ino)
  entries : ∀ block ino position inode, layout.use block = some (.leaf ino position) →
    sfs.inodes ino = some inode → inode.din.type = sfsTypeDir →
    layout.use ((sfs.img block).number 0 4) = some .inode
  inodeListed : ∀ ino, layout.use ino = some .inode → ∃ real, (real, ino) ∈ sfs.inodeList
  listedInode : ∀ real ino, (real, ino) ∈ sfs.inodeList → layout.use ino = some .inode
  blockListed : ∀ block cache, sfs.cacheBlocks block = some cache →
    (hashBucket 0, block) ∈ sfs.blockList

/-- Each file has the index blocks that its length needs. -/
def Tight (layout : Layout) (sfs : Mksfs) : Prop :=
  ∀ ino inode, sfs.inodes ino = some inode →
    layout.tables ino = (inode.nblks + (sfsBlkNentry - 1 - sfsNdirect)) / sfsBlkNentry ∧
      layout.double ino = decide (sfsL1Nblks < inode.nblks)

variable {first : Nat} {layout before : Layout} {sfs after : Mksfs} {ino other block : Nat}
  {inode inode' : CacheInode} {cache : Bytes} {use : Use}

/-- The use is one of the file. -/
def Use.Of (ino : Nat) : Use → Prop
  | .inode => False
  | .leaf owner _ | .index owner _ | .index2 owner => owner = ino

namespace Layout

/-- A block gets a use. -/
def setUse (layout : Layout) (block : Nat) (use : Use) : Layout :=
  { layout with use := Function.update layout.use block (some use) }

def setTables (layout : Layout) (ino tables : Nat) : Layout :=
  { layout with tables := Function.update layout.tables ino tables }

def setDouble (layout : Layout) (ino : Nat) (double : Bool) : Layout :=
  { layout with double := Function.update layout.double ino double }

theorem Extends.refl : layout.Extends layout := fun _ _ used => used

theorem Extends.trans {middle : Layout} (second : layout.Extends middle)
    (first : middle.Extends before) : layout.Extends before :=
  fun block use used => second block use (first block use used)

theorem extends_setUse (unused : layout.use block = none) :
    (layout.setUse block use).Extends layout := by
  intro other use' used
  have apart : other ≠ block := by
    rintro rfl
    rw [unused] at used
    cases used
  show Function.update layout.use block (some use) other = some use'
  rw [Function.update_of_ne apart]
  exact used

theorem setUse_self : (layout.setUse block use).use block = some use :=
  Function.update_self _ _ _

/-- Only the new block has a new use. -/
theorem setUse_cases {use' : Use} (used : (layout.setUse block use).use other = some use') :
    (other = block ∧ use' = use) ∨ (other ≠ block ∧ layout.use other = some use') := by
  by_cases same : other = block
  · subst same
    rw [setUse_self] at used
    exact Or.inl ⟨rfl, (Option.some.inj used).symm⟩
  · right
    have old : Function.update layout.use block (some use) other = some use' := used
    rw [Function.update_of_ne same] at old
    exact ⟨same, old⟩

end Layout

theorem Sized.same (sized : Sized first sfs) (blocks : after.blocks = sfs.blocks)
    (ninos : after.ninos = sfs.ninos) (unusedBlocks : after.unusedBlocks = sfs.unusedBlocks)
    (nextIno : after.nextIno = sfs.nextIno) : Sized first after := by
  obtain ⟨sameBlocks, small, unused, start, low, last⟩ := sized
  constructor
  · rw [blocks, ninos, sameBlocks]
  · rwa [ninos]
  · rw [unusedBlocks, ninos, nextIno, unused]
  · exact start
  · rwa [nextIno]
  · rwa [nextIno, ninos]

/-- What an inode points to keeps its use. -/
theorem InodeLaid.mono (laid : InodeLaid before ino inode) (extension : layout.Extends before)
    (tables : layout.tables ino = before.tables ino)
    (double : layout.double ino = before.double ino) : InodeLaid layout ino inode where
  direct k low inside := extension _ _ (laid.direct k low inside)
  noDirect := laid.noDirect
  indirect some := extension _ _ (laid.indirect (tables ▸ some))
  noIndirect none := laid.noIndirect (tables ▸ none)
  dbIndirect some := extension _ _ (laid.dbIndirect (double ▸ some))
  noDbIndirect none := laid.noDbIndirect (double ▸ none)
  small := laid.small
  blocks := laid.blocks
  type := laid.type

theorem WordsLaid.mono {base nblks : Nat} (laid : WordsLaid before ino base nblks cache)
    (extension : layout.Extends before) : WordsLaid layout ino base nblks cache where
  filled word low inside := extension _ _ (laid.filled word low inside)
  empty := laid.empty

theorem TablesLaid.mono (laid : TablesLaid before ino cache) (extension : layout.Extends before)
    (tables : layout.tables ino = before.tables ino) : TablesLaid layout ino cache where
  filled word low inside := extension _ _ (laid.filled word low (tables ▸ inside))
  empty word low outside := laid.empty word low (tables ▸ outside)

/-! ## Changes of the image -/

namespace Mksfs

/-- The state after `sfs_alloc_ino`. -/
def alloc (sfs : Mksfs) : Mksfs :=
  { sfs with unusedBlocks := sfs.unusedBlocks - 1, nextIno := sfs.nextIno + 1 }

/-- The state after a new inode is cached. -/
def addInode (sfs : Mksfs) (real ino : Nat) (inode : CacheInode) : Mksfs :=
  { sfs.setInode ino inode with inodeList := (real, ino) :: sfs.inodeList }

/-- The state after a new block is cached. -/
def addCache (sfs : Mksfs) (block : Nat) : Mksfs :=
  { sfs.setCache block Bytes.zeros with blockList := (hashBucket 0, block) :: sfs.blockList }

end Mksfs

/-- A block that was allocated and is not used yet. -/
structure Spare (first : Nat) (layout : Layout) (sfs : Mksfs) (block : Nat) : Prop where
  unused : layout.use block = none
  low : first ≤ block
  high : block < sfs.nextIno

/-- A new use of a spare block: where the used blocks are, and that uses are not shared. -/
theorem Laid.range_setUse (laid : Laid first layout sfs) (spare : Spare first layout sfs block)
    {other : Nat} {use' : Use} (used : (layout.setUse block use).use other = some use') :
    other < sfs.nextIno ∧ (first ≤ other ∨ (other = sfsBlknRoot ∧ use' = .inode)) := by
  rcases Layout.setUse_cases used with ⟨rfl, _⟩ | ⟨_, old⟩
  · exact ⟨spare.high, Or.inl spare.low⟩
  · exact laid.range other use' old

theorem Laid.once_setUse (laid : Laid first layout sfs)
    (fresh : use ≠ .inode → ∀ other, layout.use other ≠ some use) {one two : Nat} {use' : Use}
    (first' : (layout.setUse block use).use one = some use')
    (second : (layout.setUse block use).use two = some use') (notInode : use' ≠ .inode) :
    one = two := by
  rcases Layout.setUse_cases first' with ⟨rfl, rfl⟩ | ⟨_, old⟩
  · rcases Layout.setUse_cases second with ⟨rfl, _⟩ | ⟨_, old⟩
    · rfl
    · exact absurd old (fresh notInode two)
  · rcases Layout.setUse_cases second with ⟨rfl, rfl⟩ | ⟨_, old'⟩
    · exact absurd old (fresh notInode one)
    · exact laid.once one two use' old old' notInode

/-- A spare block is an inode, a cached block and an entry of a directory of nothing. -/
theorem Laid.spare_uncached (laid : Laid first layout sfs) (spare : Spare first layout sfs block) :
    sfs.cacheBlocks block = none ∧ sfs.inodes block = none := by
  have unused := spare.unused
  constructor
  · cases cached : sfs.cacheBlocks block with
    | none => rfl
    | some cache =>
        obtain ⟨ino, ⟨number, used⟩ | used⟩ := laid.cached block cache cached
        · rw [unused] at used
          cases used
        · rw [unused] at used
          cases used
  · cases found : sfs.inodes block with
    | none => rfl
    | some inode =>
        have used := (laid.inodes block).mp ⟨inode, found⟩
        rw [unused] at used
        cases used

namespace Laid

variable (laid : Laid first layout sfs)

section

include laid

theorem alloc (room : sfs.nextIno < sfs.ninos) :
    Laid first layout sfs.alloc ∧ Spare first layout sfs.alloc sfs.nextIno := by
  have sized := laid.sized
  constructor
  · refine { laid with sized := ⟨sized.blocks, sized.small, ?_, sized.start, ?_, ?_⟩, range := ?_ }
    · show sfs.unusedBlocks - 1 = sfs.ninos - (sfs.nextIno + 1)
      rw [sized.unused]
      omega
    · exact sized.first.trans (Nat.le_succ _)
    · exact room
    · intro block use used
      obtain ⟨below, place⟩ := laid.range block use used
      exact ⟨Nat.lt_succ_of_lt below, place⟩
  · refine ⟨?_, sized.first, Nat.lt_succ_self _⟩
    cases used : layout.use sfs.nextIno with
    | none => rfl
    | some use =>
        have below := (laid.range _ use used).1
        omega

/-- A block is written that is not used yet. -/
theorem setBlock {data : Bytes} (unused : layout.use block = none) :
    Laid first layout (sfs.setBlock block data) := by
  refine { laid with sized := laid.sized.same rfl rfl rfl rfl, entries := ?_ }
  intro other ino position inode used found isDir
  have apart : other ≠ block := by
    rintro rfl
    rw [unused] at used
    cases used
  show layout.use ((Function.update sfs.img block data other).number 0 4) = some .inode
  rw [Function.update_of_ne apart]
  exact laid.entries other ino position inode used found isDir

/-- An inode changes that still points to the same blocks. -/
theorem setInode (found : sfs.inodes ino = some inode) (points : InodeLaid layout ino inode')
    (nblks : inode'.nblks = inode.nblks) (type : inode'.din.type = inode.din.type) :
    Laid first layout (sfs.setInode ino inode') := by
  have kept : ∀ other old, sfs.inodes other = some old →
      ∃ new, (sfs.setInode ino inode').inodes other = some new ∧ new.nblks = old.nblks ∧
        new.din.type = old.din.type := by
    intro other old was
    show ∃ new, Function.update sfs.inodes ino (some inode') other = some new ∧ _
    by_cases same : other = ino
    · subst same
      rw [found] at was
      cases was
      exact ⟨inode', Function.update_self _ _ _, nblks, type⟩
    · rw [Function.update_of_ne same]
      exact ⟨old, was, rfl, rfl⟩
  have was : ∀ other new, (sfs.setInode ino inode').inodes other = some new →
      ∃ old, sfs.inodes other = some old ∧ new.nblks = old.nblks ∧
        new.din.type = old.din.type := by
    intro other new is
    have is' : Function.update sfs.inodes ino (some inode') other = some new := is
    by_cases same : other = ino
    · subst same
      rw [Function.update_self] at is'
      cases is'
      exact ⟨inode, found, nblks, type⟩
    · rw [Function.update_of_ne same] at is'
      exact ⟨new, is', rfl, rfl⟩
  refine { laid with sized := laid.sized.same rfl rfl rfl rfl, inodes := ?_, laid := ?_, leaves := ?_, indexes := ?_,
                     index2s := ?_, entries := ?_ }
  · intro other
    rw [← laid.inodes other]
    constructor
    · rintro ⟨new, is⟩
      obtain ⟨old, found', _⟩ := was other new is
      exact ⟨old, found'⟩
    · rintro ⟨old, found'⟩
      obtain ⟨new, is, _⟩ := kept other old found'
      exact ⟨new, is⟩
  · intro other new is
    have is' : Function.update sfs.inodes ino (some inode') other = some new := is
    by_cases same : other = ino
    · subst same
      rw [Function.update_self] at is'
      cases is'
      exact points
    · rw [Function.update_of_ne same] at is'
      exact laid.laid other new is'
  · intro block other position used
    obtain ⟨old, found', inside⟩ := laid.leaves block other position used
    obtain ⟨new, is, length, _⟩ := kept other old found'
    exact ⟨new, is, length ▸ inside⟩
  · intro block other number used
    obtain ⟨low, old, cache, found', cached, words⟩ := laid.indexes block other number used
    obtain ⟨new, is, length, _⟩ := kept other old found'
    exact ⟨low, new, cache, is, cached, length ▸ words⟩
  · intro block other used
    obtain ⟨double, ⟨old, found'⟩, rest⟩ := laid.index2s block other used
    obtain ⟨new, is, _⟩ := kept other old found'
    exact ⟨double, ⟨new, is⟩, rest⟩
  · intro block other position new used is isDir
    obtain ⟨old, found', _, sameType⟩ := was other new is
    exact laid.entries block other position old used found' (sameType ▸ isDir)

/-- A new inode in a spare block. -/
theorem addInode {real : Nat} (spare : Spare first layout sfs ino) (empty : inode.nblks = 0)
    (direct : inode.din.direct = fun _ => 0) (indirect : inode.din.indirect = 0)
    (dbIndirect : inode.dbIndirect = 0) (blocks : inode.din.blocks = 0)
    (type : inode.din.type < 2 ^ 16) :
    Laid first (((layout.setUse ino .inode).setTables ino 0).setDouble ino false)
      (sfs.addInode real ino inode) := by
  obtain ⟨uncached, absent⟩ := laid.spare_uncached spare
  have extension : (((layout.setUse ino .inode).setTables ino 0).setDouble ino false).Extends
      layout := Layout.extends_setUse spare.unused
  have isOld : ∀ other old, sfs.inodes other = some old → other ≠ ino := by
    rintro other old found rfl
    rw [absent] at found
    cases found
  have kept : ∀ other old, sfs.inodes other = some old →
      (sfs.addInode real ino inode).inodes other = some old := by
    intro other old found
    exact (Function.update_of_ne (isOld other old found) _ _).trans found
  have cases' : ∀ other new, (sfs.addInode real ino inode).inodes other = some new →
      (other = ino ∧ new = inode) ∨ (other ≠ ino ∧ sfs.inodes other = some new) := by
    intro other new is
    have is' : Function.update sfs.inodes ino (some inode) other = some new := is
    by_cases same : other = ino
    · subst same
      rw [Function.update_self] at is'
      exact Or.inl ⟨rfl, (Option.some.inj is').symm⟩
    · rw [Function.update_of_ne same] at is'
      exact Or.inr ⟨same, is'⟩
  have tables : ∀ other, other ≠ ino →
      (((layout.setUse ino .inode).setTables ino 0).setDouble ino false).tables other =
        layout.tables other := fun other apart => Function.update_of_ne apart _ _
  have double : ∀ other, other ≠ ino →
      (((layout.setUse ino .inode).setTables ino 0).setDouble ino false).double other =
        layout.double other := fun other apart => Function.update_of_ne apart _ _
  constructor
  · exact laid.sized.same rfl rfl rfl rfl
  · exact fun block use used => laid.range_setUse spare used
  · exact fun one two use first' second notInode =>
      laid.once_setUse (fun impossible => absurd rfl impossible) first' second notInode
  · exact extension _ _ laid.root
  · intro other
    constructor
    · rintro ⟨new, is⟩
      rcases cases' other new is with ⟨rfl, _⟩ | ⟨_, found⟩
      · exact Layout.setUse_self
      · exact extension _ _ ((laid.inodes other).mp ⟨new, found⟩)
    · intro used
      rcases Layout.setUse_cases used with ⟨rfl, _⟩ | ⟨_, old⟩
      · exact ⟨inode, Function.update_self _ _ _⟩
      · obtain ⟨new, found⟩ := (laid.inodes other).mpr old
        exact ⟨new, kept other new found⟩
  · intro other new is
    rcases cases' other new is with ⟨rfl, rfl⟩ | ⟨apart, found⟩
    · have noTables : (((layout.setUse other .inode).setTables other 0).setDouble other
          false).tables other = 0 := Function.update_self _ _ _
      have noDouble : (((layout.setUse other .inode).setTables other 0).setDouble other
          false).double other = false := Function.update_self _ _ _
      constructor
      · intro k _ inside
        omega
      · intro k _
        rw [direct]
      · intro some
        omega
      · exact fun _ => indirect
      · intro some
        rw [noDouble] at some
        cases some
      · exact fun _ => dbIndirect
      · omega
      · rw [blocks, empty]
      · exact type
    · exact (laid.laid other new found).mono extension (tables other apart) (double other apart)
  · intro block other position used
    rcases Layout.setUse_cases used with ⟨_, impossible⟩ | ⟨_, old⟩
    · cases impossible
    · obtain ⟨new, found, inside⟩ := laid.leaves block other position old
      exact ⟨new, kept other new found, inside⟩
  · intro block other number used
    rcases Layout.setUse_cases used with ⟨_, impossible⟩ | ⟨_, old⟩
    · cases impossible
    · obtain ⟨low, new, cache, found, cached, words⟩ := laid.indexes block other number old
      refine ⟨?_, new, cache, kept other new found, cached, words.mono extension⟩
      rw [tables other (isOld other new found)]
      exact low
  · intro block other used
    rcases Layout.setUse_cases used with ⟨_, impossible⟩ | ⟨_, old⟩
    · cases impossible
    · obtain ⟨low, ⟨new, found⟩, cache, cached, words⟩ := laid.index2s block other old
      have apart := isOld other new found
      refine ⟨?_, ⟨new, kept other new found⟩, cache, cached,
        words.mono extension (tables other apart)⟩
      rw [double other apart]
      exact low
  · intro block cache cached
    obtain ⟨other, ⟨number, used⟩ | used⟩ := laid.cached block cache cached
    · exact ⟨other, Or.inl ⟨number, extension _ _ used⟩⟩
    · exact ⟨other, Or.inr (extension _ _ used)⟩
  · intro block other position new used is isDir
    rcases Layout.setUse_cases used with ⟨_, impossible⟩ | ⟨_, old⟩
    · cases impossible
    · obtain ⟨_, found, _⟩ := laid.leaves block other position old
      rcases cases' other new is with ⟨rfl, _⟩ | ⟨_, found'⟩
      · rw [absent] at found
        cases found
      · exact extension _ _ (laid.entries block other position new old found' isDir)
  · intro other used
    rcases Layout.setUse_cases used with ⟨rfl, _⟩ | ⟨_, old⟩
    · exact ⟨real, List.mem_cons_self⟩
    · obtain ⟨real', member⟩ := laid.inodeListed other old
      exact ⟨real', List.mem_cons_of_mem _ member⟩
  · intro real' other member
    rcases List.mem_cons.mp member with same | old
    · cases same
      exact Layout.setUse_self
    · exact extension _ _ (laid.listedInode real' other old)
  · exact laid.blockListed

end

/-- The change of one file: a spare block gets a use of the file, its inode and its index blocks
point to it. -/
structure Relink (layout layout' : Layout) (sfs after : Mksfs) (ino : Nat)
    (inode inode' : CacheInode) (block : Nat) (use : Use) : Prop where
  used : layout'.use = Function.update layout.use block (some use)
  own : use.Of ino
  fresh : ∀ other, layout.use other ≠ some use
  tables : ∀ other, other ≠ ino → layout'.tables other = layout.tables other
  double : ∀ other, other ≠ ino → layout'.double other = layout.double other
  inodes : after.inodes = Function.update sfs.inodes ino (some inode')
  img : after.img = sfs.img
  inodeList : after.inodeList = sfs.inodeList
  nblks : inode.nblks ≤ inode'.nblks
  type : inode'.din.type = inode.din.type
  points : InodeLaid layout' ino inode'
  leaf : ∀ position, use = .leaf ino position → position < inode'.nblks ∧
    (inode.din.type = sfsTypeDir → layout.use ((sfs.img block).number 0 4) = some .inode)
  indexes : ∀ block number, layout'.use block = some (.index ino number) →
    number < layout'.tables ino ∧ ∃ cache, after.cacheBlocks block = some cache ∧
      WordsLaid layout' ino (tableBase number) inode'.nblks cache
  index2s : ∀ block, layout'.use block = some (.index2 ino) →
    layout'.double ino = true ∧ ∃ cache, after.cacheBlocks block = some cache ∧
      TablesLaid layout' ino cache
  caches : ∀ block cache, after.cacheBlocks block = some cache →
    after.cacheBlocks block = sfs.cacheBlocks block ∨
      ((∃ number, layout'.use block = some (.index ino number)) ∨
        layout'.use block = some (.index2 ino))
  othersCached : ∀ other cache, sfs.cacheBlocks other = some cache →
    after.cacheBlocks other = some cache ∨
      ((∃ number, layout.use other = some (.index ino number)) ∨
        layout.use other = some (.index2 ino))
  blockListed : ∀ block cache, after.cacheBlocks block = some cache →
    (hashBucket 0, block) ∈ after.blockList

include laid in
theorem relink {layout' : Layout} (spare : Spare first layout sfs block)
    (found : sfs.inodes ino = some inode) (sized : Sized first after)
    (nextIno : after.nextIno = sfs.nextIno)
    (change : Relink layout layout' sfs after ino inode inode' block use) :
    Laid first layout' after := by
  have extension : layout'.Extends layout := by
    intro other use' used
    rw [change.used]
    exact Layout.extends_setUse spare.unused other use' used
  have useCases : ∀ other use', layout'.use other = some use' →
      (other = block ∧ use' = use) ∨ (other ≠ block ∧ layout.use other = some use') := by
    intro other use' used
    rw [change.used] at used
    exact Layout.setUse_cases used
  have kept : ∀ other, other ≠ ino → after.inodes other = sfs.inodes other := by
    intro other apart
    rw [change.inodes, Function.update_of_ne apart]
  have own : after.inodes ino = some inode' := by
    rw [change.inodes, Function.update_self]
  -- an index block of another file is cached as before
  have still : ∀ other owner cache, owner ≠ ino → sfs.cacheBlocks other = some cache →
      ((∃ number, layout.use other = some (.index owner number)) ∨
        layout.use other = some (.index2 owner)) → after.cacheBlocks other = some cache := by
    intro other owner cache apart cached used
    rcases change.othersCached other cache cached with same | ⟨number, mine⟩ | mine
    · exact same
    · rcases used with ⟨number', theirs⟩ | theirs
      · rw [mine] at theirs
        cases theirs
        exact absurd rfl apart
      · rw [mine] at theirs
        cases theirs
    · rcases used with ⟨number', theirs⟩ | theirs
      · rw [mine] at theirs
        cases theirs
      · rw [mine] at theirs
        cases theirs
        exact absurd rfl apart
  -- the new use belongs to the file
  have foreign : ∀ {owner : Nat}, owner ≠ ino → ¬ use.Of owner := by
    intro owner apart theirs
    have mine := change.own
    cases use with
    | inode => exact mine
    | leaf _ _ => exact apart (theirs.symm.trans mine)
    | index _ _ => exact apart (theirs.symm.trans mine)
    | index2 _ => exact apart (theirs.symm.trans mine)
  constructor
  · exact sized
  · intro other use' used
    rw [change.used] at used
    rw [nextIno]
    exact laid.range_setUse spare used
  · intro one two use' first' second notInode
    rw [change.used] at first' second
    exact laid.once_setUse (fun _ => change.fresh) first' second notInode
  · exact extension _ _ laid.root
  · intro other
    constructor
    · rintro ⟨new, is⟩
      by_cases same : other = ino
      · subst same
        exact extension _ _ ((laid.inodes other).mp ⟨inode, found⟩)
      · rw [kept other same] at is
        exact extension _ _ ((laid.inodes other).mp ⟨new, is⟩)
    · intro used
      rcases useCases other .inode used with ⟨_, isInode⟩ | ⟨_, old⟩
      · have mine := change.own
        rw [← isInode] at mine
        exact mine.elim
      · by_cases same : other = ino
        · subst same
          exact ⟨inode', own⟩
        · rw [kept other same]
          exact (laid.inodes other).mpr old
  · intro other new is
    by_cases same : other = ino
    · subst same
      rw [own] at is
      cases is
      exact change.points
    · rw [kept other same] at is
      exact (laid.laid other new is).mono extension (change.tables other same)
        (change.double other same)
  · intro other owner position used
    by_cases same : owner = ino
    · subst same
      refine ⟨inode', own, ?_⟩
      rcases useCases other _ used with ⟨_, isLeaf⟩ | ⟨_, old⟩
      · exact (change.leaf position isLeaf.symm).1
      · obtain ⟨old', found', inside⟩ := laid.leaves other owner position old
        rw [found] at found'
        cases found'
        exact inside.trans_le change.nblks
    · rw [kept owner same]
      rcases useCases other _ used with ⟨_, isLeaf⟩ | ⟨_, old⟩
      · exact absurd (isLeaf ▸ rfl : use.Of owner) (foreign same)
      · exact laid.leaves other owner position old
  · intro other owner number used
    by_cases same : owner = ino
    · subst same
      obtain ⟨low, cache, cached, words⟩ := change.indexes other number used
      exact ⟨low, inode', cache, own, cached, words⟩
    · rw [kept owner same, change.tables owner same]
      rcases useCases other _ used with ⟨_, isIndex⟩ | ⟨_, old⟩
      · exact absurd (isIndex ▸ rfl : use.Of owner) (foreign same)
      · obtain ⟨low, new, cache, found', cached, words⟩ := laid.indexes other owner number old
        exact ⟨low, new, cache, found', still other owner cache same cached (Or.inl ⟨number, old⟩),
          words.mono extension⟩
  · intro other owner used
    by_cases same : owner = ino
    · subst same
      obtain ⟨low, cache, cached, words⟩ := change.index2s other used
      exact ⟨low, ⟨inode', own⟩, cache, cached, words⟩
    · rw [kept owner same, change.double owner same]
      rcases useCases other _ used with ⟨_, isIndex⟩ | ⟨_, old⟩
      · exact absurd (isIndex ▸ rfl : use.Of owner) (foreign same)
      · obtain ⟨low, found', cache, cached, words⟩ := laid.index2s other owner old
        exact ⟨low, found', cache, still other owner cache same cached (Or.inr old),
          words.mono extension (change.tables owner same)⟩
  · intro other cache cached
    rcases change.caches other cache cached with same | mine
    · rw [same] at cached
      obtain ⟨owner, ⟨number, used⟩ | used⟩ := laid.cached other cache cached
      · exact ⟨owner, Or.inl ⟨number, extension _ _ used⟩⟩
      · exact ⟨owner, Or.inr (extension _ _ used)⟩
    · exact ⟨ino, mine⟩
  · intro other owner position new used is isDir
    rw [change.img]
    rcases useCases other _ used with ⟨rfl, isLeaf⟩ | ⟨_, old⟩
    · have mine : owner = ino := by
        have mine := change.own
        rw [← isLeaf] at mine
        exact mine
      subst mine
      rw [own] at is
      cases is
      exact extension _ _ ((change.leaf position isLeaf.symm).2 (change.type ▸ isDir))
    · by_cases same : owner = ino
      · subst same
        rw [own] at is
        cases is
        exact extension _ _ (laid.entries other owner position inode old found
          (change.type ▸ isDir))
      · rw [kept owner same] at is
        exact extension _ _ (laid.entries other owner position new old is isDir)
  · intro other used
    rw [change.inodeList]
    rcases useCases other .inode used with ⟨_, isInode⟩ | ⟨_, old⟩
    · have mine := change.own
      rw [← isInode] at mine
      exact mine.elim
    · exact laid.inodeListed other old
  · intro real other member
    rw [change.inodeList] at member
    exact extension _ _ (laid.listedInode real other member)
  · exact change.blockListed

end Laid

end UCore.Tools
