import UCore.Tools.MksfsLayout

/-!
Contract: `append_block` keeps the blocks of an image in order.

Owns:
- the changes that appending makes: a new index block, and the block itself in its slot;
- what `append_block` leaves: the block is the last one of its file, and all others are where they
  were.

Does not own: what is appended.
-/

set_option autoImplicit false

namespace UCore.Tools

open UCore.Lib UCore.Lib.Program UCore.Fs

variable {first : Nat} {layout before : Layout} {sfs after : Mksfs} {ino other block : Nat}
  {inode inode' : CacheInode} {cache : Bytes} {use : Use}

/-! ## Index blocks and entries -/

theorem word_self {word value : Nat} (small : value < 2 ^ 32) :
    (cache.overlay (4 * word) 4 (Bytes.ofNumber value)).number (4 * word) 4 = value :=
  Bytes.number_overlay_same small

theorem word_of_ne {word word' value : Nat} (apart : word' ≠ word) :
    (cache.overlay (4 * word) 4 (Bytes.ofNumber value)).number (4 * word') 4 =
      cache.number (4 * word') 4 :=
  Bytes.number_overlay_apart (by omega)

/-- A spare block has a number that a word holds. -/
theorem Spare.small (spare : Spare first layout sfs block) (laid : Laid first layout sfs) :
    block < 2 ^ 32 := by
  have high := spare.high
  have last := laid.sized.last
  have small := laid.sized.small
  unfold sfsMaxNblks at small
  omega

theorem tableBase_lt {number : Nat} : sfsNdirect ≤ tableBase number := Nat.le_add_right _ _

/-- A block of a file stands at one word of one index block. -/
theorem tableBase_inj {number number' word word' : Nat} (low : word < sfsBlkNentry)
    (low' : word' < sfsBlkNentry) (equal : tableBase number + word = tableBase number' + word') :
    number = number' := by
  unfold tableBase sfsBlkNentry at *
  omega

/-! ## Appending -/

namespace CacheInode

/-- The inode with the cached index block `l1`, which is its first. -/
def pointFirst (inode : CacheInode) (l1 : Nat) : CacheInode :=
  { inode with l1 := some l1, din := { inode.din with indirect := l1 } }

def pointDouble (inode : CacheInode) (l2 : Nat) : CacheInode :=
  { inode with l2 := some l2, dbIndirect := l2 }

def pointNext (inode : CacheInode) (l1 : Nat) : CacheInode :=
  { inode with l1 := some l1 }

def pointDirect (inode : CacheInode) (block : Nat) : CacheInode :=
  { inode with din := { inode.din with
      direct := Function.update inode.din.direct inode.nblks block } }

/-- The inode with one more block. -/
def grow (inode : CacheInode) (size : Nat) : CacheInode :=
  { inode with
    nblks := inode.nblks + 1
    din := { inode.din with
      size := u32 (inode.din.size + size), blocks := u32 (inode.din.blocks + 1) } }

end CacheInode

/-- `data[word] = value` in a cached block. -/
def Mksfs.putWord (sfs : Mksfs) (block : Nat) (cache : Bytes) (word value : Nat) : Mksfs :=
  sfs.setCache block (cache.overlay (4 * word) 4 (Bytes.ofNumber value))

namespace Layout

/-- The layout with one more index block. -/
def addTable (layout : Layout) (ino block : Nat) : Layout :=
  (layout.setUse block (.index ino (layout.tables ino))).setTables ino (layout.tables ino + 1)

def addDouble (layout : Layout) (ino block : Nat) : Layout :=
  (layout.setUse block (.index2 ino)).setDouble ino true

end Layout

section Steps

variable (laid : Laid first layout sfs) (found : sfs.inodes ino = some inode)
  (spare : Spare first layout sfs block)

include laid

/-- A table that a file does not have yet. -/
theorem Laid.fresh_table : ∀ other, layout.use other ≠ some (.index ino (layout.tables ino)) := by
  intro other used
  have low := (laid.indexes other ino _ used).1
  omega

include spare in
/-- A block that is cached is not a spare one. -/
theorem Laid.cached_apart (cached : sfs.cacheBlocks other = some cache) : other ≠ block := by
  rintro rfl
  rw [(laid.spare_uncached spare).1] at cached
  cases cached

include found spare

/-- The first index block. -/
theorem Laid.addFirstTable (none : layout.tables ino = 0) (short : inode.nblks ≤ sfsNdirect) :
    Laid first (layout.addTable ino block)
      ((sfs.addCache block).setInode ino (inode.pointFirst block)) := by
  have points := laid.laid ino inode found
  have tables : (layout.addTable ino block).tables ino = 1 := by
    show Function.update layout.tables ino (layout.tables ino + 1) ino = 1
    rw [Function.update_self, none]
  have extension : (layout.addTable ino block).Extends layout :=
    Layout.extends_setUse spare.unused
  have isFirst : (layout.addTable ino block).use block = some (.index ino 0) := by
    show Function.update layout.use block (some (.index ino (layout.tables ino))) block = _
    rw [Function.update_self, none]
  have caches : ∀ other, other ≠ block → (sfs.addCache block).cacheBlocks other =
      sfs.cacheBlocks other := fun other apart => Function.update_of_ne apart _ _
  have noIndex : ∀ other number, layout.use other ≠ some (.index ino number) := by
    intro other number used
    have low := (laid.indexes other ino number used).1
    omega
  have change : Relink layout (layout.addTable ino block) sfs
      ((sfs.addCache block).setInode ino (inode.pointFirst block)) ino inode
      (inode.pointFirst block) block (.index ino (layout.tables ino)) := by
    refine ⟨rfl, rfl, laid.fresh_table, fun other apart => Function.update_of_ne apart _ _,
      fun _ _ => rfl, rfl, rfl, rfl, le_rfl, rfl, ?_, nofun, ?_, ?_, ?_, ?_, ?_⟩
    · constructor
      · exact fun k low inside => extension _ _ (points.direct k low inside)
      · exact points.noDirect
      · exact fun _ => isFirst
      · intro none'
        omega
      · exact fun some => extension _ _ (points.dbIndirect some)
      · exact points.noDbIndirect
      · exact points.small
      · exact points.blocks
      · exact points.type
    · intro other number used
      rcases Layout.setUse_cases used with ⟨rfl, isIndex⟩ | ⟨_, old⟩
      · cases isIndex
        rw [none, tables]
        refine ⟨Nat.one_pos, Bytes.zeros, Function.update_self _ _ _, ?_, ?_⟩
        · intro word _ inside
          have within : sfsNdirect + word < inode.nblks := inside
          omega
        · intro word _ _
          exact Bytes.number_zeros _ _
      · exact absurd old (noIndex other number)
    · intro other used
      rcases Layout.setUse_cases used with ⟨_, isIndex⟩ | ⟨apart, old⟩
      · cases isIndex
      · obtain ⟨double, _, cache, cached, words⟩ := laid.index2s other ino old
        refine ⟨double, cache, (caches other apart).trans cached, ?_, ?_⟩
        · intro word _ inside
          omega
        · intro word low _
          exact words.empty word low (by omega)
    · intro other cache cached
      by_cases same : other = block
      · subst same
        exact Or.inr (Or.inl ⟨0, isFirst⟩)
      · exact Or.inl (caches other same)
    · intro other cache cached
      exact Or.inl ((caches other (laid.cached_apart spare cached)).trans cached)
    · intro other cache cached
      by_cases same : other = block
      · subst same
        exact List.mem_cons_self
      · exact List.mem_cons_of_mem _ (laid.blockListed other cache ((caches other same) ▸ cached))
  exact laid.relink spare found (laid.sized.same rfl rfl rfl rfl) rfl change

/-- The index block of the second level. -/
theorem Laid.addDouble (none : layout.double ino = false) (few : layout.tables ino ≤ 1) :
    Laid first (layout.addDouble ino block)
      ((sfs.addCache block).setInode ino (inode.pointDouble block)) := by
  have points := laid.laid ino inode found
  have double : (layout.addDouble ino block).double ino = true := Function.update_self _ _ _
  have extension : (layout.addDouble ino block).Extends layout :=
    Layout.extends_setUse spare.unused
  have isDouble : (layout.addDouble ino block).use block = some (.index2 ino) :=
    Function.update_self _ _ _
  have caches : ∀ other, other ≠ block → (sfs.addCache block).cacheBlocks other =
      sfs.cacheBlocks other := fun other apart => Function.update_of_ne apart _ _
  have noDouble : ∀ other, layout.use other ≠ some (.index2 ino) := by
    intro other used
    have has := (laid.index2s other ino used).1
    rw [none] at has
    cases has
  have change : Relink layout (layout.addDouble ino block) sfs
      ((sfs.addCache block).setInode ino (inode.pointDouble block)) ino inode
      (inode.pointDouble block) block (.index2 ino) := by
    refine ⟨rfl, rfl, noDouble, fun _ _ => rfl, fun other apart => Function.update_of_ne apart _ _,
      rfl, rfl, rfl, le_rfl, rfl, ?_, nofun, ?_, ?_, ?_, ?_, ?_⟩
    · constructor
      · exact fun k low inside => extension _ _ (points.direct k low inside)
      · exact points.noDirect
      · exact fun some => extension _ _ (points.indirect some)
      · exact points.noIndirect
      · exact fun _ => isDouble
      · intro none'
        rw [double] at none'
        cases none'
      · exact points.small
      · exact points.blocks
      · exact points.type
    · intro other number used
      rcases Layout.setUse_cases used with ⟨_, isIndex⟩ | ⟨apart, old⟩
      · cases isIndex
      · obtain ⟨low, inode', cache, found', cached, words⟩ := laid.indexes other ino number old
        rw [found] at found'
        cases found'
        exact ⟨low, cache, (caches other apart).trans cached, words.mono extension⟩
    · intro other used
      rcases Layout.setUse_cases used with ⟨rfl, _⟩ | ⟨_, old⟩
      · refine ⟨double, Bytes.zeros, Function.update_self _ _ _, ?_, ?_⟩
        · intro word _ inside
          have within : word + 1 < layout.tables ino := inside
          omega
        · intro word _ _
          exact Bytes.number_zeros _ _
      · exact absurd old (noDouble other)
    · intro other cache cached
      by_cases same : other = block
      · subst same
        exact Or.inr (Or.inr isDouble)
      · exact Or.inl (caches other same)
    · intro other cache cached
      exact Or.inl ((caches other (laid.cached_apart spare cached)).trans cached)
    · intro other cache cached
      by_cases same : other = block
      · subst same
        exact List.mem_cons_self
      · exact List.mem_cons_of_mem _ (laid.blockListed other cache ((caches other same) ▸ cached))
  exact laid.relink spare found (laid.sized.same rfl rfl rfl rfl) rfl change

/-- One more index block, which the one of the second level points to. -/
theorem Laid.addNextTable {l2 word : Nat} {cache2 : Bytes}
    (table : layout.tables ino = word + 1) (low : word < sfsBlkNentry)
    (short : inode.nblks ≤ tableBase (word + 1)) (used2 : layout.use l2 = some (.index2 ino))
    (cached2 : sfs.cacheBlocks l2 = some cache2) :
    Laid first (layout.addTable ino block)
      (((sfs.addCache block).setInode ino (inode.pointNext block)).putWord l2 cache2 word
        block) := by
  have points := laid.laid ino inode found
  have apart2 : l2 ≠ block := laid.cached_apart spare cached2
  have small : block < 2 ^ 32 := spare.small laid
  have tables : (layout.addTable ino block).tables ino = word + 2 := by
    show Function.update layout.tables ino (layout.tables ino + 1) ino = word + 2
    rw [Function.update_self, table]
  have extension : (layout.addTable ino block).Extends layout :=
    Layout.extends_setUse spare.unused
  have isNext : (layout.addTable ino block).use block = some (.index ino (word + 1)) := by
    show Function.update layout.use block (some (.index ino (layout.tables ino))) block = _
    rw [Function.update_self, table]
  have new : (((sfs.addCache block).setInode ino (inode.pointNext block)).putWord l2 cache2 word
      block).cacheBlocks block = some Bytes.zeros := by
    refine (Function.update_of_ne apart2.symm _ _).trans ?_
    exact Function.update_self _ _ _
  have own2 : (((sfs.addCache block).setInode ino (inode.pointNext block)).putWord l2 cache2 word
      block).cacheBlocks l2 = some (cache2.overlay (4 * word) 4 (Bytes.ofNumber block)) :=
    Function.update_self _ _ _
  have caches : ∀ other, other ≠ block → other ≠ l2 →
      (((sfs.addCache block).setInode ino (inode.pointNext block)).putWord l2 cache2 word
        block).cacheBlocks other = sfs.cacheBlocks other := by
    intro other apart notDouble
    refine (Function.update_of_ne notDouble _ _).trans ?_
    exact Function.update_of_ne apart _ _
  have isDouble : ∀ other number, layout.use other = some (.index ino number) → other ≠ l2 := by
    rintro other number used rfl
    rw [used2] at used
    cases used
  have change : Relink layout (layout.addTable ino block) sfs
      (((sfs.addCache block).setInode ino (inode.pointNext block)).putWord l2 cache2 word block)
      ino inode (inode.pointNext block) block (.index ino (layout.tables ino)) := by
    refine ⟨rfl, rfl, laid.fresh_table, fun other apart => Function.update_of_ne apart _ _,
      fun _ _ => rfl, rfl, rfl, rfl, le_rfl, rfl, ?_, nofun, ?_, ?_, ?_, ?_, ?_⟩
    · constructor
      · exact fun k low inside => extension _ _ (points.direct k low inside)
      · exact points.noDirect
      · exact fun _ => extension _ _ (points.indirect (by omega))
      · intro none
        omega
      · exact fun some => extension _ _ (points.dbIndirect some)
      · exact points.noDbIndirect
      · exact points.small
      · exact points.blocks
      · exact points.type
    · intro other number used
      rcases Layout.setUse_cases used with ⟨rfl, isIndex⟩ | ⟨apart, old⟩
      · cases isIndex
        rw [table, tables]
        refine ⟨by omega, Bytes.zeros, new, ?_, ?_⟩
        · intro word' _ inside
          have within : tableBase (word + 1) + word' < inode.nblks := inside
          omega
        · intro word' _ _
          exact Bytes.number_zeros _ _
      · obtain ⟨low', inode', cache, found', cached, words⟩ := laid.indexes other ino number old
        rw [found] at found'
        cases found'
        refine ⟨by omega, cache, ?_, words.mono extension⟩
        rw [caches other apart (isDouble other number old)]
        exact cached
    · intro other used
      rcases Layout.setUse_cases used with ⟨_, isIndex⟩ | ⟨apart, old⟩
      · cases isIndex
      · obtain rfl : other = l2 := laid.once other l2 _ old used2 nofun
        obtain ⟨double, _, cache, cached, words⟩ := laid.index2s other ino old
        rw [cached2] at cached
        cases cached
        refine ⟨double, _, own2, ?_, ?_⟩
        · intro word' low' inside
          by_cases same : word' = word
          · subst same
            rw [word_self small]
            exact isNext
          · rw [word_of_ne same]
            exact extension _ _ (words.filled word' low' (by omega))
        · intro word' low' outside
          rw [word_of_ne (by omega)]
          exact words.empty word' low' (by omega)
    · intro other cache cached
      by_cases same : other = block
      · subst same
        exact Or.inr (Or.inl ⟨_, isNext⟩)
      by_cases isTwo : other = l2
      · subst isTwo
        exact Or.inr (Or.inr (extension _ _ used2))
      · exact Or.inl (caches other same isTwo)
    · intro other cache cached
      by_cases isTwo : other = l2
      · subst isTwo
        exact Or.inr (Or.inr used2)
      · exact Or.inl ((caches other (laid.cached_apart spare cached) isTwo).trans cached)
    · intro other cache cached
      by_cases same : other = block
      · subst same
        exact List.mem_cons_self
      by_cases isTwo : other = l2
      · subst isTwo
        exact List.mem_cons_of_mem _ (laid.blockListed other cache2 cached2)
      · rw [caches other same isTwo] at cached
        exact List.mem_cons_of_mem _ (laid.blockListed other cache cached)
  exact laid.relink spare found (laid.sized.same rfl rfl rfl rfl) rfl change

omit spare in
/-- The next block of the file. -/
theorem Laid.fresh_leaf : ∀ other, layout.use other ≠ some (.leaf ino inode.nblks) := by
  intro other used
  obtain ⟨inode', found', inside⟩ := laid.leaves other ino _ used
  rw [found] at found'
  cases found'
  omega

/-- A block that `direct` points to. -/
theorem Laid.fillDirect {size : Nat} (low : inode.nblks < sfsNdirect)
    (entry : inode.din.type = sfsTypeDir →
      layout.use ((sfs.img block).number 0 4) = some .inode) :
    Laid first (layout.setUse block (.leaf ino inode.nblks))
      (sfs.setInode ino ((inode.pointDirect block).grow size)) := by
  have points := laid.laid ino inode found
  have extension : (layout.setUse block (.leaf ino inode.nblks)).Extends layout :=
    Layout.extends_setUse spare.unused
  have change : Relink layout (layout.setUse block (.leaf ino inode.nblks)) sfs
      (sfs.setInode ino ((inode.pointDirect block).grow size)) ino inode
      ((inode.pointDirect block).grow size) block (.leaf ino inode.nblks) := by
    refine ⟨rfl, rfl, laid.fresh_leaf found, fun _ _ => rfl, fun _ _ => rfl, rfl, rfl, rfl,
      Nat.le_succ _, rfl, ?_, ?_, ?_, ?_, ?_, ?_, ?_⟩
    · constructor
      · intro k low' inside
        by_cases same : k = inode.nblks
        · subst same
          have here : ((inode.pointDirect block).grow size).din.direct inode.nblks = block :=
            Function.update_self _ _ _
          rw [here]
          exact Layout.setUse_self
        · have there : ((inode.pointDirect block).grow size).din.direct k = inode.din.direct k :=
            Function.update_of_ne same _ _
          rw [there]
          have inside' : k < inode.nblks + 1 := inside
          exact extension _ _ (points.direct k low' (by omega))
      · intro k beyond
        have beyond' : inode.nblks + 1 ≤ k := beyond
        have there : ((inode.pointDirect block).grow size).din.direct k = inode.din.direct k :=
          Function.update_of_ne (by omega) _ _
        rw [there]
        exact points.noDirect k (by omega)
      · exact fun some => extension _ _ (points.indirect some)
      · exact points.noIndirect
      · exact fun some => extension _ _ (points.dbIndirect some)
      · exact points.noDbIndirect
      · have bound : sfsNdirect < sfsLnNblks := by decide
        exact (low.trans bound)
      · show u32 (inode.din.blocks + 1) = inode.nblks + 1
        rw [points.blocks, u32_of_lt]
        unfold sfsNdirect at low
        omega
      · exact points.type
    · intro position isLeaf
      cases isLeaf
      exact ⟨Nat.lt_succ_self _, entry⟩
    · intro other number used
      rcases Layout.setUse_cases used with ⟨_, isIndex⟩ | ⟨_, old⟩
      · cases isIndex
      · obtain ⟨low', inode', cache, found', cached, words⟩ := laid.indexes other ino number old
        rw [found] at found'
        cases found'
        refine ⟨low', cache, cached, ?_, ?_⟩
        · intro word _ inside
          have within : tableBase number + word < inode.nblks + 1 := inside
          have base : sfsNdirect ≤ tableBase number := tableBase_lt
          omega
        · intro word low'' outside
          have base : sfsNdirect ≤ tableBase number := tableBase_lt
          exact words.empty word low'' (by omega)
    · intro other used
      rcases Layout.setUse_cases used with ⟨_, isIndex⟩ | ⟨_, old⟩
      · cases isIndex
      · obtain ⟨double, _, cache, cached, words⟩ := laid.index2s other ino old
        exact ⟨double, cache, cached, words.mono extension rfl⟩
    · exact fun _ _ _ => Or.inl rfl
    · exact fun _ _ cached => Or.inl cached
    · exact laid.blockListed
  exact laid.relink spare found (laid.sized.same rfl rfl rfl rfl) rfl change

/-- A block that an index block points to. -/
theorem Laid.fillTable {size l1 number word : Nat} {cache1 : Bytes}
    (place : inode.nblks = tableBase number + word) (low : word < sfsBlkNentry)
    (room : inode.nblks < sfsLnNblks) (used1 : layout.use l1 = some (.index ino number))
    (cached1 : sfs.cacheBlocks l1 = some cache1)
    (entry : inode.din.type = sfsTypeDir →
      layout.use ((sfs.img block).number 0 4) = some .inode) :
    Laid first (layout.setUse block (.leaf ino inode.nblks))
      ((sfs.putWord l1 cache1 word block).setInode ino (inode.grow size)) := by
  have points := laid.laid ino inode found
  have small : block < 2 ^ 32 := spare.small laid
  have base : sfsNdirect ≤ tableBase number := tableBase_lt
  have extension : (layout.setUse block (.leaf ino inode.nblks)).Extends layout :=
    Layout.extends_setUse spare.unused
  have own1 : ((sfs.putWord l1 cache1 word block).setInode ino (inode.grow size)).cacheBlocks l1 =
      some (cache1.overlay (4 * word) 4 (Bytes.ofNumber block)) := Function.update_self _ _ _
  have caches : ∀ other, other ≠ l1 →
      ((sfs.putWord l1 cache1 word block).setInode ino (inode.grow size)).cacheBlocks other =
        sfs.cacheBlocks other := fun other apart => Function.update_of_ne apart _ _
  have change : Relink layout (layout.setUse block (.leaf ino inode.nblks)) sfs
      ((sfs.putWord l1 cache1 word block).setInode ino (inode.grow size)) ino inode
      (inode.grow size) block (.leaf ino inode.nblks) := by
    refine ⟨rfl, rfl, laid.fresh_leaf found, fun _ _ => rfl, fun _ _ => rfl, rfl, rfl, rfl,
      Nat.le_succ _, rfl, ?_, ?_, ?_, ?_, ?_, ?_, ?_⟩
    · constructor
      · intro k low' inside
        exact extension _ _ (points.direct k low' (by omega))
      · intro k beyond
        have beyond' : inode.nblks + 1 ≤ k := beyond
        exact points.noDirect k (by omega)
      · exact fun some => extension _ _ (points.indirect some)
      · exact points.noIndirect
      · exact fun some => extension _ _ (points.dbIndirect some)
      · exact points.noDbIndirect
      · exact room
      · show u32 (inode.din.blocks + 1) = inode.nblks + 1
        rw [points.blocks, u32_of_lt]
        have bound : sfsLnNblks < 2 ^ 32 := by decide
        omega
      · exact points.type
    · intro position isLeaf
      cases isLeaf
      exact ⟨Nat.lt_succ_self _, entry⟩
    · intro other number' used
      rcases Layout.setUse_cases used with ⟨_, isIndex⟩ | ⟨_, old⟩
      · cases isIndex
      · obtain ⟨low', inode', cache, found', cached, words⟩ := laid.indexes other ino number' old
        rw [found] at found'
        cases found'
        by_cases same : other = l1
        · subst same
          rw [used1] at old
          cases old
          rw [cached1] at cached
          cases cached
          refine ⟨low', _, own1, ?_, ?_⟩
          · intro word' low'' inside
            have inside' : tableBase number + word' < inode.nblks + 1 := inside
            by_cases here : word' = word
            · subst here
              rw [word_self small, ← place]
              exact Layout.setUse_self
            · rw [word_of_ne here]
              exact extension _ _ (words.filled word' low'' (by omega))
          · intro word' low'' outside
            have outside' : inode.nblks + 1 ≤ tableBase number + word' := outside
            rw [word_of_ne (by omega)]
            exact words.empty word' low'' (by omega)
        · have apart : number' ≠ number := by
            rintro rfl
            exact same (laid.once other l1 _ old used1 nofun)
          refine ⟨low', cache, (caches other same).trans cached, ?_, ?_⟩
          · intro word' low'' inside
            have inside' : tableBase number' + word' < inode.nblks + 1 := inside
            have notHere : tableBase number' + word' ≠ tableBase number + word :=
              fun equal => apart (tableBase_inj low'' low equal)
            exact extension _ _ (words.filled word' low'' (by omega))
          · intro word' low'' outside
            have outside' : inode.nblks + 1 ≤ tableBase number' + word' := outside
            exact words.empty word' low'' (by omega)
    · intro other used
      rcases Layout.setUse_cases used with ⟨_, isIndex⟩ | ⟨_, old⟩
      · cases isIndex
      · obtain ⟨double, _, cache, cached, words⟩ := laid.index2s other ino old
        have apart : other ≠ l1 := by
          rintro rfl
          rw [used1] at old
          cases old
        exact ⟨double, cache, (caches other apart).trans cached, words.mono extension rfl⟩
    · intro other cache cached
      by_cases same : other = l1
      · subst same
        exact Or.inr (Or.inl ⟨number, extension _ _ used1⟩)
      · exact Or.inl (caches other same)
    · intro other cache cached
      by_cases same : other = l1
      · subst same
        exact Or.inr (Or.inl ⟨number, used1⟩)
      · exact Or.inl ((caches other same).trans cached)
    · intro other cache cached
      by_cases same : other = l1
      · subst same
        exact laid.blockListed other cache1 cached1
      · rw [caches other same] at cached
        exact laid.blockListed other cache cached
  exact laid.relink spare found (laid.sized.same rfl rfl rfl rfl) rfl change

end Steps

/-! ## What a program leaves -/

/-- Where the program returns, `post` holds of its answer and of the image that it leaves. -/
def Leaves {α : Type} (program : MksfsM α) (sfs : Mksfs) (post : α → Mksfs → Prop) : Prop :=
  Ensures True program sfs fun result after => ∀ value, result = .ok value → post value after

section Rules

variable {α β : Type} {program : MksfsM α} {second : α → MksfsM β} {value : α}
  {post : α → Mksfs → Prop} {post' : β → Mksfs → Prop}

theorem Leaves.bind (leaves : Leaves program sfs post)
    (rest : ∀ value after, post value after → Leaves (second value) after post') :
    Leaves (program >>= second) sfs post' := by
  apply ensures_bind leaves
  · intro value after holds
    exact rest value after (holds value rfl)
  · exact nofun

theorem Leaves.weaken {weaker : α → Mksfs → Prop} (leaves : Leaves program sfs post)
    (implies : ∀ value after, post value after → weaker value after) :
    Leaves program sfs weaker :=
  Ensures.weaken leaves id fun _ after holds value isValue =>
    implies value after (holds value isValue)

theorem leaves_run (ran : program sfs = .ok (.ok value, after))
    (rest : Leaves (second value) after post') : Leaves (program >>= second) sfs post' :=
  ensures_bind_run ran rest

theorem leaves_of_run (ran : program sfs = .ok (.ok value, after)) (holds : post value after) :
    Leaves program sfs post := by
  apply ensures_of_run ran
  intro other same
  cases same
  exact holds

theorem leaves_pure (holds : post value sfs) : Leaves (pure value) sfs post :=
  leaves_of_run rfl holds

theorem leaves_stop {reason : MksfsStop} : Leaves (Program.stop reason) sfs post := trivial

theorem leaves_assert {condition : Prop} [Decidable condition] {rest : Unit → MksfsM β}
    (holds : condition → Leaves (rest ()) sfs post') :
    Leaves (assertThat condition >>= rest) sfs post' :=
  ensures_require holds fun _ => trivial

end Rules

theorem run_getInode (found : sfs.inodes ino = some inode) :
    getInode ino sfs = .ok (.ok inode, sfs) := by
  simp only [getInode, bind, Program.bind, Program.read, found]
  rfl

theorem run_updateInode {change : CacheInode → CacheInode} (found : sfs.inodes ino = some inode) :
    updateInode ino change sfs = .ok (.ok (), sfs.setInode ino (change inode)) := by
  simp only [updateInode, bind, Program.bind, run_getInode found]
  rfl

theorem run_getCache (cached : sfs.cacheBlocks block = some cache) :
    getCache block sfs = .ok (.ok cache, sfs) := by
  simp only [getCache, bind, Program.bind, Program.read, cached]
  rfl

theorem run_setWord {word value : Nat} (cached : sfs.cacheBlocks block = some cache) :
    setWord block word value sfs = .ok (.ok (), sfs.putWord block cache word value) := by
  simp only [setWord, bind, Program.bind, run_getCache cached]
  rfl

theorem sfsAllocIno_leaves : Leaves sfsAllocIno sfs fun block after =>
    block = sfs.nextIno ∧ after = sfs.alloc ∧ sfs.nextIno < sfs.ninos := by
  unfold sfsAllocIno
  apply ensures_read
  by_cases room : sfs.nextIno < sfs.ninos
  · rw [if_pos room]
    apply ensures_modify
    exact leaves_pure ⟨rfl, rfl, room⟩
  · rw [if_neg room]
    exact leaves_stop

/-- A pointer that is 0 gets a new block. -/
theorem updateCache_new {cb : Option Nat} : Leaves (updateCache cb 0) sfs fun block after =>
    block = sfs.nextIno ∧ after = sfs.alloc.addCache sfs.nextIno ∧ sfs.nextIno < sfs.ninos := by
  unfold updateCache
  rw [if_pos rfl]
  unfold allocCacheBlock
  apply sfsAllocIno_leaves.bind
  rintro block after ⟨rfl, rfl, room⟩
  apply ensures_modify
  exact leaves_pure ⟨rfl, rfl, room⟩

theorem updateCache_old {cb : Option Nat} (some : block ≠ 0) :
    Leaves (updateCache cb block) sfs fun found after => found = block ∧ after = sfs := by
  unfold updateCache
  rw [if_neg some]
  by_cases same : cb = Option.some block
  · rw [if_pos same]
    exact leaves_pure ⟨rfl, rfl⟩
  · rw [if_neg same]
    have searched : searchCacheBlock block sfs = .ok (.ok (if (hashBucket block, block) ∈
        sfs.blockList then Option.some block else none), sfs) := by
      simp only [searchCacheBlock, bind, Program.bind, Program.read]
      split_ifs <;> rfl
    apply leaves_run searched
    apply leaves_assert
    intro _
    exact leaves_pure ⟨rfl, rfl⟩

/-! ## What stays -/

/-- What was used stays, but for the blocks and the size of the inode `ino`. -/
structure Later (ino : Nat) (before : Layout) (sfs : Mksfs) (layout : Layout) (after : Mksfs) :
    Prop where
  extension : layout.Extends before
  ninos : after.ninos = sfs.ninos
  img : ∀ block, before.use block ≠ none → after.img block = sfs.img block
  inodes : ∀ other inode, sfs.inodes other = some inode →
    ∃ inode', after.inodes other = some inode' ∧ inode'.din.type = inode.din.type ∧
      inode'.real = inode.real ∧
      (other ≠ ino → inode'.nblks = inode.nblks ∧ inode'.din.size = inode.din.size)

namespace Later

theorem refl : Later ino layout sfs layout sfs where
  extension := Layout.Extends.refl
  ninos := rfl
  img _ _ := rfl
  inodes _ inode found := ⟨inode, found, rfl, rfl, fun _ => ⟨rfl, rfl⟩⟩

theorem trans {middle layout' : Layout} {between : Mksfs}
    (first : Later ino before sfs middle between) (second : Later ino middle between layout' after) :
    Later ino before sfs layout' after where
  extension := Layout.Extends.trans second.extension first.extension
  ninos := second.ninos.trans first.ninos
  img block used := by
    have still : middle.use block ≠ none := by
      obtain ⟨use, isUse⟩ := Option.ne_none_iff_exists'.mp used
      rw [first.extension block use isUse]
      exact nofun
    exact (second.img block still).trans (first.img block used)
  inodes other inode found := by
    obtain ⟨inode1, found1, type1, real1, same1⟩ := first.inodes other inode found
    obtain ⟨inode2, found2, type2, real2, same2⟩ := second.inodes other inode1 found1
    refine ⟨inode2, found2, type2.trans type1, real2.trans real1, ?_⟩
    intro apart
    exact ⟨(same2 apart).1.trans (same1 apart).1, (same2 apart).2.trans (same1 apart).2⟩

/-- One inode changed. -/
theorem of_inode (extension : layout.Extends before) (ninos : after.ninos = sfs.ninos)
    (img : ∀ block, before.use block ≠ none → after.img block = sfs.img block)
    (inodes : after.inodes = Function.update sfs.inodes ino (some inode'))
    (found : sfs.inodes ino = some inode) (type : inode'.din.type = inode.din.type)
    (real : inode'.real = inode.real) : Later ino before sfs layout after := by
  refine ⟨extension, ninos, img, ?_⟩
  intro other old was
  rw [inodes]
  by_cases same : other = ino
  · subst same
    rw [found] at was
    cases was
    exact ⟨inode', Function.update_self _ _ _, type, real, fun apart => absurd rfl apart⟩
  · exact ⟨old, (Function.update_of_ne same _ _).trans was, rfl, rfl, fun _ => ⟨rfl, rfl⟩⟩

end Later

/-! ## Appending a block -/

/-- The image `after`, in which only the index blocks of the file `ino` and the pointers to them
differ. -/
structure Prepared (first : Nat) (layout : Layout) (sfs : Mksfs) (ino : Nat) (inode : CacheInode)
    (block : Nat) (layout' : Layout) (after : Mksfs) (inode' : CacheInode) : Prop where
  laid : Laid first layout' after
  spare : Spare first layout' after block
  later : Later ino layout sfs layout' after
  found : after.inodes ino = some inode'
  nblks : inode'.nblks = inode.nblks
  size : inode'.din.size = inode.din.size
  type : inode'.din.type = inode.din.type
  img : after.img block = sfs.img block
  others : ∀ other, other ≠ ino → after.inodes other = sfs.inodes other
  tables : ∀ other, other ≠ ino → layout'.tables other = layout.tables other
  double : ∀ other, other ≠ ino → layout'.double other = layout.double other

/-- What `append_block` leaves. -/
structure Appended (first : Nat) (layout : Layout) (sfs : Mksfs) (ino : Nat) (inode : CacheInode)
    (size block : Nat) (layout' : Layout) (after : Mksfs) : Prop where
  laid : Laid first layout' after
  tight : Tight layout' after
  later : Later ino layout sfs layout' after
  img : after.img block = sfs.img block
  others : ∀ other, other ≠ ino → after.inodes other = sfs.inodes other
  used : layout'.use block = some (.leaf ino inode.nblks)
  found : ∃ inode', after.inodes ino = some inode' ∧ inode'.nblks = inode.nblks + 1 ∧
    inode'.din.size = u32 (inode.din.size + size)

/-- How many index blocks a file of `nblks` blocks has. -/
def tablesFor (nblks : Nat) : Nat := (nblks + (sfsBlkNentry - 1 - sfsNdirect)) / sfsBlkNentry

/-- The index blocks of the other files stay as they should be. -/
theorem Tight.change {layout' : Layout} (tight : Tight layout sfs)
    (others : ∀ other, other ≠ ino → after.inodes other = sfs.inodes other)
    (tables : ∀ other, other ≠ ino → layout'.tables other = layout.tables other)
    (double : ∀ other, other ≠ ino → layout'.double other = layout.double other)
    (found : after.inodes ino = some inode') (own : layout'.tables ino = tablesFor inode'.nblks)
    (ownDouble : layout'.double ino = decide (sfsL1Nblks < inode'.nblks)) :
    Tight layout' after := by
  intro other inode is
  by_cases same : other = ino
  · subst same
    rw [found] at is
    cases is
    exact ⟨own, ownDouble⟩
  · rw [tables other same, double other same]
    exact tight other inode ((others other same) ▸ is)

section Append

variable (laid : Laid first layout sfs) (found : sfs.inodes ino = some inode)
  (spare : Spare first layout sfs block)

include laid found spare

/-- A block that `direct` points to is the last one. -/
theorem Laid.appendDirect {size : Nat} (tight : Tight layout sfs) (low : inode.nblks < sfsNdirect)
    (entry : inode.din.type = sfsTypeDir →
      layout.use ((sfs.img block).number 0 4) = some .inode) :
    Appended first layout sfs ino inode size block (layout.setUse block (.leaf ino inode.nblks))
      (sfs.setInode ino ((inode.pointDirect block).grow size)) := by
  obtain ⟨tables, double⟩ := tight ino inode found
  constructor
  · exact laid.fillDirect found spare low entry
  · apply tight.change
    · exact fun other apart => Function.update_of_ne apart _ _
    · exact fun _ _ => rfl
    · exact fun _ _ => rfl
    · exact Function.update_self _ _ _
    · show layout.tables ino = (inode.nblks + 1 + _) / _
      rw [tables]
      unfold sfsNdirect sfsBlkNentry at *
      omega
    · show layout.double ino = decide (sfsL1Nblks < inode.nblks + 1)
      rw [double]
      apply decide_eq_decide.mpr
      unfold sfsL1Nblks sfsNdirect sfsBlkNentry at *
      omega
  · exact Later.of_inode (Layout.extends_setUse spare.unused) rfl (fun _ _ => rfl) rfl found rfl rfl
  · rfl
  · exact fun other apart => Function.update_of_ne apart _ _
  · exact Layout.setUse_self
  · exact ⟨_, Function.update_self _ _ _, rfl, rfl⟩

end Append

/-- The slot of the last block is in the index block `number`, which is the last one. -/
theorem Prepared.append {layout' : Layout} {size number word l1 : Nat}
    (prepared : Prepared first layout sfs ino inode block layout' after inode')
    (tight : Tight layout sfs) (room : inode.nblks < sfsLnNblks)
    (entry : inode.din.type = sfsTypeDir →
      layout.use ((sfs.img block).number 0 4) = some .inode)
    (place : inode.nblks = tableBase number + word) (low : word < sfsBlkNentry)
    (used : layout'.use l1 = some (.index ino number))
    (tables : layout'.tables ino = number + 1) (double : layout'.double ino = decide (0 < number))
    (cached : after.cacheBlocks l1 = some cache) :
    Appended first layout sfs ino inode size block (layout'.setUse block (.leaf ino inode.nblks))
      ((after.putWord l1 cache word block).setInode ino (inode'.grow size)) := by
  obtain ⟨laid, spare, later, found, nblks, sameSize, type, img, others, tables', double'⟩ :=
    prepared
  have entry' : inode'.din.type = sfsTypeDir →
      layout'.use ((after.img block).number 0 4) = some .inode := by
    intro isDir
    rw [img]
    exact later.extension _ _ (entry (type ▸ isDir))
  have filled := @Laid.fillTable first layout' after ino block inode' laid found spare size l1 number word
    cache (nblks ▸ place) low (nblks ▸ room) used cached entry'
  rw [nblks] at filled
  constructor
  · exact filled
  · apply tight.change
    · exact fun other apart => (Function.update_of_ne apart _ _).trans (others other apart)
    · exact tables'
    · exact double'
    · exact Function.update_self _ _ _
    · show layout'.tables ino = (inode'.nblks + 1 + _) / _
      rw [tables, nblks, place]
      unfold tableBase sfsNdirect sfsBlkNentry at *
      omega
    · show layout'.double ino = decide (sfsL1Nblks < inode'.nblks + 1)
      rw [double, nblks, place]
      apply decide_eq_decide.mpr
      unfold tableBase sfsL1Nblks sfsNdirect sfsBlkNentry at *
      omega
  · apply later.trans
    exact Later.of_inode (Layout.extends_setUse spare.unused) rfl (fun _ _ => rfl) rfl found rfl rfl
  · exact img
  · exact fun other apart => (Function.update_of_ne apart _ _).trans (others other apart)
  · exact Layout.setUse_self
  · refine ⟨_, Function.update_self _ _ _, ?_, ?_⟩
    · show inode'.nblks + 1 = inode.nblks + 1
      rw [nblks]
    · show u32 (inode'.din.size + size) = _
      rw [sameSize]

/-- A pointer of the inode is set to a new block. -/
theorem Prepared.new {layout' : Layout} (laid : Laid first layout sfs)
    (found : sfs.inodes ino = some inode) (spare : Spare first layout sfs block)
    (laid' : Laid first layout' after)
    (used : layout'.use = Function.update layout.use sfs.nextIno (some use))
    (tables : ∀ other, other ≠ ino → layout'.tables other = layout.tables other)
    (double : ∀ other, other ≠ ino → layout'.double other = layout.double other)
    (nextIno : after.nextIno = sfs.nextIno + 1) (ninos : after.ninos = sfs.ninos)
    (img : after.img = sfs.img) (inodes : after.inodes = Function.update sfs.inodes ino (some inode'))
    (nblks : inode'.nblks = inode.nblks) (size : inode'.din.size = inode.din.size)
    (type : inode'.din.type = inode.din.type) (real : inode'.real = inode.real) :
    Prepared first layout sfs ino inode block layout' after inode' := by
  have high := spare.high
  have unused : layout.use sfs.nextIno = none := by
    cases isUsed : layout.use sfs.nextIno with
    | none => rfl
    | some use =>
        have below := (laid.range _ use isUsed).1
        omega
  have extension : layout'.Extends layout := by
    intro other use' isUsed
    rw [used]
    exact Layout.extends_setUse unused other use' isUsed
  constructor
  · exact laid'
  · refine ⟨?_, spare.low, by omega⟩
    rw [used, Function.update_of_ne (by omega)]
    exact spare.unused
  · exact Later.of_inode extension ninos (fun _ _ => by rw [img]) inodes found type real
  · rw [inodes, Function.update_self]
  · exact nblks
  · exact size
  · exact type
  · rw [img]
  · intro other apart
    rw [inodes, Function.update_of_ne apart]
  · exact tables
  · exact double

/-- A pointer of the inode is set to the block it had. -/
theorem Prepared.old (laid : Laid first layout sfs) (found : sfs.inodes ino = some inode)
    (spare : Spare first layout sfs block) (points : InodeLaid layout ino inode')
    (nblks : inode'.nblks = inode.nblks) (size : inode'.din.size = inode.din.size)
    (type : inode'.din.type = inode.din.type) (real : inode'.real = inode.real) :
    Prepared first layout sfs ino inode block layout (sfs.setInode ino inode') inode' where
  laid := laid.setInode found points nblks type
  spare := ⟨spare.unused, spare.low, spare.high⟩
  later := Later.of_inode Layout.Extends.refl rfl (fun _ _ => rfl) rfl found type real
  found := Function.update_self _ _ _
  nblks := nblks
  size := size
  type := type
  img := rfl
  others _ apart := Function.update_of_ne apart _ _
  tables _ _ := rfl
  double _ _ := rfl

theorem Prepared.trans {middle layout' : Layout} {between : Mksfs} {inode1 : CacheInode}
    (first' : Prepared first layout sfs ino inode block middle between inode1)
    (second : Prepared first middle between ino inode1 block layout' after inode') :
    Prepared first layout sfs ino inode block layout' after inode' where
  laid := second.laid
  spare := second.spare
  later := first'.later.trans second.later
  found := second.found
  nblks := second.nblks.trans first'.nblks
  size := second.size.trans first'.size
  type := second.type.trans first'.type
  img := second.img.trans first'.img
  others other apart := (second.others other apart).trans (first'.others other apart)
  tables other apart := (second.tables other apart).trans (first'.tables other apart)
  double other apart := (second.double other apart).trans (first'.double other apart)

/-- A block in use, but for the inodes, is none that a pointer of 0 could mean. -/
theorem Laid.used_positive (laid : Laid first layout sfs) (used : layout.use block = some use) :
    block ≠ 0 := by
  have start := laid.sized.start
  rcases (laid.range block use used).2 with low | ⟨isRoot, _⟩
  · omega
  · rw [isRoot]
    exact Nat.one_ne_zero

section Prepare

variable (laid : Laid first layout sfs) (found : sfs.inodes ino = some inode)
  (spare : Spare first layout sfs block)

include laid found spare

/-- The file has its first index block. -/
theorem prepareFirst (few : layout.tables ino ≤ 1) (short : layout.tables ino = 0 →
    inode.nblks ≤ sfsNdirect) :
    Leaves (updateCache inode.l1 inode.din.indirect) sfs fun l1 after =>
      after.inodes ino = some inode ∧ ∃ layout',
        Prepared first layout sfs ino inode block layout'
          (after.setInode ino (inode.pointFirst l1)) (inode.pointFirst l1) ∧
        layout'.use l1 = some (.index ino 0) ∧ layout'.tables ino = 1 ∧
        layout'.double ino = layout.double ino := by
  have points := laid.laid ino inode found
  by_cases none : layout.tables ino = 0
  · rw [points.noIndirect none]
    apply updateCache_new.weaken
    rintro l1 after ⟨rfl, rfl, room⟩
    obtain ⟨laid1, spare1⟩ := laid.alloc room
    refine ⟨found, layout.addTable ino sfs.nextIno, ?_, ?_, ?_, rfl⟩
    · apply Prepared.new laid found spare (laid1.addFirstTable found spare1 none (short none))
      · rfl
      · exact fun other apart => Function.update_of_ne apart _ _
      · exact fun _ _ => rfl
      all_goals rfl
    · refine (Function.update_self _ _ _).trans ?_
      rw [none]
    · refine (Function.update_self _ _ _).trans ?_
      rw [none]
  · have used := points.indirect (Nat.pos_of_ne_zero none)
    apply (updateCache_old (laid.used_positive used)).weaken
    rintro l1 after ⟨rfl, rfl⟩
    refine ⟨found, layout, ?_, used, by omega, rfl⟩
    exact Prepared.old laid found spare { points with } rfl rfl rfl rfl

/-- The file has its index block of the second level. -/
theorem prepareDouble (few : layout.double ino = false → layout.tables ino ≤ 1) :
    Leaves (updateCache inode.l2 inode.dbIndirect) sfs fun l2 after =>
      after.inodes ino = some inode ∧ ∃ layout',
        Prepared first layout sfs ino inode block layout'
          (after.setInode ino (inode.pointDouble l2)) (inode.pointDouble l2) ∧
        layout'.use l2 = some (.index2 ino) ∧ layout'.tables ino = layout.tables ino ∧
        layout'.double ino = true := by
  have points := laid.laid ino inode found
  cases double : layout.double ino with
  | false =>
      rw [points.noDbIndirect double]
      apply updateCache_new.weaken
      rintro l2 after ⟨rfl, rfl, room⟩
      obtain ⟨laid1, spare1⟩ := laid.alloc room
      refine ⟨found, layout.addDouble ino sfs.nextIno, ?_, ?_, rfl, ?_⟩
      · apply Prepared.new laid found spare
          (laid1.addDouble found spare1 double (few double))
        · rfl
        · exact fun _ _ => rfl
        · exact fun other apart => Function.update_of_ne apart _ _
        all_goals rfl
      · exact Function.update_self _ _ _
      · exact Function.update_self _ _ _
  | true =>
      have used := points.dbIndirect double
      apply (updateCache_old (laid.used_positive used)).weaken
      rintro l2 after ⟨rfl, rfl⟩
      refine ⟨found, layout, ?_, used, rfl, double⟩
      exact Prepared.old laid found spare { points with } rfl rfl rfl rfl

/-- The file has the index block that the word of the one of the second level is for. -/
theorem prepareNext {l2 word : Nat} {cache2 : Bytes}
    (tables : layout.tables ino = word + 1 ∨ layout.tables ino = word + 2)
    (low : word < sfsBlkNentry)
    (short : layout.tables ino = word + 1 → inode.nblks ≤ tableBase (word + 1))
    (used2 : layout.use l2 = some (.index2 ino)) (cached2 : sfs.cacheBlocks l2 = some cache2) :
    Leaves (updateCache inode.l1 (cache2.number (4 * word) 4)) sfs fun l1 after =>
      after.inodes ino = some inode ∧ after.cacheBlocks l2 = some cache2 ∧ ∃ layout',
        Prepared first layout sfs ino inode block layout'
          ((after.setInode ino (inode.pointNext l1)).putWord l2 cache2 word l1)
          (inode.pointNext l1) ∧
        layout'.use l1 = some (.index ino (word + 1)) ∧ layout'.tables ino = word + 2 ∧
        layout'.double ino = layout.double ino := by
  have points := laid.laid ino inode found
  obtain ⟨_, _, cache, cached, words⟩ := laid.index2s l2 ino used2
  rw [cached2] at cached
  cases cached
  rcases tables with last | more
  · rw [words.empty word low (by omega)]
    apply updateCache_new.weaken
    rintro l1 after ⟨rfl, rfl, room⟩
    obtain ⟨laid1, spare1⟩ := laid.alloc room
    have apart : l2 ≠ sfs.nextIno := laid1.cached_apart spare1 cached2
    refine ⟨found, (Function.update_of_ne apart _ _).trans cached2,
      layout.addTable ino sfs.nextIno, ?_, ?_, ?_, rfl⟩
    · apply Prepared.new laid found spare
        (laid1.addNextTable found spare1 last low (short last) used2 cached2)
      · rfl
      · exact fun other apart => Function.update_of_ne apart _ _
      · exact fun _ _ => rfl
      all_goals rfl
    · refine (Function.update_self _ _ _).trans ?_
      rw [last]
    · refine (Function.update_self _ _ _).trans ?_
      rw [last]
  · have used := words.filled word low (by omega)
    apply (updateCache_old (laid.used_positive used)).weaken
    rintro l1 after ⟨rfl, rfl⟩
    have same : (after.setInode ino (inode.pointNext (cache2.number (4 * word) 4))).putWord l2
        cache2 word (cache2.number (4 * word) 4) =
          after.setInode ino (inode.pointNext (cache2.number (4 * word) 4)) := by
      have still : Function.update after.cacheBlocks l2 (some cache2) = after.cacheBlocks := by
        rw [← cached2]
        exact Function.update_eq_self l2 after.cacheBlocks
      unfold Mksfs.putWord Mksfs.setCache
      rw [Bytes.overlay_number]
      show ({ after.setInode ino (inode.pointNext (cache2.number (4 * word) 4)) with
        cacheBlocks := Function.update after.cacheBlocks l2 (some cache2) } : Mksfs) = _
      rw [still]
      rfl
    refine ⟨found, cached2, layout, ?_, used, more, rfl⟩
    rw [same]
    exact Prepared.old laid found spare { points with } rfl rfl rfl rfl

end Prepare

/-- The slot of the block is set, whatever the size it will be counted with. -/
theorem appendSlot_leaves (laid : Laid first layout sfs) (tight : Tight layout sfs)
    (found : sfs.inodes ino = some inode) (spare : Spare first layout sfs block)
    (room : inode.nblks < sfsLnNblks)
    (entry : inode.din.type = sfsTypeDir →
      layout.use ((sfs.img block).number 0 4) = some .inode) :
    Leaves (appendSlot ino block) sfs fun _ after => ∃ layout' inode',
      after.inodes ino = some inode' ∧ ∀ size, Appended first layout sfs ino inode size block layout'
        (after.setInode ino (inode'.grow size)) := by
  have tables : layout.tables ino = (inode.nblks + 1011) / 1024 := (tight ino inode found).1
  have double : layout.double ino = decide (1036 < inode.nblks) := (tight ino inode found).2
  have ndirect : sfsNdirect = 12 := rfl
  have nl1 : sfsL1Nblks = 1036 := rfl
  have lnNblks : sfsLnNblks = 32768 := rfl
  have base : ∀ number, tableBase number = 12 + 1024 * number := fun _ => rfl
  have nentry : sfsBlkNentry = 1024 := rfl
  unfold appendSlot
  apply leaves_run (run_getInode found)
  by_cases direct : inode.nblks < sfsNdirect
  · rw [if_pos direct]
    apply leaves_of_run (run_updateInode found)
    refine ⟨layout.setUse block (.leaf ino inode.nblks), inode.pointDirect block,
      Function.update_self _ _ _, ?_⟩
    intro size
    have twice : (sfs.setInode ino (inode.pointDirect block)).setInode ino
        ((inode.pointDirect block).grow size) =
          sfs.setInode ino ((inode.pointDirect block).grow size) := by
      unfold Mksfs.setInode
      rw [Function.update_idem]
    show Appended first layout sfs ino inode size block _
      ((sfs.setInode ino (inode.pointDirect block)).setInode ino _)
    rw [twice]
    exact laid.appendDirect found spare tight direct entry
  rw [if_neg direct]
  by_cases single : inode.nblks < sfsL1Nblks
  · rw [if_pos single]
    apply (prepareFirst laid found spare (by omega) (by omega)).bind
    rintro l1 after ⟨found1, layout1, prepared, used1, tables1, double1⟩
    apply leaves_run (run_updateInode found1)
    obtain ⟨_, _, cache, _, cached, _⟩ := prepared.laid.indexes l1 ino 0 used1
    apply leaves_of_run (run_setWord cached)
    refine ⟨layout1.setUse block (.leaf ino inode.nblks), inode.pointFirst l1, prepared.found, ?_⟩
    intro size
    apply @Prepared.append _ _ _ _ _ _ _ _ _ _ size 0 _ l1 prepared tight room entry
    · rw [base]
      omega
    · omega
    · exact used1
    · exact tables1
    · rw [double1, double]
      apply decide_eq_decide.mpr
      omega
    · exact cached
  · rw [if_neg single]
    have few : layout.double ino = false → layout.tables ino ≤ 1 := by
      intro none
      rw [double] at none
      have below := of_decide_eq_false none
      omega
    apply (prepareDouble laid found spare few).bind
    rintro l2 after ⟨found1, layout1, prepared1, used2, tables1, double1⟩
    apply leaves_run (run_updateInode found1)
    obtain ⟨_, _, cache2, cached2, _⟩ := prepared1.laid.index2s l2 ino used2
    apply leaves_run (run_getCache cached2)
    have wordIs : (inode.nblks - sfsL1Nblks) / sfsBlkNentry = (inode.nblks - 1036) / 1024 := rfl
    have slotIs : (inode.nblks - sfsL1Nblks) % sfsBlkNentry = (inode.nblks - 1036) % 1024 := rfl
    generalize (inode.nblks - sfsL1Nblks) / sfsBlkNentry = word at wordIs ⊢
    generalize (inode.nblks - sfsL1Nblks) % sfsBlkNentry = slot at slotIs ⊢
    have tablesAre : layout1.tables ino = word + 1 ∨ layout1.tables ino = word + 2 := by omega
    have short : layout1.tables ino = word + 1 →
        (inode.pointDouble l2).nblks ≤ tableBase (word + 1) := by
      intro last
      show inode.nblks ≤ _
      rw [base]
      omega
    apply (prepareNext prepared1.laid prepared1.found prepared1.spare tablesAre (by omega) short
      used2 cached2).bind
    rintro l1 after' ⟨found2, cached2', layout2, prepared2, used1, tables2, double2⟩
    apply leaves_run (run_updateInode found2)
    have cached3 : (after'.setInode ino ((inode.pointDouble l2).pointNext l1)).cacheBlocks l2 =
        some cache2 := cached2'
    apply leaves_run (run_setWord cached3)
    obtain ⟨_, _, cache, _, cached, _⟩ := prepared2.laid.indexes l1 ino _ used1
    apply leaves_of_run (run_setWord cached)
    refine ⟨layout2.setUse block (.leaf ino inode.nblks), (inode.pointDouble l2).pointNext l1,
      prepared2.found, ?_⟩
    intro size
    apply @Prepared.append _ _ _ _ _ _ _ _ _ _ size (word + 1) slot l1
      (prepared1.trans prepared2) tight room entry
    · rw [base]
      omega
    · omega
    · exact used1
    · exact tables2
    · rw [double2, double1]
      exact (decide_eq_true (Nat.succ_pos _)).symm
    · exact cached

/-- `append_block` makes the block the last one of the file. -/
theorem appendBlock_leaves {size : Nat} (laid : Laid first layout sfs) (tight : Tight layout sfs)
    (found : sfs.inodes ino = some inode) (spare : Spare first layout sfs block)
    (entry : inode.din.type = sfsTypeDir →
      layout.use ((sfs.img block).number 0 4) = some .inode) :
    Leaves (appendBlock ino size block) sfs fun _ after =>
      inode.nblks < sfsLnNblks ∧ ∃ layout', Appended first layout sfs ino inode size block layout'
        after := by
  unfold appendBlock
  apply leaves_assert
  intro _
  apply leaves_run (run_getInode found)
  by_cases full : inode.nblks ≥ sfsLnNblks
  · rw [if_pos full]
    exact leaves_stop
  rw [if_neg full]
  have room : inode.nblks < sfsLnNblks := Nat.lt_of_not_le full
  apply (appendSlot_leaves laid tight found spare room entry).bind
  rintro ⟨⟩ after ⟨layout', inode', found', appended⟩
  apply leaves_of_run (run_updateInode found')
  exact ⟨room, layout', appended size⟩

end UCore.Tools
