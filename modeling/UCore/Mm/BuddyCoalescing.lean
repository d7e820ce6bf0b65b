import UCore.Mm.BuddySystem

/-!
Contract: completeness of coalescing in the buddy system.

Owns:
- `listedPages`, the heads on the free list of an order, and `NoFreeBuddies`;
- the merge of a freed block with all its listed buddies, as long as each of them carries
  `PG_property` when its turn comes;
- the theorem that then no two buddies are ever free together and that freeing everything
  restores the initial free lists, and the run in which a merge stops after one level.
-/

set_option autoImplicit false

namespace UCore.Mm

open UCore.Lib UCore.Libs

/-! ## Reading a free list -/

/-- The pages on a list after the entry `le`, at most `count` of them. -/
def pagesAfter (links : Links (ListEntry Nat)) : Nat → ListEntry Nat → List Nat
  | 0, _ => []
  | count + 1, le =>
      match listNext links le with
      | .freeList _ => []
      | .pageLink page => page :: pagesAfter links count (.pageLink page)

/-- The heads on the free list of an order, `nr_free` of them. -/
def listedPages (pmm : Pmm Nat) (order : Nat) : List Nat :=
  pagesAfter pmm.links (pmm.nrFree order) (.freeList order)

theorem pagesAfter_ring {links : Links (ListEntry Nat)} {head : ListEntry Nat}
    {left : List (ListEntry Nat)} {pages : List Nat}
    (ring : IsRing links head (left ++ pages.map .pageLink)) :
    pagesAfter links pages.length (left.getLastD head) = pages := by
  induction pages generalizing left with
  | nil => rfl
  | cons page rest inductionHypothesis =>
      have next : listNext links (left.getLastD head) = .pageLink page := by
        rw [List.map_cons] at ring
        exact ring.linked_gap.1
      have later := @inductionHypothesis (left ++ [.pageLink page]) (by simpa using ring)
      rw [List.getLastD_concat] at later
      rw [List.length_cons, pagesAfter, next]
      dsimp only
      rw [later]

theorem listedPages_eq {pmm : Pmm Nat} {blocks : List Block} (lists : BuddyLists pmm blocks)
    {order : Nat} (small : order < maxOrder) : listedPages pmm order =
      (blocks.filter fun block => block.order = order).map Block.base := by
  have ring := lists.ring order small
  have entries : orderEntries blocks order =
      ((blocks.filter fun block => block.order = order).map Block.base).map .pageLink := by
    rw [List.map_map]
    rfl
  rw [entries] at ring
  have count := lists.nrFree order small
  rw [entries, List.length_map] at count
  rw [listedPages, count]
  exact @pagesAfter_ring _ _ [] _ ring

theorem mem_listedPages {pmm : Pmm Nat} {blocks : List Block} (lists : BuddyLists pmm blocks)
    {order page : Nat} (small : order < maxOrder) :
    page ∈ listedPages pmm order ↔ (⟨order, page⟩ : Block) ∈ blocks := by
  rw [listedPages_eq lists small, List.mem_map]
  constructor
  · rintro ⟨block, member, rfl⟩
    obtain ⟨inBlocks, same⟩ := List.mem_filter.mp member
    rw [decide_eq_true_eq] at same
    exact same ▸ inBlocks
  · intro member
    exact ⟨⟨order, page⟩, List.mem_filter.mpr ⟨member, by simp⟩, rfl⟩

/-- No two blocks on the free list of an order below the top one have physical addresses that
differ exactly in the bit of their size. -/
def NoFreeBuddies (pmm : Pmm Nat) : Prop :=
  ∀ order < maxOrder - 1, ∀ first ∈ listedPages pmm order, ∀ second ∈ listedPages pmm order,
    page2pa second ≠ page2pa first ^^^ (1 <<< order) <<< pgShift

/-! ## The conditions -/

/-- A single range of physical memory is managed, and its base is aligned to the largest
order. -/
def AlignedRange (npage : Nat) (system : System Nat) : Request → Prop
  | .initMemmap base n => system.managed = [] ∧ 2 ^ (maxOrder - 1) ∣ page2ppn base ∧
      page2ppn base + n ≤ npage
  | .allocPages _ => True
  | .freePages _ _ => True

instance (npage : Nat) : DecidableRel (AlignedRange npage) := fun _ request =>
  match request with
  | .initMemmap _ _ => inferInstanceAs (Decidable (_ ∧ _))
  | .allocPages _ => inferInstanceAs (Decidable True)
  | .freePages _ _ => inferInstanceAs (Decidable True)

/-- Going up from a block, each buddy is a page of memory, and one that is listed carries
`PG_property`. The climb ends at the first buddy that is not listed. -/
def BuddiesFlagged (npage : Nat) (pmm : Pmm Nat) : Nat → Block → Prop
  | 0, _ => True
  | levels + 1, block =>
      page2ppn block.buddy.base < npage ∧
        (block.buddy.base ∈ listedPages pmm block.order →
          pmm.pageProperty block.buddy.base = true ∧
            BuddiesFlagged npage pmm levels block.parent)

instance decidableBuddiesFlagged (npage : Nat) (pmm : Pmm Nat) :
    (levels : Nat) → (block : Block) → Decidable (BuddiesFlagged npage pmm levels block)
  | 0, _ => inferInstanceAs (Decidable True)
  | levels + 1, block =>
      have := decidableBuddiesFlagged npage pmm levels block.parent
      inferInstanceAs (Decidable (_ ∧ (_ → _ ∧ _)))

/-- No page of a freed block carries `PG_property`, and every listed buddy on its way up does.
Fewer than `2 ^ 32` pages are managed. -/
def MergesFlagged (npage : Nat) (system : System Nat) : Request → Prop
  | .initMemmap _ n => n < 2 ^ 32
  | .allocPages _ => True
  | .freePages base n =>
      (∀ page < n, system.pmm.pageProperty (base + page) = false) ∧
        BuddiesFlagged npage system.pmm (maxOrder - 1 - countShifts 64 n 0)
          ⟨countShifts 64 n 0, base⟩

instance (npage : Nat) : DecidableRel (MergesFlagged npage) := fun _ request =>
  match request with
  | .initMemmap _ _ => inferInstanceAs (Decidable (_ < _))
  | .allocPages _ => inferInstanceAs (Decidable True)
  | .freePages _ _ => inferInstanceAs (Decidable (_ ∧ _))

/-- The conditions under which coalescing is complete. -/
def Coalescing (npage : Nat) (system : System Nat) (request : Request) : Prop :=
  AlignedRange npage system request ∧ MergesFlagged npage system request

instance (npage : Nat) : DecidableRel (Coalescing npage) := fun _ _ =>
  inferInstanceAs (Decidable (_ ∧ _))

/-! ## The merge -/

/-- Every flagged page lies in a block of `blocks` or `others`, and where it is the head of the
block the block is one of `blocks`. -/
def FlagsWithin (pmm : Pmm Nat) (blocks others : List Block) : Prop :=
  ∀ page, pmm.pageProperty page = true →
    ∃ block ∈ blocks ++ others, page ∈ block.extent ∧ (page = block.base → block ∈ blocks)

/-- A merge under way: `current` is on no list and meets no listed or held block. -/
structure Merging (pmm : Pmm Nat) (blocks others : List Block) (current : Block) : Prop where
  lists : BuddyLists pmm blocks
  small : current.order < maxOrder
  sized : pmm.property current.base = 2 ^ current.order
  away : ∀ block ∈ blocks ++ others, Extent.Disjoint current.extent block.extent
  apart : (Block.extents (blocks ++ others)).Pairwise Extent.Disjoint
  bounded : 2 ^ current.order + Extent.total (Block.extents blocks) < 2 ^ 32
  currentAligned : current.Aligned
  aligned : ∀ block ∈ blocks ++ others, block.Aligned
  noBuddies : ∀ block ∈ blocks, block.order < maxOrder - 1 → block.buddy ∉ blocks
  flags : ∀ page, pmm.pageProperty page = true → page ∈ current.extent ∨
    ∃ block ∈ blocks ++ others, page ∈ block.extent ∧ (page = block.base → block ∈ blocks)

/-- What the merge leaves behind. -/
structure Merged (pmm : Pmm Nat) (blocks others : List Block) (current : Block)
    (result : Pmm Nat) (blocks' : List Block) : Prop where
  lists : BuddyLists result blocks'
  covers : ∀ page, Extent.Covers (Block.extents blocks') page ↔
    page ∈ current.extent ∨ Extent.Covers (Block.extents blocks) page
  total : Extent.total (Block.extents blocks') =
    2 ^ current.order + Extent.total (Block.extents blocks)
  aligned : ∀ block ∈ blocks', block.Aligned
  noBuddies : ∀ block ∈ blocks', block.order < maxOrder - 1 → block.buddy ∉ blocks'
  flags : FlagsWithin result blocks' others
  reserved : ∀ page, result.pageReserved page = pmm.pageReserved page

namespace Merging

variable {pmm : Pmm Nat} {blocks others left right : List Block} {current : Block}

/-- Putting the block on the free list of its order, when its buddy is not on it. -/
theorem add (merging : Merging pmm blocks others current)
    (alone : current.order < maxOrder - 1 → current.buddy ∉ blocks) :
    Merged pmm blocks others current (addPage pmm current.order current.base)
      (current :: blocks) where
  lists := merging.lists.addPage merging.small merging.sized
    (fun other member => merging.away other (List.mem_append_left _ member)) merging.bounded
  covers page := by rw [Block.extents_cons, Extent.covers_cons]
  total := by
    rw [Block.extents_cons, Extent.total_cons]
    rfl
  aligned block member := by
    rcases List.mem_cons.mp member with rfl | older
    · exact merging.currentAligned
    · exact merging.aligned block (List.mem_append_left _ older)
  noBuddies block member below buddyMember := by
    rcases List.mem_cons.mp member with rfl | older
    · rcases List.mem_cons.mp buddyMember with same | listed
      · have apart := block.buddy_disjoint
        rw [same] at apart
        exact apart.notMem block.base_mem_extent block.base_mem_extent
      · exact alone below listed
    · rcases List.mem_cons.mp buddyMember with same | listed
      · have back : current.buddy = block := same ▸ block.buddy_buddy
        exact alone (same ▸ below) (back ▸ older)
      · exact merging.noBuddies block older below listed
  flags page flagged := by
    rcases merging.flags page flagged with inside | ⟨block, member, inBlock, head⟩
    · exact ⟨current, by simp, inside, fun _ => List.mem_cons_self⟩
    · exact ⟨block, List.mem_cons_of_mem _ member, inBlock,
        fun same => List.mem_cons_of_mem _ (head same)⟩
  reserved _ := rfl

/-- A buddy that looks mergeable is listed. -/
theorem buddy_listed (merging : Merging pmm blocks others current)
    (sized : pmm.property current.buddy.base = 2 ^ current.order)
    (flagged : pmm.pageProperty current.buddy.base = true) : current.buddy ∈ blocks := by
  have outside := current.buddy_disjoint.symm.notMem current.buddy.base_mem_extent
  obtain ⟨block, member, inBlock, head⟩ := (merging.flags _ flagged).resolve_left outside
  have blockAligned := merging.aligned block member
  have buddyAligned := merging.currentAligned.buddy_aligned
  have sameBase : current.buddy.base = block.base := by
    by_cases large : block.order ≤ current.order
    · -- a block no larger than the buddy lies within it and so starts where it starts
      have within := Block.within_of_meet blockAligned buddyAligned large inBlock
        current.buddy.base_mem_extent
      have lower := (within block.base block.base_mem_extent).1
      have upper := inBlock.1
      exact Nat.le_antisymm lower upper
    · -- a larger one would contain the parent and with it the current block
      have within := Block.within_of_meet merging.currentAligned.parent_aligned blockAligned
        (show current.order + 1 ≤ block.order by omega)
        (Block.mem_parent.mpr (Or.inr current.buddy.base_mem_extent)) inBlock
      have meets := within _ (Block.mem_parent.mpr (Or.inl current.base_mem_extent))
      exact absurd meets ((merging.away block member).notMem current.base_mem_extent)
  have listed := head sameBase
  have size := merging.lists.property block listed
  rw [← sameBase, sized] at size
  have sameOrder : current.order = block.order := Nat.pow_right_injective (Nat.le_refl 2) size
  have same : current.buddy = block := by
    obtain ⟨order, base⟩ := block
    subst sameOrder
    exact congrArg (Block.mk current.order) sameBase
  exact same ▸ listed

/-- Taking over the listed buddy. -/
theorem join (merging : Merging pmm (left ++ current.buddy :: right) others current)
    (below : current.order < maxOrder - 1) :
    Merging (joinBuddy pmm current) (left ++ right) others current.parent := by
  have removed := merging.lists.removePage
  have small : current.order + 1 < maxOrder := by omega
  have kept : ∀ block ∈ left ++ right, block ∈ left ++ current.buddy :: right := by
    intro block member
    rw [List.perm_middle.mem_iff]
    exact List.mem_cons_of_mem _ member
  have keptAll : ∀ block ∈ (left ++ right) ++ others,
      block ∈ (left ++ current.buddy :: right) ++ others := by
    intro block member
    rcases List.mem_append.mp member with listed | held
    · exact List.mem_append_left _ (kept block listed)
    · exact List.mem_append_right _ held
  have moved : List.Perm ((left ++ current.buddy :: right) ++ others)
      (current.buddy :: ((left ++ right) ++ others)) := by
    rw [List.append_assoc, List.cons_append, List.append_assoc]
    exact List.perm_middle
  have apart := merging.apart
  rw [Block.extents, (moved.map Block.extent).pairwise_iff
    (fun disjoint => Extent.Disjoint.symm disjoint), List.map_cons, List.pairwise_cons] at apart
  have buddyAway : ∀ block ∈ (left ++ right) ++ others,
      Extent.Disjoint current.buddy.extent block.extent :=
    fun block member => apart.1 block.extent (List.mem_map_of_mem member)
  have parentAway : ∀ block ∈ (left ++ right) ++ others,
      Extent.Disjoint current.parent.extent block.extent := by
    intro block member
    refine Extent.disjoint_of_notMem ⟨current.parent.extent_positive, block.extent_positive⟩ ?_
    intro index inParent
    rcases Block.mem_parent.mp inParent with inCurrent | inBuddy
    · exact (merging.away block (keptAll block member)).notMem inCurrent
    · exact (buddyAway block member).notMem inBuddy
  have parentCases : current.parent.base = current.base ∨
      current.parent.base = current.buddy.base := by
    show min _ _ = _ ∨ min _ _ = _
    omega
  -- the marks are set and cleared on the two heads only
  have elsewhere : ∀ block ∈ (left ++ right) ++ others, block.base ≠ current.parent.base := by
    intro block member same
    apply (parentAway block member).notMem current.parent.base_mem_extent
    rw [← same]
    exact block.base_mem_extent
  have sized : u32 (2 ^ (current.order + 1)) = 2 ^ (current.order + 1) := u32_size small
  have total := merging.bounded
  refine ⟨removed.congr rfl rfl fun block member => ?_, small, ?_, parentAway, apart.2, ?_,
    merging.currentAligned.parent_aligned, ?_, ?_, ?_⟩
  · rw [joinBuddy, Pmm.clearPageProperty_property, Pmm.setProperty_property,
      if_neg (elsewhere block (List.mem_append_left _ member)), Pmm.clearPageProperty_property]
    rfl
  · rw [joinBuddy, Pmm.clearPageProperty_property, Pmm.setProperty_property, if_pos rfl, sized]
    rfl
  · have double := halves_size current.order
    show 2 ^ (current.order + 1) + _ < _
    simp only [Block.extents_append, Block.extents_cons, Extent.total_append, Extent.total_cons]
      at total ⊢
    have size : current.buddy.extent.size = 2 ^ current.order := rfl
    omega
  · exact fun block member => merging.aligned block (keptAll block member)
  · exact fun block member order buddyMember =>
      merging.noBuddies block (kept block member) order (kept _ buddyMember)
  · intro page flagged
    rw [joinBuddy, Pmm.clearPageProperty_pageProperty, Pmm.setProperty_pageProperty,
      Pmm.clearPageProperty_pageProperty, removePage_pageProperty] at flagged
    split_ifs at flagged with atParent atBuddy
    rcases merging.flags page flagged with inside | ⟨block, member, inBlock, head⟩
    · exact Or.inl (Block.mem_parent.mpr (Or.inl inside))
    · rcases List.mem_cons.mp (moved.mem_iff.mp member) with rfl | other
      · exact Or.inl (Block.mem_parent.mpr (Or.inr inBlock))
      · refine Or.inr ⟨block, other, inBlock, fun same => ?_⟩
        have listed := head same
        rw [List.perm_middle.mem_iff] at listed
        refine (List.mem_cons.mp listed).resolve_left fun isBuddy => ?_
        have disjoint := buddyAway block other
        rw [isBuddy] at disjoint
        exact disjoint.notMem (Block.base_mem_extent _) (Block.base_mem_extent _)

/-- The merge takes in every listed buddy on its way up, when each of them is flagged. `pmm₀` is
the state in which the buddies were looked at. -/
theorem merges {pmm₀ : Pmm Nat} {npage levels : Nat} (merging : Merging pmm blocks others current)
    (height : current.order + levels = maxOrder - 1)
    (flagged : BuddiesFlagged npage pmm₀ levels current)
    (sameLists : ∀ block : Block, Extent.Disjoint current.extent block.extent →
      block.order < maxOrder → (block.base ∈ listedPages pmm₀ block.order ↔ block ∈ blocks))
    (sameFlags : ∀ page ∉ current.extent, pmm.pageProperty page = pmm₀.pageProperty page) :
    ∃ result blocks',
      (∀ fuel, levels < fuel → mergePage npage fuel pmm current.order current.base = .ok result) ∧
      Merged pmm blocks others current result blocks' := by
  induction levels generalizing pmm blocks current with
  | zero =>
      refine ⟨_, _, fun fuel positive => ?_, merging.add fun below => absurd below (by omega)⟩
      obtain ⟨fuel, rfl⟩ : ∃ smaller, fuel = smaller + 1 := ⟨fuel - 1, by omega⟩
      rw [mergePage, if_pos (by omega)]
  | succ levels inductionHypothesis =>
      have below : current.order < maxOrder - 1 := by omega
      obtain ⟨inMemory, climb⟩ := flagged
      have listed := sameLists current.buddy current.buddy_disjoint merging.small
      have outside := current.buddy_disjoint.symm.notMem current.buddy.base_mem_extent
      by_cases merge : current.buddy ∈ blocks
      · obtain ⟨marked, later⟩ := climb (listed.mpr merge)
        rw [← sameFlags _ outside] at marked
        have sized : pmm.property current.buddy.base = 2 ^ current.order :=
          merging.lists.property _ merge
        obtain ⟨left, right, rfl⟩ := List.append_of_mem merge
        have joined := merging.join below
        have parentHeight : current.parent.order + levels = maxOrder - 1 := by
          show current.order + 1 + levels = _
          omega
        have parentLists : ∀ block : Block, Extent.Disjoint current.parent.extent block.extent →
            block.order < maxOrder →
            (block.base ∈ listedPages pmm₀ block.order ↔ block ∈ left ++ right) := by
          intro block apart small
          have apartCurrent : Extent.Disjoint current.extent block.extent := by
            refine Extent.disjoint_of_notMem ⟨current.extent_positive, block.extent_positive⟩ ?_
            exact fun index inside => apart.notMem (Block.mem_parent.mpr (Or.inl inside))
          rw [sameLists block apartCurrent small, List.perm_middle.mem_iff, List.mem_cons]
          refine ⟨fun member => member.resolve_left fun isBuddy => ?_, Or.inr⟩
          rw [isBuddy] at apart
          exact apart.notMem (Block.mem_parent.mpr (Or.inr current.buddy.base_mem_extent))
            current.buddy.base_mem_extent
        have parentFlags : ∀ page ∉ current.parent.extent,
            (joinBuddy pmm current).pageProperty page = pmm₀.pageProperty page := by
          intro page away
          rw [Block.mem_parent, not_or] at away
          have notParent : page ≠ current.parent.base := by
            rintro rfl
            rcases Block.mem_parent.mp current.parent.base_mem_extent with inside | inside
            · exact away.1 inside
            · exact away.2 inside
          have notBuddy : page ≠ current.buddy.base :=
            fun same => away.2 (same ▸ current.buddy.base_mem_extent)
          rw [joinBuddy, Pmm.clearPageProperty_pageProperty, Pmm.setProperty_pageProperty,
            Pmm.clearPageProperty_pageProperty, removePage_pageProperty, if_neg notParent,
            if_neg notBuddy]
          exact sameFlags page away.1
        obtain ⟨result, blocks', run, merged⟩ :=
          inductionHypothesis joined parentHeight later parentLists parentFlags
        refine ⟨result, blocks', fun fuel enough => ?_, merged.lists, fun page => ?_, ?_,
          merged.aligned, merged.noBuddies, merged.flags, fun page => ?_⟩
        · obtain ⟨fuel, rfl⟩ : ∃ smaller, fuel = smaller + 1 := ⟨fuel - 1, by omega⟩
          rw [mergePage_succ below, if_neg (by omega), if_pos ⟨sized, marked⟩]
          exact run fuel (by omega)
        · have parts := @Block.mem_parent current page
          simp only [merged.covers page, Block.extents_append, Block.extents_cons,
            Extent.covers_append, Extent.covers_cons]
          grind
        · have double := halves_size current.order
          have total := merged.total
          have size : current.buddy.extent.size = 2 ^ current.order := rfl
          have order : current.parent.order = current.order + 1 := rfl
          rw [order] at total
          simp only [Block.extents_append, Block.extents_cons, Extent.total_append,
            Extent.total_cons] at total ⊢
          omega
        · rw [merged.reserved page, joinBuddy, Pmm.clearPageProperty_pageReserved,
            Pmm.setProperty_pageReserved, Pmm.clearPageProperty_pageReserved,
            removePage_pageReserved]
      · refine ⟨_, _, fun fuel enough => ?_, merging.add fun _ => merge⟩
        obtain ⟨fuel, rfl⟩ : ∃ smaller, fuel = smaller + 1 := ⟨fuel - 1, by omega⟩
        rw [mergePage_succ below, if_neg (by omega), if_neg]
        exact fun looks => merge (merging.buddy_listed looks.1 looks.2)

end Merging

/-! ## The invariant of a run -/

/-- Listed and held blocks are aligned, no two buddies are listed, and the flag is on no held
head. Pages inside a block may carry a stale flag. -/
structure CoalescedInvariant (system : System Nat) (blocks held : List Block) : Prop where
  invariant : BuddyInvariant system blocks held
  aligned : ∀ block ∈ blocks ++ held, block.Aligned
  noBuddies : ∀ block ∈ blocks, block.order < maxOrder - 1 → block.buddy ∉ blocks
  flags : FlagsWithin system.pmm blocks held

/-- The blocks that the greedy loop cuts an aligned range into contain no two buddies. -/
theorem Cuts.noBuddies {base offset n : Nat} {new : List Block} (cuts : Cuts base offset n new) :
    ∀ block ∈ new, block.order < maxOrder - 1 → block.buddy ∉ new := by
  intro block member below buddyMember
  have different : block ≠ block.buddy := by
    intro same
    have apart := block.buddy_disjoint
    rw [← same] at apart
    exact apart.notMem block.base_mem_extent block.base_mem_extent
  have sameOrder : new.Pairwise fun first second =>
      first.order = second.order → first.order = maxOrder - 1 := by
    refine cuts.decreasing.imp fun {later earlier} either same => ?_
    rcases either with less | top
    · exact absurd same (Nat.ne_of_lt less)
    · exact same.trans top
  obtain ⟨left, right, rfl⟩ := List.append_of_mem member
  obtain ⟨-, fromBlock, toBlock⟩ := List.pairwise_append.mp sameOrder
  have top : block.order = maxOrder - 1 := by
    rcases List.mem_append.mp buddyMember with early | late
    · exact toBlock block.buddy early block List.mem_cons_self rfl
    · rcases List.mem_cons.mp late with same | later
      · exact absurd same.symm different
      · exact (List.pairwise_cons.mp fromBlock).1 _ later rfl
  omega

namespace CoalescedInvariant

variable {npage : Nat} {system : System Nat} {blocks held : List Block}

theorem coalesced (invariant : CoalescedInvariant system blocks held) :
    Block.Coalesced (maxOrder - 1) blocks where
  aligned block member := invariant.aligned block (List.mem_append_left _ member)
  small block member := Nat.le_sub_one_of_lt (invariant.invariant.lists.small block member)
  apart := invariant.invariant.lists.apart
  noBuddies := invariant.noBuddies

theorem noFreeBuddies (invariant : CoalescedInvariant system blocks held) :
    NoFreeBuddies system.pmm := by
  intro order below first firstListed second secondListed same
  have lists := invariant.invariant.lists
  have small : order < maxOrder := Nat.lt_of_lt_of_le below (Nat.sub_le _ _)
  rw [mem_listedPages lists small] at firstListed secondListed
  -- equal addresses are equal frames, and so the second block is the buddy of the first
  have frames : ppn (page2pa second) = ppn (page2pa first ^^^ (1 <<< order) <<< pgShift) :=
    congrArg ppn same
  have buddyFrame : ppn (page2pa first ^^^ (1 <<< order) <<< pgShift) =
      page2ppn (Block.buddy ⟨order, first⟩).base := by
    rw [ppn, page2pa, Nat.shiftRight_xor_distrib, Nat.shiftLeft_shiftRight,
      Nat.shiftLeft_shiftRight, Nat.one_shiftLeft, page2ppn_xor small]
  rw [buddyFrame, ppn, page2pa, Nat.shiftLeft_shiftRight] at frames
  have base : second = (Block.buddy ⟨order, first⟩).base := Nat.add_right_cancel frames
  apply invariant.noBuddies ⟨order, first⟩ firstListed below
  have buddy : Block.buddy ⟨order, first⟩ = ⟨order, second⟩ :=
    congrArg (Block.mk order) base.symm
  rw [buddy]
  exact secondListed

theorem initMemmap (invariant : CoalescedInvariant system blocks held) {base n : Nat}
    (admitted : system.Admits (.initMemmap base n))
    (meets : Coalescing npage system (.initMemmap base n)) :
    ∃ next blocks', System.Step (buddySystemPmmManager npage) buddyGranted system
      (.initMemmap base n) next ∧ CoalescedInvariant next blocks' held := by
  obtain ⟨⟨unmanaged, baseAligned, -⟩, small⟩ := meets
  have nothing : ∀ block, block ∉ blocks ++ held := by
    intro block member
    have covered := (invariant.invariant.covered block.base).mpr
      (Block.covers_extents.mpr ⟨block, member, block.base_mem_extent⟩)
    rw [unmanaged] at covered
    obtain ⟨range, inNil, -⟩ := covered
    cases inNil
  obtain ⟨rfl, rfl⟩ := List.append_eq_nil_iff.mp (List.eq_nil_iff_forall_not_mem.mpr nothing)
  obtain ⟨new, result, returns, after, cuts, flags⟩ :=
    invariant.invariant.initMemmap admitted (by
      have small : n < 2 ^ 32 := small
      rw [unmanaged, Extent.total_nil, Nat.zero_add]
      exact small)
  have pageAligned : 2 ^ (maxOrder - 1) ∣ base := by
    have frame : 2 ^ (maxOrder - 1) ∣ nbase := by decide
    exact (Nat.dvd_add_iff_left frame).mpr baseAligned
  refine ⟨_, new ++ [], .initMemmap admitted returns, after, ?_, ?_, ?_⟩
  · simpa using cuts.aligned pageAligned (Nat.dvd_zero _)
  · simpa using cuts.noBuddies
  · intro page flagged
    rcases (flags page).mp flagged with ⟨block, member, rfl⟩ | ⟨-, before⟩
    · exact ⟨block, by simpa using member, block.base_mem_extent, fun _ => by simpa using member⟩
    · obtain ⟨block, member, -⟩ := invariant.flags page before
      exact absurd member (nothing block)

/-- A block that is left over from halving has the handed out block in its buddy. -/
theorem lastHalf_in_buddy {order base count : Nat} (aligned : 2 ^ (order + count) ∣ base)
    {block : Block} (member : block ∈ remains order base count) :
    lastHalf order base count ∈ block.buddy.extent := by
  have buddyBase := Block.buddy_base_of_dvd ((remains_aligned order base count aligned).2 block member)
  obtain ⟨-, -, lower, upper⟩ := remains_below order base count member
  have size := Nat.two_pow_pos order
  show block.buddy.base ≤ _ ∧ _ < block.buddy.base + 2 ^ block.order
  omega

theorem allocPages (invariant : CoalescedInvariant system blocks held) {n : Nat}
    (admitted : system.Admits (.allocPages n)) :
    ∃ next blocks' held', System.Step (buddySystemPmmManager npage) buddyGranted system
      (.allocPages n) next ∧ CoalescedInvariant next blocks' held' := by
  have base := invariant.invariant
  rcases base.lists.allocPages admitted with none | ⟨left, right, start, count, result, blocks',
    split, returns, lists, moved, reserved, flags⟩
  · exact ⟨system, blocks, held, .allocNull admitted none, invariant⟩
  have after := base.allocated split lists moved reserved
  have step : System.Step (buddySystemPmmManager npage) buddyGranted system (.allocPages n)
      ⟨result, system.managed, ⟨lastHalf (allocOrder n) start count, 2 ^ allocOrder n⟩ ::
        system.live⟩ := by
    rw [← Nat.one_shiftLeft]
    exact .allocPage admitted returns
  have startAligned : 2 ^ (allocOrder n + count) ∣ start :=
    invariant.aligned ⟨allocOrder n + count, start⟩ (by simp [split])
  obtain ⟨lastAligned, remainsAligned⟩ := remains_aligned (allocOrder n) start count startAligned
  have kept : ∀ block ∈ left ++ right, block ∈ blocks := by
    intro block member
    rw [split, List.perm_middle.mem_iff]
    exact List.mem_cons_of_mem _ member
  have handedOut : ∀ block ∈ remains (allocOrder n) start count, block.buddy ∉ blocks' := by
    intro block member listed
    have apart := after.apart_split.2 block.buddy listed _ List.mem_cons_self
    exact apart.notMem (lastHalf_in_buddy startAligned member) (Block.base_mem_extent _)
  refine ⟨_, blocks', _, step, after, ?_, ?_, ?_⟩
  · intro block member
    rcases List.mem_append.mp member with listed | live
    · rcases List.mem_append.mp (moved.mem_iff.mp listed) with leftOver | other
      · exact Nat.dvd_trans (Nat.pow_dvd_pow 2 (Nat.le_succ _)) (remainsAligned block leftOver)
      · exact invariant.aligned block (List.mem_append_left _ (kept block other))
    · rcases List.mem_cons.mp live with rfl | older
      · exact lastAligned
      · exact invariant.aligned block (List.mem_append_right _ older)
  · intro block member below buddyMember
    rcases List.mem_append.mp (moved.mem_iff.mp member) with leftOver | other
    · exact handedOut block leftOver buddyMember
    · rcases List.mem_append.mp (moved.mem_iff.mp buddyMember) with buddyLeft | buddyOther
      · have back := handedOut block.buddy buddyLeft
        rw [block.buddy_buddy] at back
        exact back member
      · exact invariant.noBuddies block (kept block other) below (kept _ buddyOther)
  · intro page flagged
    obtain ⟨different, fresh | before⟩ := (flags page).mp flagged
    · obtain ⟨block, member, rfl⟩ := fresh
      have listed := moved.mem_iff.mpr (List.mem_append_left _ member)
      exact ⟨block, List.mem_append_left _ listed, block.base_mem_extent, fun _ => listed⟩
    · obtain ⟨block, member, inBlock, head⟩ := invariant.flags page before
      rcases List.mem_append.mp member with listed | live
      · rw [split, List.perm_middle.mem_iff] at listed
        rcases List.mem_cons.mp listed with rfl | other
        · -- the page lies in the block that was halved
          rcases (mem_halves (allocOrder n) start count page).mp inBlock with inLast | leftOver
          · exact ⟨_, List.mem_append_right _ List.mem_cons_self, inLast,
              fun same => absurd same different⟩
          · obtain ⟨part, partMember, inPart⟩ := Block.covers_extents.mp leftOver
            have listed' := moved.mem_iff.mpr (List.mem_append_left _ partMember)
            exact ⟨part, List.mem_append_left _ listed', inPart, fun _ => listed'⟩
        · have listed' := moved.mem_iff.mpr (List.mem_append_right _ other)
          exact ⟨block, List.mem_append_left _ listed', inBlock, fun _ => listed'⟩
      · refine ⟨block, List.mem_append_right _ (List.mem_cons_of_mem _ live), inBlock, ?_⟩
        intro same
        have apart := base.apart_split.2 block (head same) block live
        exact absurd block.base_mem_extent (apart.notMem block.base_mem_extent)

theorem freePages (invariant : CoalescedInvariant system blocks held) {base n : Nat}
    (admitted : system.Admits (.freePages base n))
    (meets : Coalescing npage system (.freePages base n)) :
    ∃ next blocks' held', System.Step (buddySystemPmmManager npage) buddyGranted system
      (.freePages base n) next ∧ CoalescedInvariant next blocks' held' := by
  have before := invariant.invariant
  obtain ⟨block, member, rfl, rfl⟩ := before.held_of_live admitted
  obtain ⟨-, unflagged, climb⟩ := meets
  have small := before.small block member
  rw [countShifts_size small] at climb
  have pagesUnflagged : ∀ page ∈ block.extent, system.pmm.pageProperty page = false := by
    intro page inBlock
    have lower : block.base ≤ page := inBlock.1
    have upper : page < block.base + 2 ^ block.order := inBlock.2
    have clear := unflagged (page - block.base) (by omega)
    rw [Nat.add_sub_cancel' lower] at clear
    exact clear
  obtain ⟨marked, run, lists, sized, -, reserved, flags⟩ :=
    before.freePages_eq member pagesUnflagged
  obtain ⟨away, room⟩ := before.held_room member
  have moved : List.Perm held (block :: held.erase block) := List.perm_cons_erase member
  have keptAll : ∀ other ∈ blocks ++ held.erase block, other ∈ blocks ++ held := by
    intro other otherMember
    rcases List.mem_append.mp otherMember with listed | live
    · exact List.mem_append_left _ listed
    · exact List.mem_append_right _ (List.mem_of_mem_erase live)
  have all : List.Perm (blocks ++ held) (block :: (blocks ++ held.erase block)) :=
    (moved.append_left blocks).trans List.perm_middle
  have apart := before.apart
  rw [Block.extents, (all.map Block.extent).pairwise_iff
    (fun disjoint => Extent.Disjoint.symm disjoint), List.map_cons, List.pairwise_cons] at apart
  have merging : Merging marked blocks (held.erase block) block :=
    { lists := lists
      small := small
      sized := sized
      away := fun other otherMember => apart.1 _ (List.mem_map_of_mem otherMember)
      apart := apart.2
      bounded := room
      currentAligned := invariant.aligned block (List.mem_append_right _ member)
      aligned := fun other otherMember => invariant.aligned other (keptAll other otherMember)
      noBuddies := invariant.noBuddies
      flags := by
        intro page flagged
        rcases (flags page).mp flagged with rfl | old
        · exact Or.inl block.base_mem_extent
        · obtain ⟨other, otherMember, inOther, head⟩ := invariant.flags page old
          rcases List.mem_cons.mp (all.mem_iff.mp otherMember) with rfl | kept
          · exact Or.inl inOther
          · exact Or.inr ⟨other, kept, inOther, head⟩ }
  obtain ⟨result, blocks', runs, merged⟩ := @Merging.merges _ _ _ _ system.pmm npage
    (maxOrder - 1 - block.order) merging (by omega) climb
    (fun other _ otherSmall => mem_listedPages before.lists otherSmall)
    (fun page outside => by
      have different : page ≠ block.base := fun same => outside (same ▸ block.base_mem_extent)
      have same := flags page
      simp only [different, false_or] at same
      exact Bool.eq_iff_iff.mpr same)
  have after := before.released member merged.lists merged.covers merged.total
    (fun page => by rw [merged.reserved page, reserved page])
  refine ⟨_, blocks', _, .freePages admitted ⟨maxOrder - 1 - block.order + 1, fun fuel enough => ?_⟩,
    after, ?_, merged.noBuddies, merged.flags⟩
  · exact (run npage fuel).trans (runs fuel (by omega))
  · intro other otherMember
    rcases List.mem_append.mp otherMember with listed | live
    · exact merged.aligned other listed
    · exact invariant.aligned other (List.mem_append_right _ (List.mem_of_mem_erase live))

/-- Every admitted request that meets the conditions is answered, and keeps the invariant. -/
theorem answers (invariant : CoalescedInvariant system blocks held) {request : Request}
    (admitted : system.Admits request) (meets : Coalescing npage system request) :
    ∃ next blocks' held', System.Step (buddySystemPmmManager npage) buddyGranted system
      request next ∧ CoalescedInvariant next blocks' held' := by
  cases request with
  | initMemmap base n =>
      obtain ⟨next, blocks', step, after⟩ := invariant.initMemmap admitted meets
      exact ⟨next, blocks', held, step, after⟩
  | allocPages n => exact invariant.allocPages admitted
  | freePages base n => exact invariant.freePages admitted meets

theorem step {next : System Nat} {request : Request}
    (invariant : CoalescedInvariant system blocks held)
    (move : System.StepMeeting (buddySystemPmmManager npage) buddyGranted (Coalescing npage)
      system request next) :
    ∃ blocks' held', CoalescedInvariant next blocks' held' := by
  obtain ⟨answer, blocks', held', step, after⟩ := invariant.answers move.1.admits move.2
  exact move.1.unique step ▸ ⟨blocks', held', after⟩

/-- With nothing held, the listed blocks are determined by the managed ranges. -/
theorem listed_perm {other : System Nat} {others otherHeld : List Block}
    (first : CoalescedInvariant system blocks held)
    (second : CoalescedInvariant other others otherHeld)
    (managed : other.managed = system.managed) (live : system.live = []) (otherLive : other.live = [])
    {order : Nat} (small : order < maxOrder) :
    (listedPages other.pmm order).Perm (listedPages system.pmm order) := by
  have noneHeld : held = [] := List.map_eq_nil_iff.mp (first.invariant.live.symm.trans live)
  have noneHeld' : otherHeld = [] :=
    List.map_eq_nil_iff.mp (second.invariant.live.symm.trans otherLive)
  have covered := first.invariant.covered
  have covered' := second.invariant.covered
  rw [noneHeld, List.append_nil] at covered
  rw [noneHeld', List.append_nil, managed] at covered'
  have same := second.coalesced.perm_of_covers first.coalesced fun index =>
    (covered' index).symm.trans (covered index)
  rw [listedPages_eq first.invariant.lists small, listedPages_eq second.invariant.lists small]
  exact (same.filter _).map _

end CoalescedInvariant

theorem coalescedInvariant_boot {system : System Nat} (boot : BuddyBoot system) :
    CoalescedInvariant system [] [] where
  invariant := buddyInvariant_boot boot
  aligned := by simp
  noBuddies := by simp
  flags page flagged := by simp [boot.unflagged] at flagged

/-- Once a range is managed, no step changes what is managed. -/
theorem managed_of_coalescing {npage : Nat} {first last : System Nat} {requests : List Request}
    (run : Run (System.StepMeeting (buddySystemPmmManager npage) buddyGranted (Coalescing npage))
      first requests last) (managed : first.managed ≠ []) : last.managed = first.managed := by
  induction run with
  | nil => rfl
  | cons move _ inductionHypothesis =>
      obtain ⟨step, meets⟩ := move
      cases step with
      | initMemmap => exact absurd meets.1.1 managed
      | allocNull => exact inductionHypothesis managed
      | allocPage => exact inductionHypothesis managed
      | freePages => exact inductionHypothesis managed

/-- As long as every freed block finds its listed buddies flagged, no two buddies are ever free
together, and when everything handed out has come back the free lists hold the blocks they held
after `init_memmap`. -/
theorem buddy_coalescing_complete {npage base n : Nat} {start first last : System Nat}
    {requests : List Request} (boot : BuddyBoot start)
    (initialised : System.StepMeeting (buddySystemPmmManager npage) buddyGranted
      (Coalescing npage) start (.initMemmap base n) first)
    (run : Run (System.StepMeeting (buddySystemPmmManager npage) buddyGranted (Coalescing npage))
      first requests last) :
    NoFreeBuddies last.pmm ∧
    (last.live = [] → ∀ order < maxOrder,
      (listedPages last.pmm order).Perm (listedPages first.pmm order)) ∧
    ∀ request, last.Admits request → Coalescing npage last request →
      ∃ next, System.Step (buddySystemPmmManager npage) buddyGranted last request next := by
  obtain ⟨firstBlocks, firstHeld, atFirst⟩ := (coalescedInvariant_boot boot).step initialised
  obtain ⟨blocks, held, atLast⟩ := run.invariant
    (fun system => ∃ blocks held, CoalescedInvariant system blocks held)
    (fun _ _ _ ⟨_, _, before⟩ move => before.step move) ⟨firstBlocks, firstHeld, atFirst⟩
  obtain ⟨firstLive, firstManaged⟩ : first.live = [] ∧ first.managed ≠ [] := by
    obtain ⟨step, -⟩ := initialised
    cases step with
    | initMemmap => exact ⟨boot.live, List.cons_ne_nil _ _⟩
  refine ⟨atLast.noFreeBuddies, fun lastLive order small => ?_, fun request admitted meets => ?_⟩
  · exact atFirst.listed_perm atLast (managed_of_coalescing run firstManaged) firstLive lastLive
      small
  · obtain ⟨next, -, -, step, -⟩ := atLast.answers admitted meets
    exact ⟨next, step⟩

/-- Two blocks of a range of four pages are handed out and come back, the larger one first, so
that the second merge goes up two levels. -/
def twoLevelRequests : List Request :=
  [.allocPages 2, .allocPages 1, .freePages 2 2, .freePages 1 1]

theorem buddy_coalescing_complete_two_levels :
    ∃ first last : System Nat,
      System.exec (buddySystemPmmManager (nbase + 16)) buddyGranted (Coalescing (nbase + 16)) 20
        buddyBootSystem [.initMemmap 0 4] = some first ∧
      System.exec (buddySystemPmmManager (nbase + 16)) buddyGranted (Coalescing (nbase + 16)) 20
        first twoLevelRequests = some last ∧
      NoFreeBuddies last.pmm ∧
      ∀ order < maxOrder, (listedPages last.pmm order).Perm (listedPages first.pmm order) := by
  have done : ((System.exec (buddySystemPmmManager (nbase + 16)) buddyGranted
      (Coalescing (nbase + 16)) 20 buddyBootSystem [.initMemmap 0 4]).bind fun first =>
        System.exec (buddySystemPmmManager (nbase + 16)) buddyGranted (Coalescing (nbase + 16)) 20
          first twoLevelRequests).map System.live = some [] := by decide
  obtain ⟨last, finished, live⟩ := Option.map_eq_some_iff.mp done
  obtain ⟨first, started, continued⟩ := Option.bind_eq_some_iff.mp finished
  have initialised : System.StepMeeting (buddySystemPmmManager (nbase + 16)) buddyGranted
      (Coalescing (nbase + 16)) buddyBootSystem (.initMemmap 0 4) first := by
    cases System.exec_run started with
    | cons move rest =>
        cases rest
        exact move
  have complete := buddy_coalescing_complete buddyBootSystem_boot initialised
    (System.exec_run continued)
  exact ⟨first, last, started, continued, complete.1, complete.2.1 live⟩

/-- Four single pages are handed out and come back. -/
def singlePageRequests : List Request :=
  [.initMemmap 0 4, .allocPages 1, .allocPages 1, .allocPages 1, .allocPages 1,
    .freePages 0 1, .freePages 1 1, .freePages 2 1, .freePages 3 1]

theorem buddy_merge_stops :
    ¬ ∀ requests system,
      Run (System.StepMeeting (buddySystemPmmManager (nbase + 16)) buddyGranted
        (AlignedRange (nbase + 16))) buddyBootSystem requests system →
      NoFreeBuddies system.pmm := by
  intro merges
  have done : (System.exec (buddySystemPmmManager (nbase + 16)) buddyGranted
      (AlignedRange (nbase + 16)) 20 buddyBootSystem singlePageRequests).map
        (fun system => listedPages system.pmm 1) = some [2, 0] := by decide
  obtain ⟨system, finished, listed⟩ := Option.map_eq_some_iff.mp done
  have apart := merges singlePageRequests system (System.exec_run finished) 1 (by decide) 0
    (by rw [listed]; decide) 2 (by rw [listed]; decide)
  exact apart (by decide)

end UCore.Mm
