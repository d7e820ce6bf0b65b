import UCore.Mm.BuddyLists

/-!
Contract: runs of a kernel over the buddy system.

Owns:
- `BuddyInvariant`, which ties the listed blocks, the live allocations and the managed pages
  together, and what each request does to it;
- the reduction of `free_pages` to its merge.

Which pages carry `PG_property` is left to the users of this module: the two results about the
manager need different facts about it.
-/

set_option autoImplicit false

namespace UCore.Mm

open UCore.Lib UCore.Libs

/-- Every page is reserved and unflagged, every free list is empty, nothing is managed. -/
structure BuddyBoot (system : System Nat) : Prop where
  reserved : ∀ page, system.pmm.pageReserved page = true
  unflagged : ∀ page, system.pmm.pageProperty page = false
  empty : ∀ order < maxOrder, IsRing system.pmm.links (.freeList order) []
  nrFree : ∀ order < maxOrder, system.pmm.nrFree order = 0
  managed : system.managed = []
  live : system.live = []

/-- The invariant of a run, for the blocks that are listed and those that are held. -/
structure BuddyInvariant (system : System Nat) (blocks held : List Block) : Prop where
  lists : BuddyLists system.pmm blocks
  live : system.live = Block.extents held
  small : ∀ block ∈ held, block.order < maxOrder
  apart : (Block.extents (blocks ++ held)).Pairwise Extent.Disjoint
  covered : ∀ page,
    Extent.Covers system.managed page ↔ Extent.Covers (Block.extents (blocks ++ held)) page
  reserved : ∀ page, system.pmm.pageReserved page = false ↔ Extent.Covers system.managed page
  balance : Extent.total (Block.extents blocks) + Extent.total (Block.extents held) =
    Extent.total system.managed
  bounded : Extent.total system.managed < 2 ^ 32

/-- The state after `buddy_system_init`, with every page reserved by `page_init`. -/
def buddyBootSystem : System Nat where
  pmm := buddySystemInit
    { pages := fun _ => ⟨0, ⟨true, false⟩, 0⟩
      links := ⟨id, id⟩
      nrFree := fun _ => 0 }
  managed := []
  live := []

/-- Free and live pages add up to the managed ones. -/
theorem BuddyInvariant.free_count {system : System Nat} {blocks held : List Block}
    (invariant : BuddyInvariant system blocks held) :
    buddySystemNrFreePages system.pmm + Extent.total system.live =
      Extent.total system.managed := by
  rw [invariant.lists.nrFreePages, invariant.live]
  exact invariant.balance

/-- Initialising the free areas one after another leaves each of them empty. -/
theorem initFreeArea_foldl (orders : List Nat) (pmm : Pmm Nat) (order : Nat)
    (covered : order ∈ orders ∨ IsRing pmm.links (.freeList order) [] ∧ pmm.nrFree order = 0) :
    IsRing (orders.foldl initFreeArea pmm).links (.freeList order) [] ∧
      (orders.foldl initFreeArea pmm).nrFree order = 0 := by
  induction orders generalizing pmm with
  | nil => exact covered.resolve_left (List.not_mem_nil)
  | cons first rest inductionHypothesis =>
      apply inductionHypothesis
      by_cases same : order = first
      · subst same
        exact Or.inr ⟨listInit_isRing _ _, Function.update_self ..⟩
      · rcases covered with member | ⟨ring, zero⟩
        · exact Or.inl ((List.mem_cons.mp member).resolve_left same)
        · refine Or.inr ⟨listInit_frame ring (by simp; exact fun equal => same equal.symm), ?_⟩
          exact (Function.update_of_ne same ..).trans zero

theorem buddyBootSystem_boot : BuddyBoot buddyBootSystem where
  reserved _ := rfl
  unflagged _ := rfl
  empty order small := (initFreeArea_foldl (List.range maxOrder) _ order
    (Or.inl (List.mem_range.mpr small))).1
  nrFree order small := (initFreeArea_foldl (List.range maxOrder) _ order
    (Or.inl (List.mem_range.mpr small))).2
  managed := rfl
  live := rfl

theorem buddyInvariant_boot {system : System Nat} (boot : BuddyBoot system) :
    BuddyInvariant system [] [] where
  lists :=
    { ring := boot.empty
      nrFree := boot.nrFree
      small := by simp
      property := by simp
      apart := List.Pairwise.nil
      bounded := by decide }
  live := boot.live
  small := by simp
  apart := List.Pairwise.nil
  covered := by simp [boot.managed, Extent.Covers]
  reserved := by simp [boot.reserved, boot.managed, Extent.Covers]
  balance := by simp [boot.managed]
  bounded := by simp [boot.managed]

/-! ## Sizes of freed blocks -/

theorem isPowerOf2_size {order : Nat} (small : order < maxOrder) :
    isPowerOf2 (2 ^ order) = true := by
  have all : ∀ order < maxOrder, isPowerOf2 (2 ^ order) = true := by decide
  exact all order small

/-- Shifting a size down to one counts its order. -/
theorem countShifts_size {order : Nat} (small : order < maxOrder) :
    countShifts 64 (2 ^ order) 0 = order := by
  have all : ∀ order < maxOrder, countShifts 64 (2 ^ order) 0 = order := by decide
  exact all order small

/-! ## The frame of a buddy -/

/-- Frame numbers differ from page numbers above every bit of a block size. -/
theorem page2ppn_xor {order : Nat} (small : order < maxOrder) (base : Nat) :
    page2ppn base ^^^ 2 ^ order = page2ppn (Block.buddy ⟨order, base⟩).base := by
  have even : nbase = 2 ^ order * (2 * 2 ^ (18 - order)) := by
    have all : ∀ order < maxOrder, nbase = 2 ^ order * (2 * 2 ^ (18 - order)) := by decide
    exact all order small
  have size := Nat.two_pow_pos order
  have quotient : page2ppn base / 2 ^ order = base / 2 ^ order + 2 * 2 ^ (18 - order) := by
    rw [page2ppn, even, Nat.add_mul_div_left _ _ size]
  show _ = page2ppn (base ^^^ 2 ^ order)
  rw [xor_two_pow, xor_two_pow, quotient, Nat.add_mul_mod_self_left]
  split_ifs with below
  · unfold page2ppn
    omega
  · have above : 2 ^ order ≤ base := by
      by_contra less
      rw [Nat.div_eq_of_lt (by omega)] at below
      exact below rfl
    unfold page2ppn
    omega

/-- The lookup of a buddy by its physical address. -/
theorem pa2page_buddy {order : Nat} (small : order < maxOrder) (npage base : Nat) :
    pa2page npage (page2pa base ^^^ (1 <<< order) <<< pgShift) =
      if npage ≤ page2ppn (Block.buddy ⟨order, base⟩).base then .error .panicked
      else .ok (Block.buddy ⟨order, base⟩).base := by
  have frame : ppn (page2pa base ^^^ (1 <<< order) <<< pgShift) =
      page2ppn (Block.buddy ⟨order, base⟩).base := by
    rw [ppn, page2pa, Nat.shiftRight_xor_distrib, Nat.shiftLeft_shiftRight,
      Nat.shiftLeft_shiftRight, Nat.one_shiftLeft, page2ppn_xor small]
  rw [pa2page, frame, page2ppn, Nat.add_sub_cancel]

/-- The state in which a block has taken over its listed buddy. -/
def joinBuddy (pmm : Pmm Nat) (block : Block) : Pmm Nat :=
  (((removePage pmm block.order block.buddy.base).clearPageProperty
    block.buddy.base).setProperty block.parent.base (2 ^ (block.order + 1))).clearPageProperty
      block.parent.base

/-- One level of `merge_page`, with the buddy as a block. -/
theorem mergePage_succ {block : Block} (below : block.order < maxOrder - 1) (npage fuel : Nat)
    (pmm : Pmm Nat) : mergePage npage (fuel + 1) pmm block.order block.base =
      if npage ≤ page2ppn block.buddy.base then .error .panicked
      else if pmm.property block.buddy.base = 2 ^ block.order ∧
          pmm.pageProperty block.buddy.base = true then
        mergePage npage fuel (joinBuddy pmm block) (block.order + 1) block.parent.base
      else .ok (addPage pmm block.order block.base) := by
  have small : block.order < maxOrder := Nat.lt_of_lt_of_le below (Nat.sub_le _ _)
  have lower : (if block.buddy.base < block.base then block.buddy.base else block.base) =
      block.parent.base := by
    show _ = min block.base block.buddy.base
    rw [Nat.min_def]
    split_ifs <;> omega
  have double : 2 ^ block.order <<< 1 = 2 ^ (block.order + 1) := by
    rw [Nat.shiftLeft_eq, ← Nat.pow_add]
  rw [mergePage, if_neg (by omega)]
  dsimp only
  rw [pa2page_buddy small]
  by_cases outside : npage ≤ page2ppn block.buddy.base
  · rw [if_pos outside, if_pos outside]
    rfl
  · rw [if_neg outside, if_neg outside]
    simp only [bind, Except.bind, pure, Except.pure, Nat.one_shiftLeft]
    by_cases merges : pmm.property block.buddy.base = 2 ^ block.order ∧
        pmm.pageProperty block.buddy.base = true
    · rw [if_neg (by simp [merges.1, merges.2]), if_pos merges, lower, double]
      rfl
    · rw [if_pos (by
        by_contra both
        simp only [not_or, ne_eq, not_not, Bool.not_eq_false] at both
        exact merges both), if_neg merges]

theorem extent_injective : Function.Injective Block.extent :=
  fun _ _ same => Block.ext_extent same

namespace BuddyInvariant

variable {system : System Nat} {blocks held : List Block}

theorem total_lt (invariant : BuddyInvariant system blocks held) :
    Extent.total (Block.extents blocks) + Extent.total (Block.extents held) < 2 ^ 32 := by
  rw [invariant.balance]
  exact invariant.bounded

theorem apart_split (invariant : BuddyInvariant system blocks held) :
    (Block.extents held).Pairwise Extent.Disjoint ∧
      ∀ block ∈ blocks, ∀ other ∈ held, Extent.Disjoint block.extent other.extent := by
  have apart := invariant.apart
  rw [Block.extents_append, List.pairwise_append] at apart
  refine ⟨apart.2.1, fun block listed other live => ?_⟩
  exact apart.2.2 _ (List.mem_map_of_mem listed) _ (List.mem_map_of_mem live)

/-- A held block could be listed again. -/
theorem held_room (invariant : BuddyInvariant system blocks held) {block : Block}
    (member : block ∈ held) :
    (∀ other ∈ blocks, Extent.Disjoint block.extent other.extent) ∧
      2 ^ block.order + Extent.total (Block.extents blocks) < 2 ^ 32 := by
  refine ⟨fun other listed => (invariant.apart_split.2 other listed block member).symm, ?_⟩
  have mapped : block.extent ∈ Block.extents held := List.mem_map_of_mem member
  have within : 2 ^ block.order ≤ Extent.total (Block.extents held) := Extent.size_le_total mapped
  have room := invariant.total_lt
  omega

/-! ## `init_memmap` -/

theorem initMemmap (invariant : BuddyInvariant system blocks held) {base n : Nat}
    (admitted : system.Admits (.initMemmap base n))
    (bounded : Extent.total system.managed + n < 2 ^ 32) :
    ∃ new result,
      Returns (fun fuel => buddySystemInitMemmap fuel system.pmm base n) result ∧
      BuddyInvariant ⟨result, ⟨base, n⟩ :: system.managed, system.live⟩ (new ++ blocks) held ∧
      Cuts base 0 n new ∧
      ∀ page, result.pageProperty page = true ↔ (∃ block ∈ new, block.base = page) ∨
        page ∉ (⟨base, n⟩ : Extent) ∧ system.pmm.pageProperty page = true := by
  obtain ⟨positive, fresh⟩ := admitted
  have outside : ∀ page ∈ (⟨base, n⟩ : Extent), ¬ Extent.Covers system.managed page := by
    rintro page member ⟨range, managed, inRange⟩
    exact (fresh range managed).notMem member inRange
  have away : ∀ block ∈ blocks ++ held, Extent.Disjoint ⟨base, n⟩ block.extent := by
    intro block member
    refine Extent.disjoint_of_notMem ⟨positive, block.extent_positive⟩ fun page inRange inBlock => ?_
    apply outside page inRange
    rw [invariant.covered page, Block.covers_extents]
    exact ⟨block, member, inBlock⟩
  obtain ⟨cleared, clearing, links, nrFree, pages⟩ :=
    clearReserved_ok system.pmm base n fun page member => by
      rw [← Bool.not_eq_false, invariant.reserved page]
      exact outside page member
  have kept : BuddyLists cleared blocks := by
    refine invariant.lists.congr links nrFree fun block listed => ?_
    have apart := (away block (List.mem_append_left _ listed)).symm
    rw [Pmm.property, pages, if_neg (apart.notMem block.base_mem_extent)]
    rfl
  have total := invariant.total_lt
  have balance := invariant.balance
  obtain ⟨new, result, run, listed, cuts, reserved, flagged⟩ :=
    @BuddyLists.initBlocks _ _ base 0 n (n + 1) kept (Nat.lt_succ_self n)
      (fun other member => away other (List.mem_append_left _ member)) (by omega)
  have newCovers : ∀ page, Extent.Covers (Block.extents new) page ↔ page ∈ (⟨base, n⟩ : Extent) :=
    cuts.covers
  have newInside : ∀ block ∈ new, ∀ index ∈ block.extent, index ∈ (⟨base, n⟩ : Extent) := by
    intro block member index inBlock
    exact (newCovers index).mp (Block.covers_extents.mpr ⟨block, member, inBlock⟩)
  refine ⟨new, result, ⟨n + 1, fun fuel enough => ?_⟩, ?_, cuts, ?_⟩
  · show buddySystemInitMemmap fuel system.pmm base n = _
    rw [buddySystemInitMemmap, if_neg (by omega), clearing]
    exact initBlocks_mono run enough
  · refine ⟨listed, invariant.live, invariant.small, ?_, ?_, ?_, ?_, ?_⟩
    · rw [List.append_assoc, Block.extents_append, List.pairwise_append]
      refine ⟨?_, invariant.apart, ?_⟩
      · have all := listed.apart
        rw [Block.extents_append, List.pairwise_append] at all
        exact all.1
      · intro left leftMember right rightMember
        obtain ⟨block, member, rfl⟩ := List.mem_map.mp leftMember
        obtain ⟨other, otherMember, rfl⟩ := List.mem_map.mp rightMember
        refine Extent.disjoint_of_notMem ⟨block.extent_positive, other.extent_positive⟩ ?_
        exact fun index inBlock =>
          (away other otherMember).notMem (newInside block member index inBlock)
    · intro page
      rw [Extent.covers_cons, List.append_assoc, Block.extents_append, Extent.covers_append,
        newCovers page, invariant.covered page]
    · intro page
      rw [reserved page, Extent.covers_cons, ← invariant.reserved page, Pmm.pageReserved, pages]
      split_ifs with inside
      · simp [inside, PageFlags.clear]
      · simp [inside, Pmm.pageReserved]
    · rw [Block.extents_append, Extent.total_append, cuts.total, Extent.total_cons]
      show _ = n + _
      omega
    · rw [Extent.total_cons]
      show n + _ < _
      omega
  · intro page
    rw [flagged page, Pmm.pageProperty, pages]
    split_ifs with inside
    · simp [inside, PageFlags.clear]
    · simp [inside, Pmm.pageProperty]

/-! ## `alloc_pages` -/

/-- The last half of the halved block is held afterwards, and what is left over is listed. -/
theorem allocated (invariant : BuddyInvariant system blocks held)
    {left right blocks' : List Block} {order base count : Nat} {result : Pmm Nat}
    (split : blocks = left ++ ⟨order + count, base⟩ :: right)
    (lists : BuddyLists result blocks')
    (moved : blocks'.Perm (remains order base count ++ (left ++ right)))
    (reserved : ∀ page, result.pageReserved page = system.pmm.pageReserved page) :
    BuddyInvariant ⟨result, system.managed, ⟨lastHalf order base count, 2 ^ order⟩ :: system.live⟩
      blocks' (⟨order, lastHalf order base count⟩ :: held) := by
  subst split
  obtain ⟨heldApart, crossApart⟩ := invariant.apart_split
  have small : order + count < maxOrder := invariant.lists.small ⟨order + count, base⟩ (by simp)
  have halves := mem_halves order base count
  have totalRemains := total_remains order base count
  have coversMoved : ∀ page, Extent.Covers (Block.extents blocks') page ↔
      Extent.Covers (Block.extents (remains order base count)) page ∨
        Extent.Covers (Block.extents (left ++ right)) page := by
    intro page
    rw [← Extent.covers_append, ← Block.extents_append]
    simp only [Block.covers_extents, moved.mem_iff]
  have totalMoved : Extent.total (Block.extents blocks') =
      Extent.total (Block.extents (remains order base count)) +
        Extent.total (Block.extents (left ++ right)) := by
    rw [← Extent.total_append, ← Block.extents_append]
    exact ((moved.map Block.extent).map Extent.size).sum_eq
  have whole : ∀ page, Extent.Covers (Block.extents (left ++ ⟨order + count, base⟩ :: right)) page ↔
      page ∈ (⟨order + count, base⟩ : Block).extent ∨
        Extent.Covers (Block.extents (left ++ right)) page := by
    intro page
    rw [← Extent.covers_cons, ← Block.extents_cons]
    simp only [Block.covers_extents, List.perm_middle.mem_iff]
  have lastInside : ∀ index ∈ (⟨order, lastHalf order base count⟩ : Block).extent,
      index ∈ (⟨order + count, base⟩ : Block).extent :=
    fun index member => (halves index).mpr (Or.inl member)
  -- the last half meets neither what is left over nor the other listed blocks
  have lastApart : ∀ block ∈ blocks',
      Extent.Disjoint block.extent (⟨order, lastHalf order base count⟩ : Block).extent := by
    intro block member
    rcases List.mem_append.mp (moved.mem_iff.mp member) with left_over | other
    · exact Or.inl (remains_below order base count left_over).2.2.1
    · have apart := invariant.lists.apart
      rw [Block.extents, (List.perm_middle.map Block.extent).pairwise_iff
        (fun disjoint => Extent.Disjoint.symm disjoint), List.map_cons, List.pairwise_cons] at apart
      refine Extent.disjoint_of_notMem ⟨block.extent_positive, Block.extent_positive _⟩ ?_
      intro index inBlock inLast
      exact (apart.1 block.extent (List.mem_map_of_mem other)).notMem (lastInside index inLast) inBlock
  refine ⟨lists, ?_, ?_, ?_, ?_, ?_, ?_, invariant.bounded⟩
  · rw [Block.extents_cons, invariant.live]
    rfl
  · intro block member
    rcases List.mem_cons.mp member with rfl | older
    · exact Nat.lt_of_le_of_lt (Nat.le_add_right order count) small
    · exact invariant.small block older
  · rw [Block.extents_append, List.pairwise_append]
    refine ⟨lists.apart, ?_, ?_⟩
    · rw [Block.extents_cons, List.pairwise_cons]
      refine ⟨fun extent member => ?_, heldApart⟩
      obtain ⟨other, live, rfl⟩ := List.mem_map.mp member
      refine Extent.disjoint_of_notMem ⟨Block.extent_positive _, other.extent_positive⟩ ?_
      intro index inLast
      exact (crossApart ⟨order + count, base⟩ (by simp) other live).notMem (lastInside index inLast)
    · intro extent listed other live
      obtain ⟨block, member, rfl⟩ := List.mem_map.mp listed
      obtain ⟨heldBlock, heldMember, rfl⟩ := List.mem_map.mp live
      rcases List.mem_cons.mp heldMember with rfl | older
      · exact lastApart block member
      · refine Extent.disjoint_of_notMem ⟨block.extent_positive, heldBlock.extent_positive⟩ ?_
        intro index inBlock inHeld
        have before : Extent.Covers
            (Block.extents (left ++ ⟨order + count, base⟩ :: right)) index := by
          have here := (coversMoved index).mp (Block.covers_extents.mpr ⟨block, member, inBlock⟩)
          rw [whole index, halves index]
          rcases here with leftOver | other
          · exact Or.inl (Or.inr leftOver)
          · exact Or.inr other
        obtain ⟨old, oldMember, inOld⟩ := Block.covers_extents.mp before
        exact (crossApart old oldMember heldBlock older).notMem inOld inHeld
  · intro page
    have before := invariant.covered page
    have now := coversMoved page
    have old := whole page
    have parts := halves page
    simp only [Block.extents_append, Block.extents_cons, Extent.covers_append,
      Extent.covers_cons] at before now old ⊢
    rw [before, now]
    grind
  · intro page
    exact (reserved page) ▸ invariant.reserved page
  · have balance := invariant.balance
    simp only [Block.extents_append, Block.extents_cons, Extent.total_append, Extent.total_cons,
      Block.extent] at balance totalMoved ⊢
    omega

/-! ## `free_pages` -/

/-- A held block whose pages are unflagged is cleared and marked, and then merged. -/
theorem freePages_eq (invariant : BuddyInvariant system blocks held) {block : Block}
    (member : block ∈ held)
    (unflagged : ∀ page ∈ block.extent, system.pmm.pageProperty page = false) :
    ∃ marked, (∀ npage fuel,
        buddySystemFreePages npage fuel system.pmm block.base (2 ^ block.order) =
          mergePage npage fuel marked block.order block.base) ∧
      BuddyLists marked blocks ∧ marked.property block.base = 2 ^ block.order ∧
      (∀ page ∉ block.extent, marked.property page = system.pmm.property page) ∧
      (∀ page, marked.pageReserved page = system.pmm.pageReserved page) ∧
      ∀ page, marked.pageProperty page = true ↔
        page = block.base ∨ system.pmm.pageProperty page = true := by
  have small := invariant.small block member
  have allocated : ∀ page ∈ block.extent,
      system.pmm.pageReserved page = false ∧ system.pmm.pageProperty page = false := by
    intro page inBlock
    refine ⟨?_, unflagged page inBlock⟩
    rw [invariant.reserved page, invariant.covered page, Block.covers_extents]
    exact ⟨block, List.mem_append_right _ member, inBlock⟩
  obtain ⟨cleared, clearing, links, nrFree, pages⟩ :=
    clearAllocated_ok system.pmm block.base (2 ^ block.order) allocated
  have kept : BuddyLists cleared blocks := by
    refine invariant.lists.congr links nrFree fun other _ => ?_
    rw [Pmm.property, pages]
    split_ifs <;> rfl
  have sized := u32_size small
  have size := Nat.two_pow_pos block.order
  have fits : 2 ^ block.order ≤ 2 ^ (maxOrder - 1) :=
    Nat.pow_le_pow_right (by decide) (Nat.le_sub_one_of_lt small)
  refine ⟨markPage cleared block.base (2 ^ block.order), fun npage fuel => ?_, ?_, ?_, ?_, ?_, ?_⟩
  · rw [buddySystemFreePages, if_neg (by omega), if_neg (by rw [isPowerOf2_size small]; decide),
      if_neg (by rw [Nat.one_shiftLeft]; omega), clearing, countShifts_size small]
    rfl
  · refine kept.congr rfl rfl fun other listed => ?_
    have apart := invariant.apart_split.2 other listed block member
    rw [markPage_property, if_neg]
    intro same
    apply apart.notMem other.base_mem_extent
    rw [same]
    exact block.base_mem_extent
  · rw [markPage_property, if_pos rfl, sized]
  · intro page outside
    have different : page ≠ block.base := fun same => outside (same ▸ block.base_mem_extent)
    have outside' : page ∉ (⟨block.base, 2 ^ block.order⟩ : Extent) := outside
    rw [markPage_property, if_neg different, Pmm.property, pages, if_neg outside']
    rfl
  · intro page
    rw [markPage_pageReserved, Pmm.pageReserved, pages]
    split_ifs with inside
    · exact (allocated page inside).1.symm
    · rfl
  · intro page
    rw [markPage_pageProperty]
    split_ifs with same
    · simp [same]
    · rw [Pmm.pageProperty, pages]
      split_ifs with inside
      · have := unflagged page inside
        simp [same, PageFlags.clear, this]
      · simp [same, Pmm.pageProperty]

/-- Whatever the merge does to the listed blocks, as long as they take in exactly the pages of
the freed one. -/
theorem released (invariant : BuddyInvariant system blocks held) {block : Block}
    (member : block ∈ held) {blocks' : List Block} {result : Pmm Nat}
    (lists : BuddyLists result blocks')
    (covers : ∀ page, Extent.Covers (Block.extents blocks') page ↔
      page ∈ block.extent ∨ Extent.Covers (Block.extents blocks) page)
    (total : Extent.total (Block.extents blocks') =
      2 ^ block.order + Extent.total (Block.extents blocks))
    (reserved : ∀ page, result.pageReserved page = system.pmm.pageReserved page) :
    BuddyInvariant ⟨result, system.managed, system.live.erase block.extent⟩ blocks'
      (held.erase block) := by
  obtain ⟨heldApart, crossApart⟩ := invariant.apart_split
  have moved : List.Perm held (block :: held.erase block) := List.perm_cons_erase member
  have heldApart' := heldApart
  rw [Block.extents, (moved.map Block.extent).pairwise_iff
    (fun disjoint => Extent.Disjoint.symm disjoint), List.map_cons, List.pairwise_cons] at heldApart'
  refine ⟨lists, ?_, ?_, ?_, ?_, ?_, ?_, invariant.bounded⟩
  · show system.live.erase block.extent = _
    rw [invariant.live, Block.extents, Block.extents, ← List.map_erase extent_injective]
  · exact fun other kept => invariant.small other (List.mem_of_mem_erase kept)
  · rw [Block.extents_append, List.pairwise_append]
    refine ⟨lists.apart, heldApart'.2, ?_⟩
    intro extent listed other live
    obtain ⟨new, newMember, rfl⟩ := List.mem_map.mp listed
    obtain ⟨kept, keptMember, rfl⟩ := List.mem_map.mp live
    refine Extent.disjoint_of_notMem ⟨new.extent_positive, kept.extent_positive⟩ ?_
    intro index inNew inKept
    rcases (covers index).mp (Block.covers_extents.mpr ⟨new, newMember, inNew⟩) with freed | old
    · exact (heldApart'.1 _ live).notMem freed inKept
    · obtain ⟨oldBlock, oldMember, inOld⟩ := Block.covers_extents.mp old
      exact (crossApart oldBlock oldMember kept (List.mem_of_mem_erase keptMember)).notMem inOld
        inKept
  · intro page
    have before := invariant.covered page
    have now := covers page
    have split : Extent.Covers (Block.extents held) page ↔
        page ∈ block.extent ∨ Extent.Covers (Block.extents (held.erase block)) page := by
      rw [← Extent.covers_cons, ← Block.extents_cons]
      simp only [Block.covers_extents, moved.mem_iff]
    simp only [Block.extents_append, Extent.covers_append] at before ⊢
    rw [before, now, split]
    grind
  · intro page
    exact (reserved page) ▸ invariant.reserved page
  · have balance := invariant.balance
    have split : Extent.total (Block.extents held) =
        2 ^ block.order + Extent.total (Block.extents (held.erase block)) :=
      ((moved.map Block.extent).map Extent.size).sum_eq
    show _ = Extent.total system.managed
    omega

/-- A block that the kernel holds, as the request to free it names it. -/
theorem held_of_live (invariant : BuddyInvariant system blocks held) {base n : Nat}
    (admitted : system.Admits (.freePages base n)) :
    ∃ block ∈ held, block.base = base ∧ 2 ^ block.order = n := by
  have live : (⟨base, n⟩ : Extent) ∈ system.live := admitted
  rw [invariant.live] at live
  obtain ⟨block, member, same⟩ := List.mem_map.mp live
  rw [Block.extent, Extent.mk.injEq] at same
  exact ⟨block, member, same⟩

end BuddyInvariant

end UCore.Mm
