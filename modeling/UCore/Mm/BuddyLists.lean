import UCore.Lib.Dyadic
import UCore.Mm.Buddy

/-!
Contract: what the buddy code does to the blocks on its free lists.

Owns:
- `BuddyLists`, which says that the free list of each order holds exactly the blocks of that
  order out of one list of disjoint blocks, linked both ways and counted;
- one theorem per function of `Buddy`, in terms of that list of blocks and of the pages that
  carry `PG_property`.

The blocks of one order stand in `blocks` in the order of their free list, so that an entry
added at the front of a free list is a block added at the front of `blocks`.
-/

set_option autoImplicit false

namespace UCore.Mm

open UCore.Lib UCore.Libs

/-- The entries on the free list of an order. -/
def orderEntries (blocks : List Block) (order : Nat) : List (ListEntry Nat) :=
  (blocks.filter fun block => block.order = order).map fun block => .pageLink block.base

@[simp] theorem orderEntries_append (left right : List Block) (order : Nat) :
    orderEntries (left ++ right) order = orderEntries left order ++ orderEntries right order := by
  simp [orderEntries]

@[simp] theorem orderEntries_cons_same (block : Block) (rest : List Block) :
    orderEntries (block :: rest) block.order = .pageLink block.base :: orderEntries rest block.order := by
  simp [orderEntries]

theorem orderEntries_cons_other {block : Block} {order : Nat} (rest : List Block)
    (different : block.order ≠ order) :
    orderEntries (block :: rest) order = orderEntries rest order := by
  simp [orderEntries, different]

theorem pageLink_mem_orderEntries {blocks : List Block} {order page : Nat} :
    .pageLink page ∈ orderEntries blocks order ↔ (⟨order, page⟩ : Block) ∈ blocks := by
  simp only [orderEntries, List.mem_map, List.mem_filter, decide_eq_true_eq,
    ListEntry.pageLink.injEq]
  constructor
  · rintro ⟨block, ⟨member, rfl⟩, rfl⟩
    exact member
  · intro member
    exact ⟨_, ⟨member, rfl⟩, rfl⟩

theorem freeList_notMem_orderEntries (blocks : List Block) (order other : Nat) :
    .freeList other ∉ orderEntries blocks order := by
  simp [orderEntries]

theorem orderEntries_eq_nil {blocks : List Block} {order : Nat} :
    orderEntries blocks order = [] ↔ ∀ block ∈ blocks, block.order ≠ order := by
  simp [orderEntries]

/-- At most as many blocks of one order as there are pages. -/
theorem length_orderEntries_le (blocks : List Block) (order : Nat) :
    (orderEntries blocks order).length ≤ Extent.total (Block.extents blocks) := by
  induction blocks with
  | nil => exact Nat.le_refl 0
  | cons block rest inductionHypothesis =>
      have size := block.extent_positive
      rw [Block.extents_cons, Extent.total_cons]
      by_cases same : block.order = order
      · subst same
        rw [orderEntries_cons_same, List.length_cons]
        show _ ≤ _ + Extent.total (Block.extents rest)
        omega
      · rw [orderEntries_cons_other rest same]
        show _ ≤ _ + Extent.total (Block.extents rest)
        omega

/-- The free lists hold exactly `blocks`. -/
structure BuddyLists (pmm : Pmm Nat) (blocks : List Block) : Prop where
  ring : ∀ order < maxOrder, IsRing pmm.links (.freeList order) (orderEntries blocks order)
  nrFree : ∀ order < maxOrder, pmm.nrFree order = (orderEntries blocks order).length
  small : ∀ block ∈ blocks, block.order < maxOrder
  property : ∀ block ∈ blocks, pmm.property block.base = 2 ^ block.order
  apart : (Block.extents blocks).Pairwise Extent.Disjoint
  bounded : Extent.total (Block.extents blocks) < 2 ^ 32

theorem u32_size {order : Nat} (small : order < maxOrder) : u32 (2 ^ order) = 2 ^ order := by
  exact u32_of_lt (Nat.pow_lt_pow_right (by decide) (Nat.lt_trans small (by decide)))

theorem pred32_succ {value : Nat} (small : value < 2 ^ 32) : pred32 (value + 1) = value := by
  unfold pred32 u32
  omega

section Fields

variable (pmm : Pmm Nat) (order base size page : Nat)

@[simp] theorem addPage_pages : (addPage pmm order base).pages = pmm.pages := rfl
@[simp] theorem addPage_property :
    (addPage pmm order base).property page = pmm.property page := rfl
@[simp] theorem addPage_pageProperty :
    (addPage pmm order base).pageProperty page = pmm.pageProperty page := rfl
@[simp] theorem addPage_pageReserved :
    (addPage pmm order base).pageReserved page = pmm.pageReserved page := rfl
@[simp] theorem removePage_property :
    (removePage pmm order base).property page = pmm.property page := rfl
@[simp] theorem removePage_pageProperty :
    (removePage pmm order base).pageProperty page = pmm.pageProperty page := rfl
@[simp] theorem removePage_pageReserved :
    (removePage pmm order base).pageReserved page = pmm.pageReserved page := rfl
@[simp] theorem markPage_links : (markPage pmm base size).links = pmm.links := rfl
@[simp] theorem markPage_nrFree : (markPage pmm base size).nrFree = pmm.nrFree := rfl
@[simp] theorem markPage_pageReserved :
    (markPage pmm base size).pageReserved page = pmm.pageReserved page := by
  simp [markPage]

theorem markPage_property : (markPage pmm base size).property page =
    if page = base then u32 size else pmm.property page := by
  rw [markPage, Pmm.setPageProperty_property, Pmm.setProperty_property]

theorem markPage_pageProperty : (markPage pmm base size).pageProperty page =
    if page = base then true else pmm.pageProperty page := by
  rw [markPage, Pmm.setPageProperty_pageProperty, Pmm.setProperty_pageProperty]

end Fields

/-! ## The loops over orders -/

theorem halves_size (order : Nat) : 2 ^ (order + 1) = 2 ^ order + 2 ^ order := by
  rw [Nat.pow_succ, Nat.mul_two]

/-- The loop stops at the first order that fails the test, or at the end. -/
theorem raiseOrder_spec (test : Nat → Bool) (order remaining : Nat) :
    ∃ steps ≤ remaining, raiseOrder test order remaining = order + steps ∧
      (∀ earlier < steps, test (order + earlier) = true) ∧
      (steps < remaining → test (order + steps) = false) := by
  induction remaining generalizing order with
  | zero => exact ⟨0, Nat.le_refl 0, rfl, by simp, by simp⟩
  | succ remaining inductionHypothesis =>
      unfold raiseOrder
      split_ifs with holds
      · obtain ⟨steps, few, value, passed, stopped⟩ := inductionHypothesis (order + 1)
        refine ⟨steps + 1, Nat.succ_le_succ few, by rw [value]; omega, ?_, fun early => ?_⟩
        · intro earlier below
          cases earlier with
          | zero => exact holds
          | succ earlier =>
              have := passed earlier (by omega)
              rw [Nat.add_assoc, Nat.add_comm 1] at this
              exact this
        · have := stopped (by omega)
          rw [Nat.add_assoc, Nat.add_comm 1] at this
          exact this
      · exact ⟨0, Nat.zero_le _, rfl, by simp, fun _ => Bool.eq_false_iff.mpr holds⟩

/-- A request is rounded up to the least power of two that holds it. -/
theorem allocOrder_spec {n : Nat} (fits : n ≤ 2 ^ (maxOrder - 1)) :
    allocOrder n < maxOrder ∧ n ≤ 2 ^ allocOrder n ∧
      ∀ order < allocOrder n, 2 ^ order < n := by
  obtain ⟨steps, few, value, passed, stopped⟩ :=
    raiseOrder_spec (fun order => 1 <<< order < n) 0 maxOrder
  simp only [Nat.zero_add, Nat.one_shiftLeft, decide_eq_true_eq, decide_eq_false_iff_not,
    Nat.not_lt] at value passed stopped
  have small : steps < maxOrder := by
    by_contra large
    have := passed (maxOrder - 1) (by unfold maxOrder at *; omega)
    omega
  unfold allocOrder
  simp only [Nat.one_shiftLeft]
  rw [value]
  exact ⟨small, stopped small, passed⟩

theorem exists_first_of_order {blocks : List Block} {order : Nat}
    (present : ∃ block ∈ blocks, block.order = order) :
    ∃ left base right, blocks = left ++ ⟨order, base⟩ :: right ∧
      ∀ block ∈ left, block.order ≠ order := by
  induction blocks with
  | nil => simp at present
  | cons block rest inductionHypothesis =>
      by_cases same : block.order = order
      · exact ⟨[], block.base, rest, by rw [← same]; rfl, by simp⟩
      · obtain ⟨other, member, found⟩ := present
        rcases List.mem_cons.mp member with rfl | later
        · exact absurd found same
        · obtain ⟨left, base, right, rfl, first⟩ := inductionHypothesis ⟨other, later, found⟩
          refine ⟨block :: left, base, right, rfl, fun earlier earlierMember => ?_⟩
          rcases List.mem_cons.mp earlierMember with rfl | inLeft
          · exact same
          · exact first earlier inLeft

/-- The largest order, up to the top one, whose blocks fit into `n` pages. -/
theorem initOrder_spec {n : Nat} (positive : 0 < n) :
    initOrder n < maxOrder ∧ 2 ^ initOrder n ≤ n ∧
      (initOrder n < maxOrder - 1 → n < 2 ^ (initOrder n + 1)) := by
  obtain ⟨steps, few, value, passed, stopped⟩ :=
    raiseOrder_spec (fun order => 1 <<< order ≤ n) 0 maxOrder
  simp only [Nat.zero_add, Nat.one_shiftLeft, decide_eq_true_eq, decide_eq_false_iff_not,
    Nat.not_le] at value passed stopped
  have started : 0 < steps := by
    by_contra none
    have zero : steps = 0 := by omega
    subst zero
    have := stopped (by decide)
    rw [Nat.pow_zero] at this
    omega
  have order : initOrder n = steps - 1 := by
    unfold initOrder
    simp only [Nat.one_shiftLeft]
    rw [value, if_pos started]
  have top : maxOrder = 11 := rfl
  rw [order]
  refine ⟨by omega, passed _ (by omega), fun below => ?_⟩
  rw [Nat.sub_add_cancel started]
  exact stopped (by omega)

theorem initOrder_zero : initOrder 0 = 0 := by decide

/-- The order cut off next is no larger, and smaller below the top order. -/
theorem initOrder_rest {n : Nat} (positive : 0 < n) :
    initOrder (n - 2 ^ initOrder n) ≤ initOrder n ∧
      (0 < n - 2 ^ initOrder n →
        initOrder (n - 2 ^ initOrder n) < initOrder n ∨ initOrder n = maxOrder - 1) := by
  obtain ⟨small, fits, tight⟩ := initOrder_spec positive
  have double := halves_size (initOrder n)
  by_cases done : n - 2 ^ initOrder n = 0
  · rw [done, initOrder_zero]
    exact ⟨Nat.zero_le _, fun more => absurd more (Nat.lt_irrefl 0)⟩
  · obtain ⟨smallRest, fitsRest, -⟩ := initOrder_spec (Nat.pos_of_ne_zero done)
    by_cases top : initOrder n = maxOrder - 1
    · exact ⟨by omega, fun _ => Or.inr top⟩
    · have below := tight (by omega)
      have less : initOrder (n - 2 ^ initOrder n) < initOrder n := by
        apply (Nat.pow_lt_pow_iff_right (show 1 < 2 by decide)).mp
        omega
      exact ⟨Nat.le_of_lt less, fun _ => Or.inl less⟩

/-- What the greedy loop cuts a range into: it covers the range, its orders decrease below the
top order, and its blocks are aligned if the range is. -/
structure Cuts (base offset n : Nat) (new : List Block) : Prop where
  covers : ∀ index, Extent.Covers (Block.extents new) index ↔
    index ∈ (⟨base + offset, n⟩ : Extent)
  total : Extent.total (Block.extents new) = n
  order : ∀ block ∈ new, block.order ≤ initOrder n
  decreasing : new.Pairwise fun later earlier =>
    later.order < earlier.order ∨ earlier.order = maxOrder - 1
  aligned : 2 ^ (maxOrder - 1) ∣ base → 2 ^ initOrder n ∣ offset → ∀ block ∈ new, block.Aligned

/-! ## Halving a block -/

/-- What is left of a block of order `order + count` after its upper half has been halved down
to `order`, smallest first. -/
def remains (order : Nat) : Nat → Nat → List Block
  | _, 0 => []
  | base, count + 1 => remains order (base + 2 ^ (order + count)) count ++ [⟨order + count, base⟩]

/-- The last of these halves. -/
def lastHalf (order : Nat) : Nat → Nat → Nat
  | base, 0 => base
  | base, count + 1 => lastHalf order (base + 2 ^ (order + count)) count

/-- The first index of the block belongs to the last half or to a block that is left over. -/
theorem lastHalf_or_remains (order base count : Nat) :
    base = lastHalf order base count ∨ ∃ block ∈ remains order base count, block.base = base := by
  cases count with
  | zero => exact Or.inl rfl
  | succ count => exact Or.inr ⟨⟨order + count, base⟩, by simp [remains], rfl⟩

section Halving

variable (order base count : Nat)

theorem mem_halves (index : Nat) : index ∈ (⟨order + count, base⟩ : Block).extent ↔
    index ∈ (⟨order, lastHalf order base count⟩ : Block).extent ∨
      Extent.Covers (Block.extents (remains order base count)) index := by
  induction count generalizing base with
  | zero => simp [lastHalf, remains, Extent.Covers]
  | succ count inductionHypothesis =>
      have upper := inductionHypothesis (base + 2 ^ (order + count))
      have double := halves_size (order + count)
      have whole : index ∈ (⟨order + (count + 1), base⟩ : Block).extent ↔
          index ∈ (⟨order + count, base + 2 ^ (order + count)⟩ : Block).extent ∨
            index ∈ (⟨order + count, base⟩ : Block).extent := by
        simp only [Extent.mem_def, Block.extent, ← Nat.add_assoc, double]
        omega
      rw [whole, upper, remains, Block.extents_append, Extent.covers_append, or_assoc]
      rw [show lastHalf order base (count + 1) =
        lastHalf order (base + 2 ^ (order + count)) count from rfl]
      simp [Extent.Covers]

theorem total_remains : Extent.total (Block.extents (remains order base count)) + 2 ^ order =
    2 ^ (order + count) := by
  induction count generalizing base with
  | zero => simp [remains]
  | succ count inductionHypothesis =>
      have upper := inductionHypothesis (base + 2 ^ (order + count))
      have double := halves_size (order + count)
      rw [remains, Block.extents_append, Extent.total_append, Block.extents_cons,
        Extent.total_cons]
      show _ + (2 ^ (order + count) + 0) + 2 ^ order = 2 ^ (order + count + 1)
      omega

/-- A block that is left over has the last half in the block above it. -/
theorem remains_below {block : Block} (member : block ∈ remains order base count) :
    order ≤ block.order ∧ block.order < order + count ∧
      block.base + 2 ^ block.order ≤ lastHalf order base count ∧
      lastHalf order base count + 2 ^ order ≤
        block.base + 2 ^ block.order + 2 ^ block.order := by
  induction count generalizing base with
  | zero => simp [remains] at member
  | succ count inductionHypothesis =>
      rw [remains, List.mem_append, List.mem_singleton] at member
      rcases member with later | rfl
      · have upper := inductionHypothesis (base + 2 ^ (order + count)) later
        exact ⟨upper.1, Nat.lt_succ_of_lt upper.2.1, upper.2.2⟩
      · have inside : ∀ index ∈
            (⟨order, lastHalf order (base + 2 ^ (order + count)) count⟩ : Block).extent,
            index ∈ (⟨order + count, base + 2 ^ (order + count)⟩ : Block).extent := by
          intro index inLast
          exact (mem_halves order _ count index).mpr (Or.inl inLast)
        have size := Nat.two_pow_pos order
        have first := inside _ (Block.base_mem_extent _)
        have last := inside (lastHalf order (base + 2 ^ (order + count)) count + 2 ^ order - 1) (by
          simp only [Extent.mem_def, Block.extent]
          omega)
        simp only [Extent.mem_def, Block.extent] at first last
        refine ⟨Nat.le_add_right _ _, Nat.lt_succ_self _, first.1, ?_⟩
        show lastHalf order (base + 2 ^ (order + count)) count + 2 ^ order ≤ _
        dsimp only
        omega

theorem remains_aligned (aligned : 2 ^ (order + count) ∣ base) :
    2 ^ order ∣ lastHalf order base count ∧
      ∀ block ∈ remains order base count, 2 ^ (block.order + 1) ∣ block.base := by
  induction count generalizing base with
  | zero => exact ⟨aligned, by simp [remains]⟩
  | succ count inductionHypothesis =>
      have half : 2 ^ (order + count) ∣ base + 2 ^ (order + count) :=
        Nat.dvd_add (Nat.dvd_trans (Nat.pow_dvd_pow 2 (Nat.le_succ _)) aligned) (Nat.dvd_refl _)
      obtain ⟨last, upper⟩ := inductionHypothesis _ half
      refine ⟨last, fun block member => ?_⟩
      rw [remains, List.mem_append, List.mem_singleton] at member
      rcases member with later | rfl
      · exact upper block later
      · exact aligned

end Halving

/-! ## Adding and removing -/

namespace BuddyLists

variable {pmm : Pmm Nat} {blocks left right : List Block} {block : Block}

theorem congr {other : Pmm Nat} (lists : BuddyLists pmm blocks) (links : other.links = pmm.links)
    (nrFree : other.nrFree = pmm.nrFree)
    (property : ∀ block ∈ blocks, other.property block.base = pmm.property block.base) :
    BuddyLists other blocks where
  ring order small := links ▸ lists.ring order small
  nrFree order small := nrFree ▸ lists.nrFree order small
  small := lists.small
  property block member := (property block member).trans (lists.property block member)
  apart := lists.apart
  bounded := lists.bounded

/-- Blocks with the same base are the same block. -/
theorem eq_of_base (lists : BuddyLists pmm blocks) {first second : Block}
    (firstMember : first ∈ blocks) (secondMember : second ∈ blocks)
    (same : first.base = second.base) : first = second := by
  apply Block.eq_of_meet lists.apart firstMember secondMember first.base_mem_extent
  rw [same]
  exact second.base_mem_extent

/-- The free lists of two orders have no entry in common. -/
theorem ring_apart (lists : BuddyLists pmm blocks) {order other : Nat} (different : order ≠ other)
    {entry : ListEntry Nat} (member : entry ∈ .freeList order :: orderEntries blocks order) :
    entry ∉ .freeList other :: orderEntries blocks other := by
  intro otherMember
  cases entry with
  | freeList area =>
      rcases List.mem_cons.mp member with atHead | inList
      · rcases List.mem_cons.mp otherMember with atOther | inOther
        · rw [ListEntry.freeList.injEq] at atHead atOther
          exact different (atHead.symm.trans atOther)
        · exact freeList_notMem_orderEntries blocks other area inOther
      · exact freeList_notMem_orderEntries blocks order area inList
  | pageLink page =>
      simp only [List.mem_cons, reduceCtorEq, false_or, pageLink_mem_orderEntries]
        at member otherMember
      have same := lists.eq_of_base member otherMember rfl
      exact different (congrArg Block.order same)

theorem fresh_entry (fresh : ∀ other ∈ blocks, Extent.Disjoint block.extent other.extent)
    (order : Nat) : .pageLink block.base ∉ .freeList order :: orderEntries blocks order := by
  simp only [List.mem_cons, reduceCtorEq, false_or, pageLink_mem_orderEntries]
  intro member
  exact (fresh _ member).notMem block.base_mem_extent (Block.base_mem_extent ⟨order, block.base⟩)

/-- `list_add` of a fresh block to the free list of its order. -/
theorem addPage (lists : BuddyLists pmm blocks) (small : block.order < maxOrder)
    (sized : pmm.property block.base = 2 ^ block.order)
    (fresh : ∀ other ∈ blocks, Extent.Disjoint block.extent other.extent)
    (bounded : 2 ^ block.order + Extent.total (Block.extents blocks) < 2 ^ 32) :
    BuddyLists (Mm.addPage pmm block.order block.base) (block :: blocks) where
  ring order below := by
    have ring := lists.ring order below
    show IsRing (listAdd pmm.links (.freeList block.order) (.pageLink block.base)) _ _
    by_cases same : block.order = order
    · subst same
      rw [orderEntries_cons_same]
      exact @listAdd_isRing _ _ _ _ _ [] _ ring (fresh_entry fresh block.order)
    · rw [orderEntries_cons_other blocks same]
      have own := lists.ring block.order small
      rw [listAdd, listAddAfter]
      apply __listAdd_frame ring (fresh_entry fresh order)
      · exact lists.ring_apart same List.mem_cons_self
      · rw [own.next_head]
        exact lists.ring_apart same (headD_mem _ _)
  nrFree order below := by
    show Function.update pmm.nrFree block.order _ order = _
    by_cases same : block.order = order
    · subst same
      have count := lists.nrFree block.order small
      have few := length_orderEntries_le blocks block.order
      have size := Nat.two_pow_pos block.order
      rw [Function.update_self, orderEntries_cons_same, List.length_cons, count]
      exact u32_of_lt (by omega)
    · rw [Function.update_of_ne (fun equal => same equal.symm), orderEntries_cons_other blocks same]
      exact lists.nrFree order below
  small other member := by
    rcases List.mem_cons.mp member with rfl | older
    · exact small
    · exact lists.small other older
  property other member := by
    rcases List.mem_cons.mp member with rfl | older
    · exact sized
    · exact lists.property other older
  apart := by
    rw [Block.extents_cons, List.pairwise_cons]
    refine ⟨fun extent member => ?_, lists.apart⟩
    obtain ⟨other, older, rfl⟩ := List.mem_map.mp member
    exact fresh other older
  bounded := bounded

/-- `list_del` of a listed block. -/
theorem removePage (lists : BuddyLists pmm (left ++ block :: right)) :
    BuddyLists (Mm.removePage pmm block.order block.base) (left ++ right) where
  ring order below := by
    have ring := lists.ring order below
    have small := lists.small block (by simp)
    show IsRing (listDel pmm.links (.pageLink block.base)) _ _
    by_cases same : block.order = order
    · subst same
      rw [orderEntries_append, orderEntries_cons_same] at ring
      rw [orderEntries_append]
      exact listDel_isRing ring
    · have own := lists.ring block.order small
      have apart : ∀ entry ∈ .freeList block.order ::
          orderEntries (left ++ block :: right) block.order,
          entry ∉ .freeList order :: orderEntries (left ++ block :: right) order :=
        fun _ => lists.ring_apart same
      rw [orderEntries_append, orderEntries_cons_other right same, ← orderEntries_append] at ring
      rw [orderEntries_append _ _ order, orderEntries_cons_other right same,
        ← orderEntries_append, orderEntries_append _ _ block.order,
        orderEntries_cons_same] at apart
      rw [orderEntries_append, orderEntries_cons_same] at own
      rw [listDel, own.next_item, own.prev_item]
      apply __listDel_frame ring
      · apply apart
        have member := getLastD_mem (.freeList block.order) (orderEntries left block.order)
        rw [← List.cons_append]
        exact List.mem_append_left _ member
      · apply apart
        rcases List.mem_cons.mp (headD_mem (orderEntries right block.order)
          (.freeList block.order)) with atHead | inList
        · rw [atHead]
          exact List.mem_cons_self
        · exact List.mem_cons_of_mem _ (List.mem_append_right _ (List.mem_cons_of_mem _ inList))
  nrFree order below := by
    show Function.update pmm.nrFree block.order _ order = _
    by_cases same : block.order = order
    · subst same
      have count := lists.nrFree block.order below
      have few := length_orderEntries_le (left ++ block :: right) block.order
      have bounded := lists.bounded
      have split : (orderEntries (left ++ block :: right) block.order).length =
          (orderEntries (left ++ right) block.order).length + 1 := by
        simp only [orderEntries_append, orderEntries_cons_same, List.length_append,
          List.length_cons, Nat.add_assoc]
      rw [Function.update_self, count, split]
      exact pred32_succ (by omega)
    · rw [Function.update_of_ne (fun equal => same equal.symm), lists.nrFree order below,
        orderEntries_append, orderEntries_cons_other right same, ← orderEntries_append]
  small other member := by
    rcases List.mem_append.mp member with inLeft | inRight
    · exact lists.small other (List.mem_append_left _ inLeft)
    · exact lists.small other (List.mem_append_right _ (List.mem_cons_of_mem _ inRight))
  property other member := by
    rcases List.mem_append.mp member with inLeft | inRight
    · exact lists.property other (List.mem_append_left _ inLeft)
    · exact lists.property other (List.mem_append_right _ (List.mem_cons_of_mem _ inRight))
  apart := by
    have shorter : List.Sublist (left ++ right) (left ++ block :: right) :=
      List.Sublist.append_left (List.sublist_cons_self block right) left
    exact List.Pairwise.sublist (shorter.map Block.extent) lists.apart
  bounded := by
    have bounded := lists.bounded
    simp only [Block.extents_append, Block.extents_cons, Extent.total_append,
      Extent.total_cons] at bounded ⊢
    omega

/-! ## Splitting -/

theorem splitBlock_eq (pmm : Pmm Nat) (order page : Nat) :
    splitBlock pmm (order + 1) page =
      let size := 1 <<< order
      let marked := ((((Mm.removePage pmm (order + 1) page).setProperty page size).setProperty
        (page + size) size).setPageProperty page).setPageProperty (page + size)
      Mm.addPage (Mm.addPage marked order page) order (page + size) := by
  have twice : ∀ count, u32 (count + 2) = u32 (u32 (count + 1) + 1) := by
    intro count
    unfold u32
    omega
  unfold splitBlock Mm.addPage Mm.removePage
  simp only [Nat.add_sub_cancel, Pmm.setLinks, Pmm.setNrFree, Pmm.setPageProperty,
    Pmm.setProperty, Pmm.modifyPage, Function.update_self, Function.update_idem, twice]

theorem splitBlock_pageProperty (pmm : Pmm Nat) (order page other : Nat) :
    (splitBlock pmm (order + 1) page).pageProperty other =
      if other = page ∨ other = page + 2 ^ order then true else pmm.pageProperty other := by
  rw [splitBlock_eq]
  simp only [addPage_pageProperty, Pmm.setPageProperty_pageProperty,
    Pmm.setProperty_pageProperty, removePage_pageProperty, Nat.one_shiftLeft]
  split_ifs <;> grind

@[simp] theorem splitBlock_pageReserved (pmm : Pmm Nat) (order page other : Nat) :
    (splitBlock pmm (order + 1) page).pageReserved other = pmm.pageReserved other := by
  rw [splitBlock_eq]
  simp

/-- A listed block becomes its two halves, the upper one in front. -/
theorem splitBlock {order base : Nat}
    (lists : BuddyLists pmm (left ++ ⟨order + 1, base⟩ :: right)) :
    BuddyLists (Mm.splitBlock pmm (order + 1) base)
      (⟨order, base + 2 ^ order⟩ :: ⟨order, base⟩ :: (left ++ right)) := by
  have small : order + 1 < maxOrder := lists.small ⟨order + 1, base⟩ (by simp)
  have below : order < maxOrder := Nat.lt_of_succ_lt small
  have removed : BuddyLists (Mm.removePage pmm (order + 1) base) (left ++ right) :=
    lists.removePage
  have double := halves_size order
  have size := Nat.two_pow_pos order
  have bounded := lists.bounded
  have away : ∀ other ∈ left ++ right,
      Extent.Disjoint (Block.extent ⟨order + 1, base⟩) other.extent := by
    have apart := lists.apart
    rw [Block.extents, (List.perm_middle.map Block.extent).pairwise_iff
      (fun disjoint => Extent.Disjoint.symm disjoint), List.map_cons, List.pairwise_cons] at apart
    exact fun other member => apart.1 other.extent (List.mem_map_of_mem member)
  have total : Extent.total (Block.extents (left ++ ⟨order + 1, base⟩ :: right)) =
      2 ^ (order + 1) + Extent.total (Block.extents (left ++ right)) := by
    simp only [Block.extents_append, Block.extents_cons, Extent.total_append,
      Extent.total_cons, Block.extent]
    omega
  rw [splitBlock_eq]
  dsimp only
  rw [Nat.one_shiftLeft]
  have sized : u32 (2 ^ order) = 2 ^ order := u32_size below
  have kept : BuddyLists (((((Mm.removePage pmm (order + 1) base).setProperty base
      (2 ^ order)).setProperty (base + 2 ^ order) (2 ^ order)).setPageProperty
      base).setPageProperty (base + 2 ^ order)) (left ++ right) := by
    refine removed.congr rfl rfl fun other member => ?_
    have disjoint := away other member
    have otherSize := other.extent_positive
    simp only [Extent.Disjoint, Block.extent] at disjoint otherSize
    simp only [Pmm.setPageProperty_property, Pmm.setProperty_property]
    rw [if_neg (by omega), if_neg (by omega)]
  have lower := @addPage _ _ ⟨order, base⟩ kept below (by
      simp only [Pmm.setPageProperty_property, Pmm.setProperty_property]
      split_ifs <;> exact sized)
    (fun other member => (away other member).within (Nat.le_refl _) (by
      simp only [Block.extent]
      omega))
    (by
      dsimp only
      omega)
  refine @addPage _ _ ⟨order, base + 2 ^ order⟩ lower below ?_ ?_ ?_
  · simp only [addPage_property, Pmm.setPageProperty_property, Pmm.setProperty_property]
    exact sized
  · intro other member
    rcases List.mem_cons.mp member with rfl | older
    · exact Or.inr (Nat.le_refl _)
    · refine (away other older).within ?_ ?_
      · exact Nat.le_add_right _ _
      · simp only [Block.extent]
        omega
  · simp only [Block.extents_cons, Extent.total_cons, Block.extent] at total bounded ⊢
    omega

/-- The free list of an order starts with the first block of that order. -/
theorem listNext_first {order base : Nat}
    (lists : BuddyLists pmm (left ++ ⟨order, base⟩ :: right))
    (first : ∀ block ∈ left, block.order ≠ order) :
    listNext pmm.links (.freeList order) = .pageLink base := by
  have ring := lists.ring order (lists.small ⟨order, base⟩ (by simp))
  have none := orderEntries_eq_nil.mpr first
  rw [orderEntries_append, none, List.nil_append] at ring
  have cons := orderEntries_cons_same ⟨order, base⟩ right
  dsimp only at cons
  rw [cons] at ring
  exact ring.next_head

theorem splitPage {order base : Nat}
    (lists : BuddyLists pmm (left ++ ⟨order + 1, base⟩ :: right))
    (first : ∀ block ∈ left, block.order ≠ order + 1) (fuel : Nat) :
    Mm.splitPage (fuel + 1) pmm (order + 1) = .ok (Mm.splitBlock pmm (order + 1) base) := by
  have small : order + 1 < maxOrder := lists.small ⟨order + 1, base⟩ (by simp)
  have next := lists.listNext_first first
  have nonempty : listEmpty pmm.links (.freeList (order + 1)) = false := by
    rw [listEmpty, decide_eq_false_iff_not]
    intro empty
    rw [listNext, empty] at next
    cases next
  rw [Mm.splitPage, if_pos ⟨Nat.succ_pos order, small⟩, nonempty]
  simp only [Bool.false_eq_true, if_false, bind, Except.bind, pure, Except.pure, next, nonempty]

/-- The loop that splits down leaves the last half at the front of the free list of `order`. -/
theorem splitDown {order base count : Nat}
    (lists : BuddyLists pmm (left ++ ⟨order + count, base⟩ :: right))
    (first : ∀ block ∈ left, block.order ≠ order + count) :
    ∃ result front back,
      (∀ fuel, 0 < fuel → Mm.splitDown fuel order count pmm = .ok result) ∧
      BuddyLists result (front ++ ⟨order, lastHalf order base count⟩ :: back) ∧
      (∀ block ∈ front, block.order ≠ order) ∧
      (front ++ back).Perm (remains order base count ++ (left ++ right)) ∧
      (∀ page, result.pageReserved page = pmm.pageReserved page) ∧
      ∀ page, page ≠ lastHalf order base count →
        (result.pageProperty page = true ↔
          (∃ block ∈ remains order base count, block.base = page) ∨
            pmm.pageProperty page = true) := by
  induction count generalizing pmm base left right with
  | zero =>
      refine ⟨pmm, left, right, fun _ _ => rfl, lists, first, List.Perm.refl _, fun _ => rfl, ?_⟩
      intro page _
      simp [remains]
  | succ count inductionHypothesis =>
      have split := lists.splitBlock
      obtain ⟨result, front, back, run, listed, above, moved, reserved, flagged⟩ :=
        @inductionHypothesis _ [] (⟨order + count, base⟩ :: (left ++ right)) _ split (by simp)
      refine ⟨result, front, back, fun fuel positive => ?_, listed, above, ?_, ?_, ?_⟩
      · obtain ⟨fuel, rfl⟩ : ∃ smaller, fuel = smaller + 1 := ⟨fuel - 1, by omega⟩
        have step : Mm.splitPage (fuel + 1) pmm (order + count + 1) =
            .ok (Mm.splitBlock pmm (order + count + 1) base) := lists.splitPage first fuel
        rw [Mm.splitDown, step]
        exact run (fuel + 1) positive
      · rw [remains, List.append_assoc]
        exact moved
      · intro page
        rw [reserved page]
        exact splitBlock_pageReserved ..
      · intro page different
        have upper := lastHalf_or_remains order (base + 2 ^ (order + count)) count
        have different' : page ≠ lastHalf order (base + 2 ^ (order + count)) count := different
        rw [flagged page different, splitBlock_pageProperty]
        simp only [remains, List.mem_append, List.mem_singleton]
        constructor
        · rintro (⟨block, member, rfl⟩ | marked)
          · exact Or.inl ⟨block, Or.inl member, rfl⟩
          · split_ifs at marked with half
            · rcases half with rfl | rfl
              · exact Or.inl ⟨_, Or.inr rfl, rfl⟩
              · obtain ⟨block, member, same⟩ := upper.resolve_left different'
                exact Or.inl ⟨block, Or.inl member, same⟩
            · exact Or.inr marked
        · rintro (⟨block, member | rfl, rfl⟩ | marked)
          · exact Or.inl ⟨block, member, rfl⟩
          · exact Or.inr (if_pos (Or.inl rfl))
          · right
            split_ifs with half
            · rfl
            · exact marked

/-! ## Allocation -/

/-- The search over the orders ends at the first block of the least order that has one. -/
theorem currentOrder_spec (lists : BuddyLists pmm blocks) {order : Nat} (small : order < maxOrder)
    (found : currentOrder pmm order ≠ maxOrder) :
    ∃ count left base right, currentOrder pmm order = order + count ∧
      blocks = left ++ ⟨order + count, base⟩ :: right ∧
      ∀ block ∈ left, block.order ≠ order + count := by
  obtain ⟨steps, few, value, -, stopped⟩ := raiseOrder_spec
    (fun current => listEmpty pmm.links (.freeList current)) order (maxOrder - order)
  have value' : currentOrder pmm order = order + steps := value
  have below : order + steps < maxOrder := by omega
  have nonempty := stopped (by omega)
  have present : ∃ block ∈ blocks, block.order = order + steps := by
    by_contra none
    have empty : orderEntries blocks (order + steps) = [] :=
      orderEntries_eq_nil.mpr fun block member same => none ⟨block, member, same⟩
    have := (listEmpty_iff (lists.ring (order + steps) below)).mpr empty
    rw [this] at nonempty
    cases nonempty
  obtain ⟨left, base, right, split, first⟩ := exists_first_of_order present
  exact ⟨steps, left, base, right, value', split, first⟩

/-- Either no block is handed out and nothing changes, or a listed block is halved down to the
order of the request and its last half handed out. -/
theorem allocPages (lists : BuddyLists pmm blocks) {n : Nat} (positive : 0 < n) :
    Returns (fun fuel => buddySystemAllocPages fuel pmm n) (none, pmm) ∨
    ∃ left right base count result blocks',
      blocks = left ++ ⟨allocOrder n + count, base⟩ :: right ∧
      Returns (fun fuel => buddySystemAllocPages fuel pmm n)
        (some (lastHalf (allocOrder n) base count), result) ∧
      BuddyLists result blocks' ∧
      blocks'.Perm (remains (allocOrder n) base count ++ (left ++ right)) ∧
      (∀ page, result.pageReserved page = pmm.pageReserved page) ∧
      ∀ page, result.pageProperty page = true ↔
        page ≠ lastHalf (allocOrder n) base count ∧
          ((∃ block ∈ remains (allocOrder n) base count, block.base = page) ∨
            pmm.pageProperty page = true) := by
  by_cases large : 1 <<< (maxOrder - 1) < n
  · left
    refine ⟨0, fun fuel _ => ?_⟩
    show buddySystemAllocPages fuel pmm n = _
    rw [buddySystemAllocPages, if_neg (by omega), if_pos large]
  have fits : n ≤ 2 ^ (maxOrder - 1) := by
    rw [Nat.one_shiftLeft] at large
    omega
  obtain ⟨small, -, -⟩ := allocOrder_spec fits
  by_cases exhausted : currentOrder pmm (allocOrder n) = maxOrder
  · left
    refine ⟨0, fun fuel _ => ?_⟩
    show buddySystemAllocPages fuel pmm n = _
    rw [buddySystemAllocPages, if_neg (by omega), if_neg large]
    dsimp only
    rw [if_neg (by omega), if_pos exhausted]
  right
  obtain ⟨count, left, base, right, current, rfl, first⟩ :=
    lists.currentOrder_spec small exhausted
  obtain ⟨halved, front, back, run, listed, above, moved, reserved, flagged⟩ :=
    lists.splitDown first
  have next := listed.listNext_first above
  have removed : BuddyLists (Mm.removePage halved (allocOrder n) (lastHalf (allocOrder n) base count))
      (front ++ back) := listed.removePage
  have cleared := @congr _ _ ((Mm.removePage halved (allocOrder n)
    (lastHalf (allocOrder n) base count)).clearPageProperty (lastHalf (allocOrder n) base count))
    removed rfl rfl fun block _ => Pmm.clearPageProperty_property ..
  refine ⟨left, right, base, count, _, front ++ back, rfl, ⟨1, fun fuel enough => ?_⟩, cleared,
    moved, ?_, ?_⟩
  · show buddySystemAllocPages fuel pmm n = _
    rw [buddySystemAllocPages, if_neg (by omega), if_neg large]
    dsimp only
    rw [if_neg (by omega), if_neg exhausted, current, Nat.add_sub_cancel_left, run fuel enough]
    simp only [bind, Except.bind, next]
    rfl
  · intro page
    rw [Pmm.clearPageProperty_pageReserved, removePage_pageReserved, reserved page]
  · intro page
    rw [Pmm.clearPageProperty_pageProperty, removePage_pageProperty]
    by_cases same : page = lastHalf (allocOrder n) base count
    · simp [same]
    · rw [if_neg same, flagged page same]
      simp [same]

/-! ## Initialisation -/

theorem initBlocks {base offset n fuel : Nat} (lists : BuddyLists pmm blocks)
    (enough : n < fuel)
    (fresh : ∀ other ∈ blocks, Extent.Disjoint ⟨base + offset, n⟩ other.extent)
    (bounded : n + Extent.total (Block.extents blocks) < 2 ^ 32) :
    ∃ new result, Mm.initBlocks base fuel pmm offset n = .ok result ∧
      BuddyLists result (new ++ blocks) ∧ Cuts base offset n new ∧
      (∀ page, result.pageReserved page = pmm.pageReserved page) ∧
      ∀ page, result.pageProperty page = true ↔
        (∃ block ∈ new, block.base = page) ∨ pmm.pageProperty page = true := by
  induction fuel generalizing pmm blocks offset n with
  | zero => omega
  | succ fuel inductionHypothesis =>
      unfold Mm.initBlocks
      by_cases positive : 0 < n
      · rw [if_pos positive]
        dsimp only
        rw [Nat.one_shiftLeft]
        obtain ⟨small, fits, tight⟩ := initOrder_spec positive
        obtain ⟨smaller, decreases⟩ := initOrder_rest positive
        have size := Nat.two_pow_pos (initOrder n)
        have sized := u32_size small
        have marked : BuddyLists (markPage pmm (base + offset) (2 ^ initOrder n)) blocks := by
          refine lists.congr rfl rfl fun other member => ?_
          have disjoint := fresh other member
          have otherSize := other.extent_positive
          simp only [Extent.Disjoint, Block.extent] at disjoint otherSize
          rw [markPage_property, if_neg (by omega)]
        have added := @addPage _ _ ⟨initOrder n, base + offset⟩ marked small
          (by rw [markPage_property, if_pos rfl, sized])
          (fun other member => (fresh other member).within (Nat.le_refl _)
            (Nat.add_le_add_left fits _))
          (by dsimp only; omega)
        obtain ⟨new, result, run, listed, cuts, reserved, flagged⟩ :=
          @inductionHypothesis _ _ (offset + 2 ^ initOrder n) (n - 2 ^ initOrder n) added
            (by omega)
            (fun other member => by
              rcases List.mem_cons.mp member with rfl | older
              · right
                simp only [Block.extent]
                omega
              · refine (fresh other older).within ?_ ?_
                · dsimp only
                  omega
                · dsimp only
                  omega)
            (by
              simp only [Block.extents_cons, Extent.total_cons, Block.extent]
              omega)
        refine ⟨new ++ [⟨initOrder n, base + offset⟩], result, run, ?_, ⟨?_, ?_, ?_, ?_, ?_⟩, ?_, ?_⟩
        · rw [List.append_assoc]
          exact listed
        · intro index
          rw [Block.extents_append, Extent.covers_append, cuts.covers, Block.extents_cons,
            Extent.covers_cons]
          simp only [Extent.mem_def, Extent.Covers, Block.extents_nil, List.not_mem_nil, false_and,
            exists_false, or_false, Block.extent]
          omega
        · rw [Block.extents_append, Extent.total_append, cuts.total, Block.extents_cons,
            Extent.total_cons]
          show n - 2 ^ initOrder n + (2 ^ initOrder n + 0) = n
          omega
        · intro block member
          rcases List.mem_append.mp member with later | last
          · exact Nat.le_trans (cuts.order block later) smaller
          · rw [List.mem_singleton.mp last]
        · rw [List.pairwise_append]
          refine ⟨cuts.decreasing, List.pairwise_singleton _ _, ?_⟩
          intro block later last lastMember
          rw [List.mem_singleton.mp lastMember]
          have rest : 0 < n - 2 ^ initOrder n := by
            have inside := (cuts.covers block.base).mp
              (Block.covers_extents.mpr ⟨block, later, block.base_mem_extent⟩)
            simp only [Extent.mem_def] at inside
            omega
          rcases decreases rest with less | top
          · exact Or.inl (Nat.lt_of_le_of_lt (cuts.order block later) less)
          · exact Or.inr top
        · intro baseAligned offsetAligned block member
          rcases List.mem_append.mp member with later | last
          · refine cuts.aligned baseAligned ?_ block later
            have here := Nat.dvd_add offsetAligned (Nat.dvd_refl (2 ^ initOrder n))
            exact Nat.dvd_trans (Nat.pow_dvd_pow 2 smaller) here
          · rw [List.mem_singleton.mp last]
            refine Nat.dvd_add (Nat.dvd_trans (Nat.pow_dvd_pow 2 ?_) baseAligned) offsetAligned
            exact Nat.le_sub_one_of_lt small
        · intro page
          rw [reserved page, addPage_pageReserved, markPage_pageReserved]
        · intro page
          rw [flagged page, addPage_pageProperty, markPage_pageProperty]
          simp only [List.mem_append, List.mem_singleton]
          split_ifs with same
          · subst same
            exact ⟨fun _ => Or.inl ⟨_, Or.inr rfl, rfl⟩, fun _ => Or.inr rfl⟩
          · constructor
            · rintro (⟨block, member, rfl⟩ | older)
              · exact Or.inl ⟨block, Or.inl member, rfl⟩
              · exact Or.inr older
            · rintro (⟨block, member | rfl, rfl⟩ | older)
              · exact Or.inl ⟨block, member, rfl⟩
              · exact absurd rfl same
              · exact Or.inr older
      · have zero : n = 0 := by omega
        subst zero
        refine ⟨[], pmm, rfl, lists, ⟨?_, rfl, by simp, List.Pairwise.nil, by simp⟩,
          fun _ => rfl, by simp⟩
        intro index
        simp only [Extent.Covers, Block.extents_nil, List.not_mem_nil, false_and, exists_false,
          Extent.mem_def, false_iff]
        omega

/-! ## The free count -/

theorem total_below_succ (blocks : List Block) (bound : Nat) :
    Extent.total (Block.extents (blocks.filter fun block => block.order < bound + 1)) =
      Extent.total (Block.extents (blocks.filter fun block => block.order < bound)) +
        (orderEntries blocks bound).length * 2 ^ bound := by
  induction blocks with
  | nil => simp [orderEntries]
  | cons block rest inductionHypothesis =>
      rcases Nat.lt_trichotomy block.order bound with below | same | above
      · rw [List.filter_cons_of_pos (by simp; omega), List.filter_cons_of_pos (by simp; omega),
          orderEntries_cons_other rest (by omega), Block.extents_cons, Block.extents_cons,
          Extent.total_cons, Extent.total_cons, inductionHypothesis, Nat.add_assoc]
      · subst same
        rw [List.filter_cons_of_pos (by simp), List.filter_cons_of_neg (by simp),
          orderEntries_cons_same, Block.extents_cons, Extent.total_cons, inductionHypothesis,
          List.length_cons, Nat.succ_mul]
        show 2 ^ block.order + _ = _
        omega
      · rw [List.filter_cons_of_neg (by simp; omega), List.filter_cons_of_neg (by simp; omega),
          orderEntries_cons_other rest (by omega)]
        exact inductionHypothesis

/-- `buddy_system_nr_free_pages` is the total size of the listed blocks. -/
theorem nrFreePages (lists : BuddyLists pmm blocks) :
    buddySystemNrFreePages pmm = Extent.total (Block.extents blocks) := by
  have upTo : ∀ bound ≤ maxOrder,
      (List.range bound).foldl (fun num order => num + u32 (pmm.nrFree order * 1 <<< order)) 0 =
        Extent.total (Block.extents (blocks.filter fun block => block.order < bound)) := by
    intro bound below
    induction bound with
    | zero => simp
    | succ bound inductionHypothesis =>
        have next := total_below_succ blocks bound
        have all : Extent.total (Block.extents
            (blocks.filter fun block => block.order < bound + 1)) ≤
              Extent.total (Block.extents blocks) := by
          exact Extent.total_le_of_sublist (List.filter_sublist.map Block.extent)
        have bounded := lists.bounded
        rw [List.range_succ, List.foldl_append, inductionHypothesis (by omega), List.foldl_cons,
          List.foldl_nil, lists.nrFree bound (by omega), Nat.one_shiftLeft,
          u32_of_lt (by omega), next]
  have whole := upTo maxOrder (Nat.le_refl _)
  rw [List.filter_eq_self.mpr fun block member => by simpa using lists.small block member] at whole
  exact whole

end BuddyLists

end UCore.Mm
