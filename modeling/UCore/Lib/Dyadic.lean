import Mathlib.Data.Nat.Bitwise
import UCore.Lib.Extent

/-!
Contract: blocks whose size is a power of two.

Owns:
- `Block`, a block of `2 ^ order` indices, its alignment and its buddy;
- the nesting of aligned blocks: two that meet lie one within the other;
- `Coalesced`, a list of disjoint aligned blocks without two buddies, and the theorem that the
  set it covers determines it.

Does not own: how blocks are split and merged.
-/

set_option autoImplicit false

namespace UCore.Lib

/-- The block of `2 ^ order` indices from `base` on. -/
structure Block where
  order : Nat
  base : Nat
deriving DecidableEq, Repr

theorem xor_two_pow (value order : Nat) : value ^^^ 2 ^ order =
    if value / 2 ^ order % 2 = 0 then value + 2 ^ order else value - 2 ^ order := by
  induction order generalizing value with
  | zero =>
      have half : (value ^^^ 1) / 2 = value / 2 := by
        rw [Nat.xor_div_two]
        exact Nat.xor_zero _
      have parity : (value ^^^ 1) % 2 = (value + 1) % 2 := Nat.xor_mod_two_eq
      rw [Nat.pow_zero, Nat.div_one]
      split_ifs <;> omega
  | succ order inductionHypothesis =>
      have half : (value ^^^ 2 ^ (order + 1)) / 2 = value / 2 ^^^ 2 ^ order := by
        rw [Nat.xor_div_two, Nat.pow_succ, Nat.mul_div_cancel _ (by decide)]
      have parity : (value ^^^ 2 ^ (order + 1)) % 2 = value % 2 := by
        rw [Nat.xor_mod_two_eq, Nat.pow_succ]
        omega
      rw [inductionHypothesis, Nat.div_div_eq_div_mul, Nat.mul_comm 2, ← Nat.pow_succ] at half
      have double : 2 ^ (order + 1) = 2 * 2 ^ order := by rw [Nat.pow_succ, Nat.mul_comm]
      have above : value / 2 ^ (order + 1) % 2 ≠ 0 → 2 ^ (order + 1) ≤ value := by
        intro odd
        by_contra small
        rw [Nat.div_eq_of_lt (by omega)] at odd
        exact odd rfl
      split_ifs at half ⊢ with even
      · omega
      · have := above even
        omega

namespace Block

/-- The indices of the block. -/
def extent (block : Block) : Extent := ⟨block.base, 2 ^ block.order⟩

def Aligned (block : Block) : Prop := 2 ^ block.order ∣ block.base

/-- The block of the same order whose base differs exactly in the bit of the block size. -/
def buddy (block : Block) : Block := ⟨block.order, block.base ^^^ 2 ^ block.order⟩

/-- The block and its buddy together. -/
def parent (block : Block) : Block := ⟨block.order + 1, min block.base block.buddy.base⟩

theorem extent_positive (block : Block) : 0 < block.extent.size := Nat.two_pow_pos _

theorem base_mem_extent (block : Block) : block.base ∈ block.extent :=
  Extent.base_mem block.extent_positive

theorem ext_extent {left right : Block} (same : left.extent = right.extent) : left = right := by
  obtain ⟨order, base⟩ := left
  obtain ⟨order', base'⟩ := right
  obtain ⟨sameBase, sameSize⟩ := Extent.mk.inj same
  have sameOrder : order = order' := Nat.pow_right_injective (Nat.le_refl 2) sameSize
  rw [sameOrder, show base = base' from sameBase]

theorem buddy_base_cases (block : Block) :
    block.buddy.base = block.base + 2 ^ block.order ∨
      block.base = block.buddy.base + 2 ^ block.order := by
  have value := xor_two_pow block.base block.order
  have size := Nat.two_pow_pos block.order
  show block.base ^^^ 2 ^ block.order = _ ∨ block.base = (block.base ^^^ 2 ^ block.order) + _
  split_ifs at value with even
  · exact Or.inl value
  · right
    have above : 2 ^ block.order ≤ block.base := by
      by_contra small
      rw [Nat.div_eq_of_lt (by omega)] at even
      exact even rfl
    omega

theorem buddy_buddy (block : Block) : block.buddy.buddy = block := by
  have twice : block.base ^^^ 2 ^ block.order ^^^ 2 ^ block.order = block.base := by
    rw [Nat.xor_assoc, Nat.xor_self, Nat.xor_zero]
  exact congrArg (Block.mk block.order) twice

theorem buddy_disjoint (block : Block) : Extent.Disjoint block.extent block.buddy.extent := by
  unfold Extent.Disjoint
  show block.base + 2 ^ block.order ≤ block.buddy.base ∨
    block.buddy.base + 2 ^ block.order ≤ block.base
  rcases block.buddy_base_cases with above | below <;> omega

theorem parent_extent (block : Block) : block.parent.extent =
    ⟨min block.base block.buddy.base, 2 ^ block.order + 2 ^ block.order⟩ := by
  show (⟨_, 2 ^ (block.order + 1)⟩ : Extent) = _
  rw [Nat.pow_succ, Nat.mul_two]
  rfl

/-- The parent consists of the block and its buddy. -/
theorem mem_parent {block : Block} {index : Nat} :
    index ∈ block.parent.extent ↔ index ∈ block.extent ∨ index ∈ block.buddy.extent := by
  rw [parent_extent]
  simp only [Extent.mem_def]
  show _ ↔ block.base ≤ index ∧ index < block.base + 2 ^ block.order ∨
    block.buddy.base ≤ index ∧ index < block.buddy.base + 2 ^ block.order
  rcases block.buddy_base_cases with above | below <;> omega

/-- The buddy of an aligned block lies above it exactly when the block starts its parent. -/
theorem buddy_base_of_dvd {block : Block} (start : 2 ^ (block.order + 1) ∣ block.base) :
    block.buddy.base = block.base + 2 ^ block.order := by
  obtain ⟨count, same⟩ := start
  have size := Nat.two_pow_pos block.order
  have even : block.base / 2 ^ block.order % 2 = 0 := by
    rw [same, Nat.pow_succ, Nat.mul_assoc, Nat.mul_div_cancel_left _ size]
    omega
  have value := xor_two_pow block.base block.order
  rw [if_pos even] at value
  exact value

theorem Aligned.buddy_aligned {block : Block} (aligned : block.Aligned) : block.buddy.Aligned := by
  show 2 ^ block.order ∣ block.buddy.base
  rcases block.buddy_base_cases with above | below
  · rw [above]
    exact Nat.dvd_add aligned (Nat.dvd_refl _)
  · have here : 2 ^ block.order ∣ block.base := aligned
    rw [below] at here
    exact (Nat.dvd_add_iff_left (Nat.dvd_refl _)).mpr here

theorem Aligned.parent_aligned {block : Block} (aligned : block.Aligned) :
    block.parent.Aligned := by
  obtain ⟨count, same⟩ := aligned
  have size := Nat.two_pow_pos block.order
  have quotient : block.base / 2 ^ block.order = count := by
    rw [same, Nat.mul_div_cancel_left _ size]
  have value := xor_two_pow block.base block.order
  have buddyBase : block.buddy.base = block.base ^^^ 2 ^ block.order := rfl
  show 2 ^ (block.order + 1) ∣ min block.base block.buddy.base
  rw [quotient, ← buddyBase] at value
  split_ifs at value with even
  · rw [value, Nat.min_eq_left (Nat.le_add_right _ _), same, Nat.pow_succ]
    exact Nat.mul_dvd_mul_left _ (Nat.dvd_of_mod_eq_zero even)
  · obtain ⟨half, odd⟩ : ∃ half, count = 2 * half + 1 := ⟨count / 2, by omega⟩
    have below : block.buddy.base = 2 ^ (block.order + 1) * half := by
      rw [value, same, odd, Nat.mul_add, Nat.mul_one, Nat.add_sub_cancel, Nat.pow_succ,
        Nat.mul_assoc]
    rw [Nat.min_eq_right (by rw [value]; exact Nat.sub_le _ _), below]
    exact Nat.dvd_mul_right _ _

/-! ## Nesting -/

/-- Every index of the first block is an index of the second. -/
def Within (inner outer : Block) : Prop := ∀ index ∈ inner.extent, index ∈ outer.extent

/-- Of two aligned blocks that meet, the smaller lies within the larger. -/
theorem within_of_meet {inner outer : Block} (innerAligned : inner.Aligned)
    (outerAligned : outer.Aligned) (order : inner.order ≤ outer.order) {index : Nat}
    (inInner : index ∈ inner.extent) (inOuter : index ∈ outer.extent) : inner.Within outer := by
  obtain ⟨first, innerBase⟩ := innerAligned
  obtain ⟨width, outerSize⟩ : 2 ^ inner.order ∣ 2 ^ outer.order := Nat.pow_dvd_pow 2 order
  obtain ⟨start, outerBase⟩ : 2 ^ inner.order ∣ outer.base :=
    Nat.dvd_trans (Nat.pow_dvd_pow 2 order) outerAligned
  have inInner' : inner.base ≤ index ∧ index < inner.base + 2 ^ inner.order := inInner
  have inOuter' : outer.base ≤ index ∧ index < outer.base + 2 ^ outer.order := inOuter
  -- measured in blocks of the smaller size, both start and end at whole numbers
  have startsBelow : start < first + 1 := by
    apply @Nat.lt_of_mul_lt_mul_left (2 ^ inner.order)
    rw [Nat.mul_add, Nat.mul_one]
    omega
  have endsAbove : first < start + width := by
    apply @Nat.lt_of_mul_lt_mul_left (2 ^ inner.order)
    rw [Nat.mul_add]
    omega
  have lower : 2 ^ inner.order * start ≤ 2 ^ inner.order * first :=
    Nat.mul_le_mul_left _ (by omega)
  have upper : 2 ^ inner.order * (first + 1) ≤ 2 ^ inner.order * (start + width) :=
    Nat.mul_le_mul_left _ endsAbove
  rw [Nat.mul_add, Nat.mul_add, Nat.mul_one] at upper
  intro other member
  have member' : inner.base ≤ other ∧ other < inner.base + 2 ^ inner.order := member
  show outer.base ≤ other ∧ other < outer.base + 2 ^ outer.order
  omega

theorem Within.trans {inner middle outer : Block} (first : inner.Within middle)
    (second : middle.Within outer) : inner.Within outer :=
  fun index member => second index (first index member)

theorem Within.antisymm {left right : Block} (forward : left.Within right)
    (backward : right.Within left) : left = right := by
  have leftSize := Nat.two_pow_pos left.order
  have rightSize := Nat.two_pow_pos right.order
  have leftFirst := forward left.base left.base_mem_extent
  have rightFirst := backward right.base right.base_mem_extent
  have leftLast := forward (left.base + 2 ^ left.order - 1) (by
    show left.base ≤ _ ∧ _ < left.base + 2 ^ left.order
    omega)
  have rightLast := backward (right.base + 2 ^ right.order - 1) (by
    show right.base ≤ _ ∧ _ < right.base + 2 ^ right.order
    omega)
  simp only [Extent.mem_def, extent] at leftFirst rightFirst leftLast rightLast
  apply ext_extent
  unfold extent
  rw [Extent.mk.injEq]
  omega

/-- An aligned block that lies within another of no larger order is that block. -/
theorem eq_of_within {inner outer : Block} (innerAligned : inner.Aligned)
    (outerAligned : outer.Aligned) (order : outer.order ≤ inner.order)
    (within : inner.Within outer) : inner = outer :=
  within.antisymm (within_of_meet outerAligned innerAligned order
    (within inner.base inner.base_mem_extent) inner.base_mem_extent)

/-! ## Coalesced lists -/

/-- The extents of a list of blocks. -/
def extents (blocks : List Block) : List Extent := blocks.map extent

@[simp] theorem extents_nil : extents [] = [] := rfl

@[simp] theorem extents_cons (block : Block) (rest : List Block) :
    extents (block :: rest) = block.extent :: extents rest := rfl

@[simp] theorem extents_append (left right : List Block) :
    extents (left ++ right) = extents left ++ extents right := List.map_append

/-- Disjoint aligned blocks of order at most `top`, no two of them buddies below `top`. -/
structure Coalesced (top : Nat) (blocks : List Block) : Prop where
  aligned : ∀ block ∈ blocks, block.Aligned
  small : ∀ block ∈ blocks, block.order ≤ top
  apart : (extents blocks).Pairwise Extent.Disjoint
  noBuddies : ∀ block ∈ blocks, block.order < top → block.buddy ∉ blocks

theorem covers_extents {blocks : List Block} {index : Nat} :
    Extent.Covers (extents blocks) index ↔ ∃ block ∈ blocks, index ∈ block.extent := by
  simp [Extent.Covers, extents]

/-- Two blocks of a disjoint list that meet are one. -/
theorem eq_of_meet {blocks : List Block} (apart : (extents blocks).Pairwise Extent.Disjoint)
    {left right : Block} (leftMember : left ∈ blocks) (rightMember : right ∈ blocks)
    {index : Nat} (inLeft : index ∈ left.extent) (inRight : index ∈ right.extent) :
    left = right := by
  induction blocks with
  | nil => cases leftMember
  | cons block rest inductionHypothesis =>
      obtain ⟨away, later⟩ := List.pairwise_cons.mp apart
      rcases List.mem_cons.mp leftMember with rfl | leftLater
      · rcases List.mem_cons.mp rightMember with rfl | rightLater
        · rfl
        · have disjoint := away right.extent (List.mem_map_of_mem rightLater)
          exact absurd inRight (disjoint.notMem inLeft)
      · rcases List.mem_cons.mp rightMember with rfl | rightLater
        · have disjoint := away left.extent (List.mem_map_of_mem leftLater)
          exact absurd inLeft (disjoint.notMem inRight)
        · exact inductionHypothesis later leftLater rightLater

namespace Coalesced

variable {top : Nat} {blocks others : List Block}

/-- Every aligned block that is covered lies within a single block of the list. -/
theorem absorbs (coalesced : Coalesced top blocks) (order base : Nat)
    (aligned : (⟨order, base⟩ : Block).Aligned) (small : order ≤ top)
    (covered : ∀ index ∈ (⟨order, base⟩ : Block).extent,
      Extent.Covers (extents blocks) index) :
    ∃ block ∈ blocks, (⟨order, base⟩ : Block).Within block := by
  induction order generalizing base with
  | zero =>
      obtain ⟨block, member, inBlock⟩ := covers_extents.mp (covered base (base_mem_extent ⟨0, base⟩))
      refine ⟨block, member, ?_⟩
      exact within_of_meet aligned (coalesced.aligned block member) (Nat.zero_le _)
        (base_mem_extent ⟨0, base⟩) inBlock
  | succ order inductionHypothesis =>
      have start : 2 ^ (order + 1) ∣ base := aligned
      have lowerAligned : (⟨order, base⟩ : Block).Aligned :=
        Nat.dvd_trans (Nat.pow_dvd_pow 2 (Nat.le_succ order)) start
      have upperBase : (⟨order, base⟩ : Block).buddy = ⟨order, base + 2 ^ order⟩ :=
        congrArg (Block.mk order) (@buddy_base_of_dvd ⟨order, base⟩ start)
      have upperAligned : (⟨order, base + 2 ^ order⟩ : Block).Aligned :=
        upperBase ▸ lowerAligned.buddy_aligned
      have double : 2 ^ (order + 1) = 2 ^ order + 2 ^ order := by
        rw [Nat.pow_succ, Nat.mul_two]
      -- both halves lie in some block of the list
      obtain ⟨lower, lowerMember, inLower⟩ := inductionHypothesis base lowerAligned (by omega)
        (fun index member => covered index (by
          simp only [Extent.mem_def, extent] at member ⊢
          omega))
      obtain ⟨upper, upperMember, inUpper⟩ := inductionHypothesis (base + 2 ^ order) upperAligned
        (by omega) (fun index member => covered index (by
          simp only [Extent.mem_def, extent] at member ⊢
          omega))
      have wholeFirst : base ∈ (⟨order + 1, base⟩ : Block).extent := base_mem_extent ⟨order + 1, base⟩
      have wholeMiddle : base + 2 ^ order ∈ (⟨order + 1, base⟩ : Block).extent := by
        have := Nat.two_pow_pos order
        simp only [Extent.mem_def, extent]
        omega
      by_cases lowerLarge : order + 1 ≤ lower.order
      · exact ⟨lower, lowerMember, within_of_meet aligned (coalesced.aligned lower lowerMember)
          lowerLarge wholeFirst (inLower base (base_mem_extent ⟨order, base⟩))⟩
      by_cases upperLarge : order + 1 ≤ upper.order
      · exact ⟨upper, upperMember, within_of_meet aligned (coalesced.aligned upper upperMember)
          upperLarge wholeMiddle (inUpper _ (base_mem_extent ⟨order, base + 2 ^ order⟩))⟩
      -- otherwise both halves are listed, and they are buddies
      have lowerSame := eq_of_within lowerAligned (coalesced.aligned lower lowerMember)
        (show lower.order ≤ order by omega) inLower
      have upperSame := eq_of_within upperAligned (coalesced.aligned upper upperMember)
        (show upper.order ≤ order by omega) inUpper
      rw [← lowerSame] at lowerMember
      rw [← upperSame, ← upperBase] at upperMember
      exact absurd upperMember (coalesced.noBuddies _ lowerMember (show order < top by omega))

theorem mem_of_covers (coalesced : Coalesced top blocks) (other : Coalesced top others)
    (same : ∀ index, Extent.Covers (extents blocks) index ↔ Extent.Covers (extents others) index)
    {block : Block} (member : block ∈ blocks) : block ∈ others := by
  obtain ⟨outer, outerMember, inOuter⟩ := other.absorbs block.order block.base
    (coalesced.aligned block member) (coalesced.small block member)
    (fun index inBlock => (same index).mp (covers_extents.mpr ⟨block, member, inBlock⟩))
  obtain ⟨again, againMember, inAgain⟩ := coalesced.absorbs outer.order outer.base
    (other.aligned outer outerMember) (other.small outer outerMember)
    (fun index inBlock => (same index).mpr (covers_extents.mpr ⟨outer, outerMember, inBlock⟩))
  have whole : Within block again := Within.trans inOuter inAgain
  have sameBlock : block = again := eq_of_meet coalesced.apart member againMember
    block.base_mem_extent (whole _ block.base_mem_extent)
  subst sameBlock
  have equal : block = outer := Within.antisymm inOuter inAgain
  exact equal ▸ outerMember

theorem nodup (coalesced : Coalesced top blocks) : blocks.Nodup := by
  have apart := List.pairwise_map.mp coalesced.apart
  refine apart.imp fun {left right} disjoint same => ?_
  subst same
  exact disjoint.notMem left.base_mem_extent left.base_mem_extent

/-- The covered set determines the blocks. -/
theorem perm_of_covers (coalesced : Coalesced top blocks) (other : Coalesced top others)
    (same : ∀ index, Extent.Covers (extents blocks) index ↔ Extent.Covers (extents others) index) :
    blocks.Perm others :=
  (List.perm_ext_iff_of_nodup coalesced.nodup other.nodup).mpr fun _ =>
    ⟨coalesced.mem_of_covers other same, other.mem_of_covers coalesced fun i => (same i).symm⟩

end Coalesced

end Block

end UCore.Lib
