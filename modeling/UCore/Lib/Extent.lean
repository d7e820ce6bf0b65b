import Mathlib.Data.List.Pairwise
import Mathlib.Algebra.BigOperators.Group.List.Basic
import Mathlib.Order.Interval.Finset.Nat
import Mathlib.Tactic.Ring

/-!
Contract: finite families of intervals of naturals.

Owns:
- `Extent`, an interval given by its base and its size, and membership in it;
- disjointness, address order and separation of a list of extents;
- maximal runs of a set of naturals, and the theorem that a separated list of extents lists
  exactly the maximal runs of the set it covers;
- the finite set a list covers and its size.

Does not own: what the naturals stand for.
-/

set_option autoImplicit false

namespace UCore.Lib

/-- The interval `[base, base + size)`. -/
structure Extent where
  base : Nat
  size : Nat
deriving DecidableEq, Repr

namespace Extent

instance : Membership Nat Extent :=
  ⟨fun extent index => extent.base ≤ index ∧ index < extent.base + extent.size⟩

theorem mem_def {extent : Extent} {index : Nat} :
    index ∈ extent ↔ extent.base ≤ index ∧ index < extent.base + extent.size := Iff.rfl

instance (extent : Extent) (index : Nat) : Decidable (index ∈ extent) :=
  inferInstanceAs (Decidable (_ ∧ _))

theorem base_mem {extent : Extent} (positive : 0 < extent.size) : extent.base ∈ extent := by
  rw [mem_def]
  omega

/-- No index lies in both. -/
def Disjoint (left right : Extent) : Prop :=
  left.base + left.size ≤ right.base ∨ right.base + right.size ≤ left.base

instance (left right : Extent) : Decidable (Disjoint left right) :=
  inferInstanceAs (Decidable (_ ∨ _))

theorem Disjoint.symm {left right : Extent} (disjoint : Disjoint left right) :
    Disjoint right left :=
  Or.symm disjoint

theorem Disjoint.within {outer inner other : Extent} (disjoint : Disjoint outer other)
    (above : outer.base ≤ inner.base)
    (below : inner.base + inner.size ≤ outer.base + outer.size) : Disjoint inner other := by
  unfold Disjoint at *
  omega

theorem Disjoint.notMem {left right : Extent} (disjoint : Disjoint left right) {index : Nat}
    (member : index ∈ left) : index ∉ right := by
  rw [mem_def] at *
  unfold Disjoint at disjoint
  omega

theorem disjoint_of_notMem {left right : Extent} (positive : 0 < left.size ∧ 0 < right.size)
    (apart : ∀ index ∈ left, index ∉ right) : Disjoint left right := by
  have atLeft : left.base ∉ right := apart left.base (base_mem positive.1)
  have atRight : right.base ∉ left := fun member => apart right.base member (base_mem positive.2)
  simp only [mem_def] at atLeft atRight
  unfold Disjoint
  omega

/-- The index lies in some extent of the list. -/
def Covers (extents : List Extent) (index : Nat) : Prop :=
  ∃ extent ∈ extents, index ∈ extent

theorem covers_append {left right : List Extent} {index : Nat} :
    Covers (left ++ right) index ↔ Covers left index ∨ Covers right index := by
  simp only [Covers, List.mem_append, or_and_right, exists_or]

theorem covers_cons {extent : Extent} {rest : List Extent} {index : Nat} :
    Covers (extent :: rest) index ↔ index ∈ extent ∨ Covers rest index := by
  simp [Covers]

/-- Total size of a list of extents. -/
def total (extents : List Extent) : Nat := (extents.map Extent.size).sum

@[simp] theorem total_nil : total [] = 0 := rfl

@[simp] theorem total_cons (extent : Extent) (rest : List Extent) :
    total (extent :: rest) = extent.size + total rest := by
  simp [total]

@[simp] theorem total_append (left right : List Extent) :
    total (left ++ right) = total left + total right := by
  simp [total]

theorem total_le_of_sublist {shorter longer : List Extent} (sublist : shorter.Sublist longer) :
    total shorter ≤ total longer := by
  induction sublist with
  | slnil => exact Nat.le_refl _
  | cons extent _ inductionHypothesis =>
      rw [total_cons]
      omega
  | cons_cons extent _ inductionHypothesis =>
      rw [total_cons, total_cons]
      omega

theorem size_le_total {extents : List Extent} {extent : Extent} (member : extent ∈ extents) :
    extent.size ≤ total extents := by
  obtain ⟨left, right, rfl⟩ := List.append_of_mem member
  rw [total_append, total_cons]
  omega

/-! ## Maximal runs -/

/-- Address order with a gap between any two extents. -/
def Separated (extents : List Extent) : Prop :=
  extents.Pairwise fun lower upper => lower.base + lower.size < upper.base

theorem Separated.insert {left right : List Extent} {extent : Extent}
    (separated : Separated (left ++ right))
    (below : ∀ lower ∈ left, lower.base + lower.size < extent.base)
    (above : ∀ upper ∈ right, extent.base + extent.size < upper.base) :
    Separated (left ++ extent :: right) := by
  unfold Separated at separated ⊢
  rw [List.pairwise_append] at separated ⊢
  refine ⟨separated.1, List.pairwise_cons.mpr ⟨above, separated.2.1⟩, ?_⟩
  intro lower member upper upperMember
  rcases List.mem_cons.mp upperMember with rfl | later
  · exact below lower member
  · exact separated.2.2 lower member upper later

theorem Separated.gap {extents : List Extent} (separated : Separated extents)
    {first second : Extent} (firstMember : first ∈ extents) (secondMember : second ∈ extents) :
    first = second ∨ first.base + first.size < second.base ∨
      second.base + second.size < first.base := by
  induction extents with
  | nil => cases firstMember
  | cons extent rest inductionHypothesis =>
      obtain ⟨apart, later⟩ := List.pairwise_cons.mp separated
      rcases List.mem_cons.mp firstMember with rfl | firstLater
      · rcases List.mem_cons.mp secondMember with rfl | secondLater
        · exact Or.inl rfl
        · exact Or.inr (Or.inl (apart second secondLater))
      · rcases List.mem_cons.mp secondMember with rfl | secondLater
        · exact Or.inr (Or.inr (apart first firstLater))
        · exact inductionHypothesis later firstLater secondLater

/-- A run of consecutive indices in the set that no neighbouring index extends. -/
structure IsRun (inSet : Nat → Prop) (run : Extent) : Prop where
  positive : 0 < run.size
  within : ∀ index ∈ run, inSet index
  below : ∀ index, index + 1 = run.base → ¬ inSet index
  above : ¬ inSet (run.base + run.size)

/-- A separated list of extents lists exactly the maximal runs of the set it covers. -/
theorem isRun_covers_iff {extents : List Extent} (separated : Separated extents)
    (positive : ∀ extent ∈ extents, 0 < extent.size) {run : Extent} :
    IsRun (Covers extents) run ↔ run ∈ extents := by
  constructor
  · intro isRun
    obtain ⟨extent, member, inExtent⟩ := isRun.within run.base (base_mem isRun.positive)
    rw [mem_def] at inExtent
    -- the extent that holds the first index of the run starts and ends where the run does
    have sameBase : extent.base = run.base := by
      by_contra different
      apply isRun.below (run.base - 1) (by omega)
      refine ⟨extent, member, ?_⟩
      rw [mem_def]
      omega
    have notLonger : ¬ run.size < extent.size := by
      intro longer
      apply isRun.above
      refine ⟨extent, member, ?_⟩
      rw [mem_def]
      omega
    have notShorter : ¬ extent.size < run.size := by
      intro shorter
      obtain ⟨next, nextMember, inNext⟩ := isRun.within (extent.base + extent.size) (by
        rw [mem_def]
        omega)
      rw [mem_def] at inNext
      rcases separated.gap member nextMember with rfl | before | after
      · omega
      · omega
      · omega
    have same : run = extent := by
      obtain ⟨base, size⟩ := run
      obtain ⟨base', size'⟩ := extent
      simp only [mk.injEq] at *
      omega
    exact same ▸ member
  · intro member
    have size := positive run member
    refine ⟨size, fun index inRun => ⟨run, member, inRun⟩, ?_, ?_⟩
    · rintro index next ⟨other, otherMember, inOther⟩
      rw [mem_def] at inOther
      rcases separated.gap member otherMember with rfl | before | after <;> omega
    · rintro ⟨other, otherMember, inOther⟩
      rw [mem_def] at inOther
      rcases separated.gap member otherMember with rfl | before | after <;> omega

/-! ## The finite set a list covers -/

/-- The indices in some extent of the list. -/
def cells : List Extent → Finset Nat
  | [] => ∅
  | extent :: rest => Finset.Ico extent.base (extent.base + extent.size) ∪ cells rest

theorem mem_cells {extents : List Extent} {index : Nat} :
    index ∈ cells extents ↔ Covers extents index := by
  induction extents with
  | nil => simp [cells, Covers]
  | cons extent rest inductionHypothesis =>
      rw [cells, Finset.mem_union, Finset.mem_Ico, inductionHypothesis, covers_cons]
      rfl

theorem card_cells {extents : List Extent} (apart : extents.Pairwise Disjoint) :
    (cells extents).card = total extents := by
  induction extents with
  | nil => rfl
  | cons extent rest inductionHypothesis =>
      obtain ⟨away, later⟩ := List.pairwise_cons.mp apart
      rw [cells, Finset.card_union_of_disjoint, inductionHypothesis later, total_cons,
        Nat.card_Ico, Nat.add_sub_cancel_left]
      rw [Finset.disjoint_left]
      intro index inExtent inRest
      obtain ⟨other, member, inOther⟩ := mem_cells.mp inRest
      exact (away other member).notMem (Finset.mem_Ico.mp inExtent) inOther

end Extent

end UCore.Lib
