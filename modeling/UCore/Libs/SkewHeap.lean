import Mathlib.Data.List.Perm.Basic

/-!
Contract: the skew heap of `libs/skew_heap.h`.

Owns:
- the heap as a tree and its operations, for an arbitrary comparison function;
- the entries of a heap and the heap order with respect to a key;
- the rules that the operations keep the entries, and keep the order when the comparison agrees
  with the key on the entries that are compared.

The parent pointer of an entry is its position in the tree: removing an entry replaces the
subtree below it.
-/

set_option autoImplicit false

namespace UCore.Libs

universe u

inductive SkewHeap (α : Type u)
  | null
  | node (entry : α) (left right : SkewHeap α)
deriving Repr

namespace SkewHeap

variable {α : Type u}

def size : SkewHeap α → Nat
  | null => 0
  | node _ left right => left.size + right.size + 1

def entries : SkewHeap α → List α
  | null => []
  | node entry left right => entry :: (left.entries ++ right.entries)

/-- The entry at the root. -/
def root : SkewHeap α → Option α
  | null => none
  | node entry _ _ => some entry

/-- No entry has a smaller key than an entry above it. -/
def Ordered (key : α → Nat) : SkewHeap α → Prop
  | null => True
  | node entry left right =>
      (∀ lower ∈ left.entries ++ right.entries, key entry ≤ key lower) ∧
        left.Ordered key ∧ right.Ordered key

/-- No entry goes before an entry above it. -/
def OrderedBy (below : α → α → Prop) : SkewHeap α → Prop
  | null => True
  | node entry left right =>
      (∀ lower ∈ left.entries ++ right.entries, below entry lower) ∧
        left.OrderedBy below ∧ right.OrderedBy below

theorem ordered_iff {key : α → Nat} {heap : SkewHeap α} :
    heap.Ordered key ↔ heap.OrderedBy fun entry lower => key entry ≤ key lower := by
  induction heap with
  | null => exact Iff.rfl
  | node entry left right leftHypothesis rightHypothesis =>
      exact and_congr_right fun _ => and_congr leftHypothesis rightHypothesis

theorem OrderedBy.congr {below below' : α → α → Prop} {heap : SkewHeap α}
    (ordered : heap.OrderedBy below)
    (same : ∀ entry ∈ heap.entries, ∀ lower ∈ heap.entries, below entry lower → below' entry lower) :
    heap.OrderedBy below' := by
  induction heap with
  | null => trivial
  | node entry left right leftHypothesis rightHypothesis =>
      obtain ⟨atRoot, leftOrdered, rightOrdered⟩ := ordered
      refine ⟨fun lower member => ?_, leftHypothesis leftOrdered fun upper upperMember lower member => ?_,
        rightHypothesis rightOrdered fun upper upperMember lower member => ?_⟩
      · exact same entry List.mem_cons_self lower (List.mem_cons_of_mem _ member)
          (atRoot lower member)
      · exact same upper (List.mem_cons_of_mem _ (List.mem_append_left _ upperMember)) lower
          (List.mem_cons_of_mem _ (List.mem_append_left _ member))
      · exact same upper (List.mem_cons_of_mem _ (List.mem_append_right _ upperMember)) lower
          (List.mem_cons_of_mem _ (List.mem_append_right _ member))

theorem Ordered.congr {key key' : α → Nat} {heap : SkewHeap α} (ordered : heap.Ordered key)
    (same : ∀ entry ∈ heap.entries, key' entry = key entry) : heap.Ordered key' := by
  induction heap with
  | null => trivial
  | node entry left right leftHypothesis rightHypothesis =>
      obtain ⟨below, leftOrdered, rightOrdered⟩ := ordered
      have atRoot : key' entry = key entry := same entry List.mem_cons_self
      have under : ∀ lower ∈ left.entries ++ right.entries, key' lower = key lower :=
        fun lower member => same lower (List.mem_cons_of_mem _ member)
      refine ⟨fun lower member => ?_, leftHypothesis leftOrdered fun lower member => ?_,
        rightHypothesis rightOrdered fun lower member => ?_⟩
      · rw [atRoot, under lower member]
        exact below lower member
      · exact under lower (List.mem_append_left _ member)
      · exact under lower (List.mem_append_right _ member)

theorem ordered_of_equal {key : α → Nat} {heap : SkewHeap α} {value : Nat}
    (equal : ∀ entry ∈ heap.entries, key entry = value) : heap.Ordered key := by
  induction heap with
  | null => trivial
  | node entry left right leftHypothesis rightHypothesis =>
      have atRoot : key entry = value := equal entry List.mem_cons_self
      have under : ∀ lower ∈ left.entries ++ right.entries, key lower = value :=
        fun lower member => equal lower (List.mem_cons_of_mem _ member)
      refine ⟨fun lower member => ?_, leftHypothesis fun lower member => ?_,
        rightHypothesis fun lower member => ?_⟩
      · exact Nat.le_of_eq (atRoot.trans (under lower member).symm)
      · exact under lower (List.mem_append_left _ member)
      · exact under lower (List.mem_append_right _ member)

theorem Ordered.root_le {key : α → Nat} {heap : SkewHeap α} {entry : α}
    (ordered : heap.Ordered key) (atRoot : heap.root = some entry) :
    entry ∈ heap.entries ∧ ∀ other ∈ heap.entries, key entry ≤ key other := by
  cases heap with
  | null => cases atRoot
  | node top left right =>
      obtain rfl : top = entry := Option.some.inj atRoot
      refine ⟨List.mem_cons_self, fun other member => ?_⟩
      rcases List.mem_cons.mp member with rfl | below
      · exact Nat.le_refl _
      · exact ordered.1 other below

end SkewHeap

open SkewHeap

section Operations

variable {α : Type u} (comp : α → α → Int)

/-- The recursion of `skew_heap_merge`, to a depth of at most `depth`. -/
def mergeWithin : Nat → SkewHeap α → SkewHeap α → SkewHeap α
  | _, null, b => b
  | _, a, null => a
  | 0, a, _ => a
  | depth + 1, node entry left right, node entry' left' right' =>
      if comp entry entry' = -1 then
        node entry (mergeWithin depth right (node entry' left' right')) left
      else
        node entry' (mergeWithin depth (node entry left right) right') left'

def skewHeapMerge (a b : SkewHeap α) : SkewHeap α := mergeWithin comp (a.size + b.size) a b

/-- `skew_heap_init` makes a single node of the new entry. -/
def skewHeapInsert (a : SkewHeap α) (entry : α) : SkewHeap α :=
  skewHeapMerge comp a (node entry null null)

def skewHeapRemove [DecidableEq α] : SkewHeap α → α → SkewHeap α
  | null, _ => null
  | node top left right, entry =>
      if top = entry then skewHeapMerge comp left right
      else node top (skewHeapRemove left entry) (skewHeapRemove right entry)

end Operations

variable {α : Type u} {comp : α → α → Int}

/-! ## The recursion of merge -/

theorem mergeWithin_enough {depth depth' : Nat} {a b : SkewHeap α} (enough : a.size + b.size ≤ depth)
    (enough' : a.size + b.size ≤ depth') : mergeWithin comp depth a b = mergeWithin comp depth' a b := by
  induction depth generalizing depth' a b with
  | zero =>
      cases a with
      | null => simp only [mergeWithin]
      | node entry left right =>
          simp only [size] at enough
          omega
  | succ depth inductionHypothesis =>
      cases a with
      | null => simp only [mergeWithin]
      | node entry left right =>
          cases b with
          | null => simp only [mergeWithin]
          | node entry' left' right' =>
              simp only [size] at enough enough'
              obtain ⟨depth', rfl⟩ : ∃ smaller, depth' = smaller + 1 := ⟨depth' - 1, by omega⟩
              simp only [mergeWithin]
              rw [inductionHypothesis (by simp only [size]; omega)
                  (show right.size + (node entry' left' right').size ≤ depth' by
                    simp only [size]; omega),
                inductionHypothesis (by simp only [size]; omega)
                  (show (node entry left right).size + right'.size ≤ depth' by
                    simp only [size]; omega)]

@[simp] theorem skewHeapMerge_null_left (b : SkewHeap α) : skewHeapMerge comp null b = b := by
  simp only [skewHeapMerge, mergeWithin]

@[simp] theorem skewHeapMerge_null_right (a : SkewHeap α) : skewHeapMerge comp a null = a := by
  cases a <;> simp only [skewHeapMerge, mergeWithin]

theorem skewHeapMerge_nodes (entry entry' : α) (left right left' right' : SkewHeap α) :
    skewHeapMerge comp (node entry left right) (node entry' left' right') =
      if comp entry entry' = -1 then
        node entry (skewHeapMerge comp right (node entry' left' right')) left
      else node entry' (skewHeapMerge comp (node entry left right) right') left' := by
  unfold skewHeapMerge
  rw [show (node entry left right).size + (node entry' left' right').size =
    left.size + right.size + (node entry' left' right').size + 1 by simp only [size]; omega]
  rw [mergeWithin]
  rw [@mergeWithin_enough _ comp (left.size + right.size + (node entry' left' right').size)
      (right.size + (node entry' left' right').size) right _ (by omega) (Nat.le_refl _),
    @mergeWithin_enough _ comp (left.size + right.size + (node entry' left' right').size)
      ((node entry left right).size + right'.size) _ right' (by simp only [size]; omega)
      (Nat.le_refl _)]

/-! ## Entries and order -/

/-- Induction along the recursion of merge: either heap is empty, or the merge goes on in the
right subtree of one of the roots. -/
theorem merge_induction {motive : SkewHeap α → SkewHeap α → Prop}
    (nullLeft : ∀ b, motive null b) (nullRight : ∀ a, motive a null)
    (nodes : ∀ entry left right entry' left' right',
      motive right (node entry' left' right') → motive (node entry left right) right' →
      motive (node entry left right) (node entry' left' right'))
    (a b : SkewHeap α) : motive a b := by
  induction a generalizing b with
  | null => exact nullLeft b
  | node entry left right _ rightHypothesis =>
      induction b with
      | null => exact nullRight _
      | node entry' left' right' _ rightHypothesis' =>
          exact nodes entry left right entry' left' right' (rightHypothesis _) rightHypothesis'

/-- Merging keeps the entries. -/
theorem entries_merge (a b : SkewHeap α) :
    (skewHeapMerge comp a b).entries.Perm (a.entries ++ b.entries) := by
  apply @merge_induction _
    (fun a b => (skewHeapMerge comp a b).entries.Perm (a.entries ++ b.entries))
  · intro b
    rw [skewHeapMerge_null_left]
    exact List.Perm.refl _
  · intro a
    rw [skewHeapMerge_null_right]
    simp only [entries, List.append_nil]
    exact List.Perm.refl _
  · intro entry left right entry' left' right' intoLeft intoRight
    rw [skewHeapMerge_nodes]
    split_ifs
    · apply List.Perm.cons
      calc ((skewHeapMerge comp right (node entry' left' right')).entries ++ left.entries).Perm
            (left.entries ++ (skewHeapMerge comp right (node entry' left' right')).entries) :=
              List.perm_append_comm
        List.Perm _ (left.entries ++ (right.entries ++ (node entry' left' right').entries)) :=
              intoLeft.append_left _
        List.Perm _ ((left.entries ++ right.entries) ++ (node entry' left' right').entries) := by
              rw [List.append_assoc]
    · have below : ((skewHeapMerge comp (node entry left right) right').entries ++ left'.entries).Perm
          ((node entry left right).entries ++ (left'.entries ++ right'.entries)) :=
        calc ((skewHeapMerge comp (node entry left right) right').entries ++ left'.entries).Perm
              (((node entry left right).entries ++ right'.entries) ++ left'.entries) :=
                intoRight.append_right _
          List.Perm _ ((node entry left right).entries ++ (right'.entries ++ left'.entries)) := by
                rw [List.append_assoc]
          List.Perm _ ((node entry left right).entries ++ (left'.entries ++ right'.entries)) :=
                List.perm_append_comm.append_left _
      exact (below.cons entry').trans List.perm_middle.symm

theorem mem_merge {a b : SkewHeap α} {entry : α} :
    entry ∈ (skewHeapMerge comp a b).entries ↔ entry ∈ a.entries ∨ entry ∈ b.entries := by
  rw [(entries_merge a b).mem_iff, List.mem_append]

theorem entries_insert (a : SkewHeap α) (entry : α) :
    (skewHeapInsert comp a entry).entries.Perm (entry :: a.entries) :=
  (entries_merge a (node entry null null)).trans List.perm_append_comm

/-- Removing the root merges what is below it. -/
theorem skewHeapRemove_root [DecidableEq α] {heap : SkewHeap α} {entry : α}
    (atRoot : heap.root = some entry) :
    ∃ left right, heap = node entry left right ∧
      skewHeapRemove comp heap entry = skewHeapMerge comp left right := by
  cases heap with
  | null => cases atRoot
  | node top left right =>
      obtain rfl : top = entry := Option.some.inj atRoot
      exact ⟨left, right, rfl, by simp only [skewHeapRemove, if_pos]⟩

/-- The comparison orders the entries of `a` and of `b` against each other by `key`. -/
def Agrees (comp : α → α → Int) (key : α → Nat) (a b : List α) : Prop :=
  ∀ entry ∈ a, ∀ entry' ∈ b,
    if comp entry entry' = -1 then key entry ≤ key entry' else key entry' ≤ key entry

/-- The comparison orders the entries of `a` and of `b` against each other by `below`. -/
def AgreesBy (comp : α → α → Int) (below : α → α → Prop) (a b : List α) : Prop :=
  ∀ entry ∈ a, ∀ entry' ∈ b, if comp entry entry' = -1 then below entry entry' else below entry' entry

theorem AgreesBy.mono {below : α → α → Prop} {a a' b b' : List α} (agrees : AgreesBy comp below a b)
    (left : a' ⊆ a) (right : b' ⊆ b) : AgreesBy comp below a' b' :=
  fun entry member entry' member' => agrees entry (left member) entry' (right member')

/-- Merging keeps the heap order of a relation that is transitive on the entries. -/
theorem orderedBy_merge {below : α → α → Prop} {among : α → Prop}
    (trans : ∀ {x y z}, among x → among y → among z → below x y → below y z → below x z)
    (a b : SkewHeap α) : a.OrderedBy below → b.OrderedBy below →
      (∀ entry ∈ a.entries, among entry) → (∀ entry ∈ b.entries, among entry) →
      AgreesBy comp below a.entries b.entries → (skewHeapMerge comp a b).OrderedBy below := by
  apply @merge_induction _ (fun a b => a.OrderedBy below → b.OrderedBy below →
    (∀ entry ∈ a.entries, among entry) → (∀ entry ∈ b.entries, among entry) →
    AgreesBy comp below a.entries b.entries → (skewHeapMerge comp a b).OrderedBy below)
  · intro b _ ordered _ _ _
    rwa [skewHeapMerge_null_left]
  · intro a ordered _ _ _ _
    rwa [skewHeapMerge_null_right]
  · intro entry left right entry' left' right' intoLeft intoRight ordered ordered' in' in'' agrees
    have roots := agrees entry List.mem_cons_self entry' List.mem_cons_self
    have atRoot := in' entry List.mem_cons_self
    have atRoot' := in'' entry' List.mem_cons_self
    have inRight : ∀ lower ∈ right.entries, among lower := fun lower member =>
      in' lower (List.mem_cons_of_mem _ (List.mem_append_right _ member))
    have inRight' : ∀ lower ∈ right'.entries, among lower := fun lower member =>
      in'' lower (List.mem_cons_of_mem _ (List.mem_append_right _ member))
    obtain ⟨under, leftOrdered, rightOrdered⟩ := ordered
    obtain ⟨under', leftOrdered', rightOrdered'⟩ := ordered'
    rw [skewHeapMerge_nodes]
    split_ifs at roots ⊢ with smaller
    · have merged := intoLeft rightOrdered ⟨under', leftOrdered', rightOrdered'⟩ inRight in''
        (agrees.mono (fun _ member => List.mem_cons_of_mem _ (List.mem_append_right _ member))
          (List.Subset.refl _))
      refine ⟨fun lower member => ?_, merged, leftOrdered⟩
      rcases List.mem_append.mp member with inMerged | inLeft
      · rcases mem_merge.mp inMerged with below | inOther
        · exact under lower (List.mem_append_right _ below)
        · rcases List.mem_cons.mp inOther with rfl | below
          · exact roots
          · exact trans atRoot atRoot' (in'' lower inOther) roots (under' lower below)
      · exact under lower (List.mem_append_left _ inLeft)
    · have merged := intoRight ⟨under, leftOrdered, rightOrdered⟩ rightOrdered' in' inRight'
        (agrees.mono (List.Subset.refl _)
          (fun _ member => List.mem_cons_of_mem _ (List.mem_append_right _ member)))
      refine ⟨fun lower member => ?_, merged, leftOrdered'⟩
      rcases List.mem_append.mp member with inMerged | inLeft
      · rcases mem_merge.mp inMerged with inOther | below
        · rcases List.mem_cons.mp inOther with rfl | below
          · exact roots
          · exact trans atRoot' atRoot (in' lower inOther) roots (under lower below)
        · exact under' lower (List.mem_append_right _ below)
      · exact under' lower (List.mem_append_left _ inLeft)

/-- Merging keeps the heap order of a key. -/
theorem ordered_merge {key : α → Nat} (a b : SkewHeap α) (ordered : a.Ordered key)
    (ordered' : b.Ordered key) (agrees : Agrees comp key a.entries b.entries) :
    (skewHeapMerge comp a b).Ordered key :=
  ordered_iff.mpr (@orderedBy_merge _ comp (fun entry lower => key entry ≤ key lower) (fun _ => True)
    (fun _ _ _ => Nat.le_trans) a b
    (ordered_iff.mp ordered) (ordered_iff.mp ordered') (fun _ _ => trivial) (fun _ _ => trivial)
    agrees)

theorem ordered_insert {key : α → Nat} {a : SkewHeap α} {entry : α} (ordered : a.Ordered key)
    (agrees : Agrees comp key a.entries [entry]) : (skewHeapInsert comp a entry).Ordered key := by
  apply ordered_merge a _ ordered _ (by simpa [entries] using agrees)
  simp [SkewHeap.Ordered, entries]

/-! ## Removing an entry -/

section Remove

variable [DecidableEq α]

theorem skewHeapRemove_absent {heap : SkewHeap α} {entry : α} (absent : entry ∉ heap.entries) :
    skewHeapRemove comp heap entry = heap := by
  induction heap with
  | null => rfl
  | node top left right leftHypothesis rightHypothesis =>
      obtain ⟨apart, below⟩ := not_or.mp (mt List.mem_cons.mpr absent)
      obtain ⟨notLeft, notRight⟩ := not_or.mp (mt List.mem_append.mpr below)
      rw [skewHeapRemove, if_neg (Ne.symm apart), leftHypothesis notLeft, rightHypothesis notRight]

/-- Removing keeps the other entries. -/
theorem entries_remove {heap : SkewHeap α} {entry : α} (distinct : heap.entries.Nodup) :
    (skewHeapRemove comp heap entry).entries.Perm (heap.entries.erase entry) := by
  induction heap with
  | null => exact List.Perm.refl _
  | node top left right leftHypothesis rightHypothesis =>
      obtain ⟨absent, below⟩ := List.nodup_cons.mp distinct
      obtain ⟨leftDistinct, rightDistinct, apart⟩ := List.nodup_append.mp below
      by_cases isTop : top = entry
      · subst isTop
        rw [skewHeapRemove, if_pos rfl, entries, List.erase_cons_head]
        exact entries_merge left right
      · have notTop : ¬ (top == entry) = true := by simpa using isTop
        rw [skewHeapRemove, if_neg isTop, entries, entries, List.erase_cons_tail notTop]
        apply List.Perm.cons
        by_cases inLeft : entry ∈ left.entries
        · have notRight : entry ∉ right.entries := fun inRight => apart _ inLeft _ inRight rfl
          rw [skewHeapRemove_absent notRight, List.erase_append_left _ inLeft]
          exact (leftHypothesis leftDistinct).append_right _
        · rw [skewHeapRemove_absent inLeft, List.erase_append_right _ inLeft]
          exact (rightHypothesis rightDistinct).append_left _

theorem mem_of_mem_remove {heap : SkewHeap α} {entry other : α}
    (member : other ∈ (skewHeapRemove comp heap entry).entries) : other ∈ heap.entries := by
  induction heap with
  | null => exact member
  | node top left right leftHypothesis rightHypothesis =>
      rw [skewHeapRemove] at member
      split_ifs at member with isTop
      · exact List.mem_cons_of_mem _ (List.mem_append.mpr (mem_merge.mp member))
      · rcases List.mem_cons.mp member with rfl | below
        · exact List.mem_cons_self
        · rcases List.mem_append.mp below with inLeft | inRight
          · exact List.mem_cons_of_mem _ (List.mem_append_left _ (leftHypothesis inLeft))
          · exact List.mem_cons_of_mem _ (List.mem_append_right _ (rightHypothesis inRight))

/-- Removing keeps the heap order. The comparison is not asked about the root. -/
theorem orderedBy_remove {below : α → α → Prop} {among : α → Prop}
    (trans : ∀ {x y z}, among x → among y → among z → below x y → below y z → below x z)
    {heap : SkewHeap α} {entry : α} (ordered : heap.OrderedBy below)
    (in' : ∀ other ∈ heap.entries, heap.root ≠ some other → among other)
    (agrees : ∀ x ∈ heap.entries, ∀ y ∈ heap.entries, heap.root ≠ some x → heap.root ≠ some y →
      if comp x y = -1 then below x y else below y x)
    (distinct : heap.entries.Nodup) : (skewHeapRemove comp heap entry).OrderedBy below := by
  induction heap with
  | null => trivial
  | node top left right leftHypothesis rightHypothesis =>
      obtain ⟨absent, belowDistinct⟩ := List.nodup_cons.mp distinct
      obtain ⟨leftDistinct, rightDistinct, apart⟩ := List.nodup_append.mp belowDistinct
      obtain ⟨under, leftOrdered, rightOrdered⟩ := ordered
      have notRoot : ∀ other ∈ left.entries ++ right.entries,
          (node top left right).root ≠ some other := by
        rintro other member same
        exact absent (Option.some.inj same ▸ member)
      have inLeft : ∀ other ∈ left.entries, among other := fun other member =>
        in' other (List.mem_cons_of_mem _ (List.mem_append_left _ member))
          (notRoot other (List.mem_append_left _ member))
      have inRight : ∀ other ∈ right.entries, among other := fun other member =>
        in' other (List.mem_cons_of_mem _ (List.mem_append_right _ member))
          (notRoot other (List.mem_append_right _ member))
      have agreesBelow : ∀ x ∈ left.entries ++ right.entries, ∀ y ∈ left.entries ++ right.entries,
          if comp x y = -1 then below x y else below y x := fun x xMember y yMember =>
        agrees x (List.mem_cons_of_mem _ xMember) y (List.mem_cons_of_mem _ yMember)
          (notRoot x xMember) (notRoot y yMember)
      rw [skewHeapRemove]
      split_ifs with isTop
      · exact orderedBy_merge trans left right leftOrdered rightOrdered inLeft inRight
          fun x xMember y yMember => agreesBelow x (List.mem_append_left _ xMember) y
            (List.mem_append_right _ yMember)
      · refine ⟨fun lower member => ?_, ?_, ?_⟩
        · rcases List.mem_append.mp member with inLeft' | inRight'
          · exact under lower (List.mem_append_left _ (mem_of_mem_remove inLeft'))
          · exact under lower (List.mem_append_right _ (mem_of_mem_remove inRight'))
        · exact leftHypothesis leftOrdered (fun other member _ => inLeft other member)
            (fun x xMember y yMember _ _ => agreesBelow x (List.mem_append_left _ xMember) y
              (List.mem_append_left _ yMember)) leftDistinct
        · exact rightHypothesis rightOrdered (fun other member _ => inRight other member)
            (fun x xMember y yMember _ _ => agreesBelow x (List.mem_append_right _ xMember) y
              (List.mem_append_right _ yMember)) rightDistinct

end Remove

end UCore.Libs
