import Mathlib.Logic.Function.Basic
import UCore.Lib.Transition
import UCore.Libs.SkewHeap
import UCore.Machine

/-!
Contract: the pointers of `libs/skew_heap.h`.

Owns:
- the operations of a skew heap on the pointers of its nodes;
- that they do to the pointers what the operations on trees do to the tree;
- the runs of insertions and removals, and the heap after them.

A node is named by a number that stands for its address.

Does not own: what a node is part of.
-/

set_option autoImplicit false

namespace UCore.Libs

open UCore.Lib SkewHeap

/-- The fields of all nodes. -/
structure HeapLinks where
  parent : Nat → Option Nat
  left : Nat → Option Nat
  right : Nat → Option Nat

namespace HeapLinks

def setParent (links : HeapLinks) (node : Option Nat) (parent : Option Nat) : HeapLinks :=
  match node with
  | none => links
  | some node => { links with parent := Function.update links.parent node parent }

/-- The end of `skew_heap_merge`: the new children of a root. -/
def setChildren (links : HeapLinks) (node : Nat) (left right : Option Nat) : HeapLinks :=
  { links with
    left := Function.update links.left node left
    right := Function.update links.right node right }.setParent left (some node)

/-- `skew_heap_init` -/
def init (links : HeapLinks) (node : Nat) : HeapLinks where
  parent := Function.update links.parent node none
  left := Function.update links.left node none
  right := Function.update links.right node none

/-- The end of `skew_heap_remove`: the merged subtrees take the place of `b`. -/
def graft (links : HeapLinks) (b p : Nat) (rep : Option Nat) : HeapLinks :=
  if links.left p = some b then { links with left := Function.update links.left p rep }
  else { links with right := Function.update links.right p rep }

end HeapLinks

section Operations

variable (comp : Nat → Nat → Int)

/-- `skew_heap_merge` -/
def mergeLinks : Nat → HeapLinks → Option Nat → Option Nat → Except Stop (Option Nat × HeapLinks)
  | _, links, none, b => .ok (b, links)
  | _, links, some a, none => .ok (some a, links)
  | 0, _, some _, some _ => .error .outOfFuel
  | fuel + 1, links, some a, some b =>
      if comp a b = -1 then do
        let r := links.left a
        let (l, links) ← mergeLinks fuel links (links.right a) (some b)
        pure (some a, links.setChildren a l r)
      else do
        let r := links.left b
        let (l, links) ← mergeLinks fuel links (some a) (links.right b)
        pure (some b, links.setChildren b l r)

/-- `skew_heap_insert` -/
def insertLinks (fuel : Nat) (links : HeapLinks) (a : Option Nat) (b : Nat) :
    Except Stop (Option Nat × HeapLinks) :=
  mergeLinks comp fuel (links.init b) a (some b)

/-- `skew_heap_remove` -/
def removeLinks (fuel : Nat) (links : HeapLinks) (a : Option Nat) (b : Nat) :
    Except Stop (Option Nat × HeapLinks) := do
  let p := links.parent b
  let (rep, links) ← mergeLinks comp fuel links (links.left b) (links.right b)
  let links := links.setParent rep p
  match p with
  | some p => pure (a, links.graft b p rep)
  | none => pure (rep, links)

end Operations

/-! ## Pointers and trees -/

/-- The pointers below a node are those of a tree. The parent of its root is not looked at. -/
def Shapes (links : HeapLinks) : Option Nat → SkewHeap Nat → Prop
  | pointer, null => pointer = none
  | pointer, node entry left right => pointer = some entry ∧
      Shapes links (links.left entry) left ∧ Shapes links (links.right entry) right ∧
      (∀ child, links.left entry = some child → links.parent child = some entry) ∧
      ∀ child, links.right entry = some child → links.parent child = some entry

variable {comp : Nat → Nat → Int} {links links' : HeapLinks} {pointer : Option Nat}
  {tree tree' : SkewHeap Nat}

namespace Shapes

theorem root_eq (shapes : Shapes links pointer tree) : pointer = tree.root := by
  cases tree with
  | null => exact shapes
  | node entry left right => exact shapes.1

theorem root_mem (shapes : Shapes links pointer tree) {node : Nat} (isRoot : pointer = some node) :
    node ∈ tree.entries := by
  cases tree with
  | null => exact nomatch isRoot.symm.trans shapes
  | node entry left right =>
      obtain rfl := Option.some.inj (isRoot.symm.trans shapes.1)
      exact List.mem_cons_self

/-- Fields of other nodes, and the parent of the root, do not matter. -/
theorem congr (shapes : Shapes links pointer tree)
    (children : ∀ node ∈ tree.entries,
      links'.left node = links.left node ∧ links'.right node = links.right node)
    (parents : ∀ node ∈ tree.entries, pointer ≠ some node →
      links'.parent node = links.parent node)
    (distinct : tree.entries.Nodup) : Shapes links' pointer tree := by
  induction tree generalizing pointer with
  | null => exact shapes
  | node entry left right leftHypothesis rightHypothesis =>
      obtain ⟨isRoot, leftShapes, rightShapes, leftParent, rightParent⟩ := shapes
      obtain ⟨absent, below⟩ := List.nodup_cons.mp distinct
      obtain ⟨leftDistinct, rightDistinct, _⟩ := List.nodup_append.mp below
      obtain ⟨sameLeft, sameRight⟩ := children entry List.mem_cons_self
      have notRoot : ∀ node ∈ left.entries ++ right.entries, pointer ≠ some node := by
        rintro node member same
        exact absent (Option.some.inj (isRoot.symm.trans same) ▸ member)
      have parentsBelow : ∀ node ∈ left.entries ++ right.entries,
          links'.parent node = links.parent node := fun node member =>
        parents node (List.mem_cons_of_mem _ member) (notRoot node member)
      refine ⟨isRoot, ?_, ?_, ?_, ?_⟩
      · rw [sameLeft]
        exact leftHypothesis leftShapes
          (fun node member => children node (List.mem_cons_of_mem _ (List.mem_append_left _ member)))
          (fun node member _ => parentsBelow node (List.mem_append_left _ member)) leftDistinct
      · rw [sameRight]
        exact rightHypothesis rightShapes
          (fun node member => children node (List.mem_cons_of_mem _ (List.mem_append_right _ member)))
          (fun node member _ => parentsBelow node (List.mem_append_right _ member)) rightDistinct
      · intro child isChild
        rw [sameLeft] at isChild
        rw [parentsBelow child (List.mem_append_left _ (leftShapes.root_mem isChild))]
        exact leftParent child isChild
      · intro child isChild
        rw [sameRight] at isChild
        rw [parentsBelow child (List.mem_append_right _ (rightShapes.root_mem isChild))]
        exact rightParent child isChild

end Shapes

/-! ## Merge -/

theorem setParent_left (links : HeapLinks) (node parent : Option Nat) :
    (links.setParent node parent).left = links.left := by
  cases node <;> rfl

theorem setParent_right (links : HeapLinks) (node parent : Option Nat) :
    (links.setParent node parent).right = links.right := by
  cases node <;> rfl

theorem setParent_of_ne (links : HeapLinks) {node : Option Nat} (parent : Option Nat) {other : Nat}
    (apart : node ≠ some other) : (links.setParent node parent).parent other = links.parent other := by
  cases node with
  | none => rfl
  | some node => exact Function.update_of_ne (fun same => apart (congrArg some same.symm)) _ _

theorem setParent_self (links : HeapLinks) (node : Nat) (parent : Option Nat) :
    (links.setParent (some node) parent).parent node = parent :=
  Function.update_self _ _ _

/-- What a merge leaves. -/
structure LinksMerged (links : HeapLinks) (a b tree : SkewHeap Nat) (result : Option Nat)
    (links' : HeapLinks) : Prop where
  shapes : Shapes links' result tree
  rootParent : ∀ root, result = some root → links'.parent root = links.parent root
  others : ∀ node, node ∉ a.entries → node ∉ b.entries →
    links'.parent node = links.parent node ∧ links'.left node = links.left node ∧
      links'.right node = links.right node

/-- A root with its left subtree on the right, and a merged heap on the left. -/
theorem LinksMerged.under {e : Nat} {kept x y merged : SkewHeap Nat} {l : Option Nat}
    (outcome : LinksMerged links x y merged l links')
    (entriesOf : ∀ node, node ∈ merged.entries → node ∈ x.entries ∨ node ∈ y.entries)
    (mergedDistinct : merged.entries.Nodup)
    (keptShapes : Shapes links (links.left e) kept)
    (keptParent : ∀ child, links.left e = some child → links.parent child = some e)
    (keptDistinct : kept.entries.Nodup)
    (absent : e ∉ kept.entries ∧ e ∉ x.entries ∧ e ∉ y.entries)
    (apart : ∀ node ∈ kept.entries, node ∉ x.entries ∧ node ∉ y.entries) :
    let last := links'.setChildren e l (links.left e)
    Shapes last (some e) (node e merged kept) ∧ last.parent e = links.parent e ∧
      ∀ other, other ≠ e → other ∉ x.entries → other ∉ y.entries →
        last.parent other = links.parent other ∧ last.left other = links.left other ∧
          last.right other = links.right other := by
  obtain ⟨notKept, notX, notY⟩ := absent
  have notMerged : e ∉ merged.entries := fun member => (entriesOf e member).elim notX notY
  have root := outcome.shapes.root_eq
  have rootNe : ∀ other, other ∉ merged.entries → l ≠ some other := fun other out same =>
    out (outcome.shapes.root_mem same)
  have parents : ∀ other, other ∉ merged.entries →
      (links'.setChildren e l (links.left e)).parent other = links'.parent other := fun other out =>
    setParent_of_ne _ _ (rootNe other out)
  have lefts : (links'.setChildren e l (links.left e)).left = Function.update links'.left e l :=
    setParent_left _ _ _
  have rights : (links'.setChildren e l (links.left e)).right =
      Function.update links'.right e (links.left e) := setParent_right _ _ _
  have outside : ∀ other, other ≠ e → other ∉ x.entries → other ∉ y.entries →
      (links'.setChildren e l (links.left e)).parent other = links.parent other ∧
        (links'.setChildren e l (links.left e)).left other = links.left other ∧
        (links'.setChildren e l (links.left e)).right other = links.right other := by
    intro other notE outX outY
    obtain ⟨sameParent, sameLeft, sameRight⟩ := outcome.others other outX outY
    refine ⟨?_, ?_, ?_⟩
    · exact (parents other fun member => (entriesOf other member).elim outX outY).trans sameParent
    · rw [lefts, Function.update_of_ne notE]
      exact sameLeft
    · rw [rights, Function.update_of_ne notE]
      exact sameRight
  have inKept : ∀ other ∈ kept.entries, other ≠ e := fun other member same => notKept (same ▸ member)
  refine ⟨⟨rfl, ?_, ?_, ?_, ?_⟩, ?_, outside⟩
  · rw [lefts, Function.update_self]
    refine outcome.shapes.congr (fun other member => ?_) (fun other member notRoot => ?_)
      mergedDistinct
    · have notE : other ≠ e := fun same => notMerged (same ▸ member)
      rw [lefts, rights, Function.update_of_ne notE, Function.update_of_ne notE]
      exact ⟨rfl, rfl⟩
    · exact setParent_of_ne _ _ notRoot
  · rw [rights, Function.update_self]
    refine keptShapes.congr (fun other member => ?_) (fun other member _ => ?_) keptDistinct
    · exact (outside other (inKept other member) (apart other member).1 (apart other member).2).2
    · exact (outside other (inKept other member) (apart other member).1 (apart other member).2).1
  · intro child isChild
    rw [lefts, Function.update_self] at isChild
    rw [isChild]
    exact setParent_self _ child (some e)
  · intro child isChild
    rw [rights, Function.update_self] at isChild
    have member := keptShapes.root_mem isChild
    rw [(outside child (inKept child member) (apart child member).1 (apart child member).2).1]
    exact keptParent child isChild
  · exact (parents e notMerged).trans (outcome.others e notX notY).1

/-- `skew_heap_merge` returns, and does to the pointers what merging does to the trees. -/
theorem mergeLinks_spec (a b : SkewHeap Nat) : ∀ (links : HeapLinks) (pointer pointer' : Option Nat),
    Shapes links pointer a → Shapes links pointer' b → (a.entries ++ b.entries).Nodup →
    ∃ result links', (∀ fuel, a.size + b.size ≤ fuel →
        mergeLinks comp fuel links pointer pointer' = .ok (result, links')) ∧
      LinksMerged links a b (skewHeapMerge comp a b) result links' := by
  apply @merge_induction _ (fun a b => ∀ (links : HeapLinks) (pointer pointer' : Option Nat),
    Shapes links pointer a → Shapes links pointer' b → (a.entries ++ b.entries).Nodup →
    ∃ result links', (∀ fuel, a.size + b.size ≤ fuel →
        mergeLinks comp fuel links pointer pointer' = .ok (result, links')) ∧
      LinksMerged links a b (skewHeapMerge comp a b) result links')
  · intro b links pointer pointer' isNull shapes _
    obtain rfl : pointer = none := isNull
    refine ⟨pointer', links, fun fuel _ => by cases fuel <;> rfl, ?_, fun _ _ => rfl,
      fun _ _ _ => ⟨rfl, rfl, rfl⟩⟩
    rwa [skewHeapMerge_null_left]
  · intro a links pointer pointer' shapes isNull _
    obtain rfl : pointer' = none := isNull
    refine ⟨pointer, links, fun fuel _ => by cases fuel <;> cases pointer <;> rfl, ?_,
      fun _ _ => rfl, fun _ _ _ => ⟨rfl, rfl, rfl⟩⟩
    rwa [skewHeapMerge_null_right]
  · intro e left right e' left' right' intoLeft intoRight links pointer pointer' shapes shapes' distinct
    obtain ⟨isRoot, leftShapes, rightShapes, leftParent, rightParent⟩ := id shapes
    obtain ⟨isRoot', leftShapes', rightShapes', leftParent', rightParent'⟩ := id shapes'
    subst isRoot isRoot'
    obtain ⟨distinctA, distinctB, across⟩ := List.nodup_append.mp distinct
    obtain ⟨absent, belowA⟩ := List.nodup_cons.mp distinctA
    obtain ⟨absent', belowB⟩ := List.nodup_cons.mp distinctB
    obtain ⟨leftDistinct, rightDistinct, siblings⟩ := List.nodup_append.mp belowA
    obtain ⟨leftDistinct', rightDistinct', siblings'⟩ := List.nodup_append.mp belowB
    have inA : ∀ other, other ∈ left.entries ∨ other ∈ right.entries →
        other ∈ (node e left right).entries := fun other member =>
      List.mem_cons_of_mem _ (List.mem_append.mpr member)
    have inB : ∀ other, other ∈ left'.entries ∨ other ∈ right'.entries →
        other ∈ (node e' left' right').entries := fun other member =>
      List.mem_cons_of_mem _ (List.mem_append.mpr member)
    rw [skewHeapMerge_nodes]
    by_cases smaller : comp e e' = -1
    · rw [if_pos smaller]
      have fewer : (right.entries ++ (node e' left' right').entries).Nodup :=
        List.nodup_append.mpr ⟨rightDistinct, distinctB, fun x xMember y yMember =>
          across x (inA x (Or.inr xMember)) y yMember⟩
      obtain ⟨l, links₁, returns, outcome⟩ := intoLeft links _ _ rightShapes shapes' fewer
      have mergedDistinct := ((@entries_merge _ comp right (node e' left' right')).nodup_iff).mpr fewer
      obtain ⟨lastShapes, lastParent, lastOthers⟩ := outcome.under
        (fun other => mem_merge.mp) mergedDistinct leftShapes leftParent leftDistinct
        ⟨fun member => absent (List.mem_append_left _ member),
          fun member => absent (List.mem_append_right _ member),
          fun member => across e List.mem_cons_self e member rfl⟩
        (fun other member => ⟨fun member' => siblings other member other member' rfl,
          fun member' => across other (inA other (Or.inl member)) other member' rfl⟩)
      refine ⟨some e, _, fun fuel enough => ?_, lastShapes, ?_, ?_⟩
      · simp only [SkewHeap.size] at enough
        obtain ⟨fuel, rfl⟩ : ∃ smaller, fuel = smaller + 1 := ⟨fuel - 1, by omega⟩
        rw [mergeLinks, if_pos smaller]
        have done := returns fuel (by simp only [SkewHeap.size]; omega)
        rw [done]
        rfl
      · rintro root ⟨⟩
        exact lastParent
      · intro other notA notB
        exact lastOthers other (fun same => notA (same ▸ List.mem_cons_self))
          (fun member => notA (inA other (Or.inr member))) notB
    · rw [if_neg smaller]
      have fewer : ((node e left right).entries ++ right'.entries).Nodup :=
        List.nodup_append.mpr ⟨distinctA, rightDistinct', fun x xMember y yMember =>
          across x xMember y (inB y (Or.inr yMember))⟩
      obtain ⟨l, links₁, returns, outcome⟩ := intoRight links _ _ shapes rightShapes' fewer
      have mergedDistinct := ((@entries_merge _ comp (node e left right) right').nodup_iff).mpr fewer
      obtain ⟨lastShapes, lastParent, lastOthers⟩ := outcome.under
        (fun other => mem_merge.mp) mergedDistinct leftShapes' leftParent' leftDistinct'
        ⟨fun member => absent' (List.mem_append_left _ member),
          fun member => across e' member e' List.mem_cons_self rfl,
          fun member => absent' (List.mem_append_right _ member)⟩
        (fun other member => ⟨fun member' => across other member' other (inB other (Or.inl member)) rfl,
          fun member' => siblings' other member other member' rfl⟩)
      refine ⟨some e', _, fun fuel enough => ?_, lastShapes, ?_, ?_⟩
      · simp only [SkewHeap.size] at enough
        obtain ⟨fuel, rfl⟩ : ∃ smaller, fuel = smaller + 1 := ⟨fuel - 1, by omega⟩
        rw [mergeLinks, if_neg smaller]
        have done := returns fuel (by simp only [SkewHeap.size]; omega)
        rw [done]
        rfl
      · rintro root ⟨⟩
        exact lastParent
      · intro other notA notB
        exact lastOthers other (fun same => notB (same ▸ List.mem_cons_self)) notA
          (fun member => notB (inB other (Or.inr member)))

/-- The root of a merged heap was a root. -/
theorem root_merge {a b : SkewHeap Nat} :
    (skewHeapMerge comp a b).root = a.root ∨ (skewHeapMerge comp a b).root = b.root := by
  cases a with
  | null =>
      rw [skewHeapMerge_null_left]
      exact Or.inr rfl
  | node entry left right =>
      cases b with
      | null =>
          rw [skewHeapMerge_null_right]
          exact Or.inl rfl
      | node entry' left' right' =>
          rw [skewHeapMerge_nodes]
          split_ifs
          · exact Or.inl rfl
          · exact Or.inr rfl

/-- `skew_heap_insert` -/
theorem insertLinks_spec {b : Nat} (shapes : Shapes links pointer tree)
    (distinct : tree.entries.Nodup) (absent : b ∉ tree.entries)
    (rootParent : ∀ root, pointer = some root → links.parent root = none) :
    ∃ result links', Returns (fun fuel => insertLinks comp fuel links pointer b) (result, links') ∧
      Shapes links' result (skewHeapInsert comp tree b) ∧
      ∀ root, result = some root → links'.parent root = none := by
  have apart : ∀ other ∈ tree.entries, other ≠ b := fun other member same => absent (same ▸ member)
  have before : Shapes (links.init b) pointer tree := by
    refine shapes.congr (fun other member => ⟨?_, ?_⟩) (fun other member _ => ?_) distinct
    · exact Function.update_of_ne (apart other member) _ _
    · exact Function.update_of_ne (apart other member) _ _
    · exact Function.update_of_ne (apart other member) _ _
  have lefts : (links.init b).left b = none := Function.update_self _ _ _
  have rights : (links.init b).right b = none := Function.update_self _ _ _
  have single : Shapes (links.init b) (some b) (node b null null) :=
    ⟨rfl, lefts, rights, fun child isChild => (nomatch lefts.symm.trans isChild),
      fun child isChild => (nomatch rights.symm.trans isChild)⟩
  have both : (tree.entries ++ (node b null null).entries).Nodup :=
    List.nodup_append.mpr ⟨distinct, List.pairwise_singleton _ b, fun other member other' member' =>
      fun same => apart other member (same.trans (List.mem_singleton.mp member'))⟩
  obtain ⟨result, links', returns, outcome⟩ :=
    @mergeLinks_spec comp tree (node b null null) (links.init b) pointer (some b) before single both
  refine ⟨result, links', ⟨_, returns⟩, outcome.shapes, fun root isRoot => ?_⟩
  rw [outcome.rootParent root isRoot]
  rcases @root_merge comp tree (node b null null) with isOld | isNew
  · have atRoot : pointer = some root := by
      rw [shapes.root_eq, ← isOld, ← outcome.shapes.root_eq]
      exact isRoot
    have notNew : root ≠ b := apart root (shapes.root_mem atRoot)
    exact (Function.update_of_ne notNew _ _).trans (rootParent root atRoot)
  · obtain rfl : root = b := by
      have same := outcome.shapes.root_eq.symm.trans isRoot
      rw [isNew] at same
      exact (Option.some.inj same).symm
    exact Function.update_self _ _ _

/-! ## Removal -/

/-- What a removal leaves below the root: the merged subtrees of `b` under its parent `p`. -/
structure Grafted (links : HeapLinks) (b p : Nat) (lt rt : SkewHeap Nat) (tree : SkewHeap Nat)
    (rep : Option Nat) (links' : HeapLinks) : Prop where
  shapes : Shapes links' rep tree
  repParent : ∀ root, rep = some root → links'.parent root = some p
  others : ∀ node, node ∉ lt.entries → node ∉ rt.entries →
    links'.parent node = links.parent node ∧
      (node ≠ p → links'.left node = links.left node ∧ links'.right node = links.right node)
  child : (links.left p = some b → links'.left p = rep ∧ links'.right p = links.right p) ∧
    (links.left p ≠ some b → links'.left p = links.left p ∧ links'.right p = rep)

/-- The part of a heap that has neither `b` nor its parent. -/
theorem Grafted.untouched {b p above : Nat} {lt rt merged : SkewHeap Nat} {rep : Option Nat}
    (grafted : Grafted links b p lt rt merged rep links') (shapes : Shapes links pointer tree)
    (parents : ∀ child, pointer = some child → links.parent child = some above)
    (notParent : p ∉ tree.entries)
    (apart : ∀ node ∈ tree.entries, node ∉ lt.entries ++ rt.entries)
    (distinct : tree.entries.Nodup) :
    Shapes links' pointer tree ∧
      ∀ child, pointer = some child → links'.parent child = some above := by
  have same : ∀ node ∈ tree.entries, links'.parent node = links.parent node ∧
      (node ≠ p → links'.left node = links.left node ∧ links'.right node = links.right node) :=
    fun node member => grafted.others node
      (fun inLeft => apart node member (List.mem_append_left _ inLeft))
      (fun inRight => apart node member (List.mem_append_right _ inRight))
  refine ⟨shapes.congr (fun node member => ?_) (fun node member _ => (same node member).1) distinct,
    fun child isChild => ?_⟩
  · exact (same node member).2 fun isParent => notParent (isParent ▸ member)
  · rw [(same child (shapes.root_mem isChild)).1]
    exact parents child isChild

/-- Where a node stands below the root. -/
structure StandsBelow (comp : Nat → Nat → Int) (links : HeapLinks) (pointer : Option Nat)
    (tree : SkewHeap Nat) (b p : Nat) (lt rt : SkewHeap Nat) : Prop where
  parent : links.parent b = some p
  parentMem : p ∈ tree.entries
  left : Shapes links (links.left b) lt
  right : Shapes links (links.right b) rt
  distinct : (lt.entries ++ rt.entries).Nodup
  below : ∀ node ∈ lt.entries ++ rt.entries, node ∈ tree.entries ∧ pointer ≠ some node ∧ node ≠ p
  removes : ∀ {rep links'}, Grafted links b p lt rt (skewHeapMerge comp lt rt) rep links' →
    Shapes links' pointer (skewHeapRemove comp tree b)

/-- The node above the subtree that `b` stands in. -/
theorem StandsBelow.above {b p entry : Nat} {lt rt : SkewHeap Nat} {rep : Option Nat}
    (stands : StandsBelow comp links pointer tree b p lt rt) (absent : entry ∉ tree.entries)
    (parents : ∀ child, pointer = some child → links.parent child = some entry)
    (grafted : Grafted links b p lt rt (skewHeapMerge comp lt rt) rep links') :
    links'.left entry = links.left entry ∧ links'.right entry = links.right entry ∧
      ∀ child, pointer = some child → links'.parent child = some entry := by
  have notBelow : ∀ node, node ∉ tree.entries ∨ pointer = some node →
      node ∉ lt.entries ∧ node ∉ rt.entries := by
    intro node outside
    constructor <;> intro member
    · have below := stands.below node (List.mem_append_left _ member)
      exact outside.elim (fun out => out below.1) below.2.1
    · have below := stands.below node (List.mem_append_right _ member)
      exact outside.elim (fun out => out below.1) below.2.1
  obtain ⟨notLeft, notRight⟩ := notBelow entry (Or.inl absent)
  have fields := (grafted.others entry notLeft notRight).2 fun same =>
    absent (same ▸ stands.parentMem)
  refine ⟨fields.1, fields.2, fun child isChild => ?_⟩
  obtain ⟨notLeft, notRight⟩ := notBelow child (Or.inr isChild)
  rw [(grafted.others child notLeft notRight).1]
  exact parents child isChild

theorem Shapes.standsBelow {b : Nat} (shapes : Shapes links pointer tree)
    (distinct : tree.entries.Nodup) (member : b ∈ tree.entries) (notRoot : pointer ≠ some b) :
    ∃ p lt rt, StandsBelow comp links pointer tree b p lt rt := by
  induction tree generalizing pointer with
  | null => exact absurd member List.not_mem_nil
  | node entry l r leftHypothesis rightHypothesis =>
      obtain ⟨rfl, leftShapes, rightShapes, leftParent, rightParent⟩ := shapes
      obtain ⟨absent, belowEntry⟩ := List.nodup_cons.mp distinct
      obtain ⟨leftDistinct, rightDistinct, apart⟩ := List.nodup_append.mp belowEntry
      have notEntry : entry ≠ b := fun same => notRoot (congrArg some same)
      have under : ∀ other ∈ l.entries ++ r.entries, other ∈ (node entry l r).entries ∧
          some entry ≠ some other ∧ other ≠ entry := by
        intro other member
        have notTop : other ≠ entry := fun same => absent (same ▸ member)
        exact ⟨List.mem_cons_of_mem _ member, fun same => notTop (Option.some.inj same).symm, notTop⟩
      have entryLeft : entry ∉ l.entries := fun member => absent (List.mem_append_left _ member)
      have entryRight : entry ∉ r.entries := fun member => absent (List.mem_append_right _ member)
      have below := (List.mem_cons.mp member).resolve_left (Ne.symm notEntry)
      have notBoth : ∀ node ∈ l.entries, node ∉ r.entries := fun node inLeft inRight =>
        apart node inLeft node inRight rfl
      rcases List.mem_append.mp below with inLeft | inRight
      · have removed : skewHeapRemove comp (node entry l r) b =
            node entry (skewHeapRemove comp l b) r := by
          rw [skewHeapRemove, if_neg notEntry, skewHeapRemove_absent (notBoth b inLeft)]
        by_cases isChild : links.left entry = some b
        · cases l with
          | null => exact absurd inLeft List.not_mem_nil
          | node top lt rt =>
              obtain rfl : b = top := Option.some.inj (isChild.symm.trans leftShapes.1)
              refine ⟨entry, lt, rt, leftParent b isChild, List.mem_cons_self, leftShapes.2.1,
                leftShapes.2.2.1, (List.nodup_cons.mp leftDistinct).2, fun node member => ?_,
                fun {rep links'} grafted => ?_⟩
              · exact under node (List.mem_append_left _ (List.mem_cons_of_mem b member))
              · obtain ⟨newLeft, sameRight⟩ := grafted.child.1 isChild
                obtain ⟨sibling, siblingParent⟩ := grafted.untouched rightShapes rightParent entryRight
                  (fun node member member' => notBoth node (List.mem_cons_of_mem b member') member)
                  rightDistinct
                rw [removed, skewHeapRemove, if_pos rfl]
                refine ⟨rfl, ?_, ?_, ?_, ?_⟩
                · rw [newLeft]
                  exact grafted.shapes
                · rwa [sameRight]
                · rw [newLeft]
                  exact grafted.repParent
                · rwa [sameRight]
        · obtain ⟨p, lt, rt, stands⟩ := leftHypothesis leftShapes leftDistinct inLeft isChild
          refine ⟨p, lt, rt, stands.parent, List.mem_cons_of_mem _ (List.mem_append_left _
            stands.parentMem), stands.left, stands.right, stands.distinct, fun node member => ?_,
            fun {rep links'} grafted => ?_⟩
          · obtain ⟨inTree, _, notParent⟩ := stands.below node member
            have inBoth := under node (List.mem_append_left _ inTree)
            exact ⟨inBoth.1, inBoth.2.1, notParent⟩
          · obtain ⟨sameLeft, sameRight, childParent⟩ :=
              stands.above entryLeft leftParent grafted
            obtain ⟨sibling, siblingParent⟩ := grafted.untouched rightShapes rightParent
              (notBoth p stands.parentMem)
              (fun node member member' => notBoth node (stands.below node member').1 member)
              rightDistinct
            rw [removed]
            refine ⟨rfl, ?_, ?_, ?_, ?_⟩
            · rw [sameLeft]
              exact stands.removes grafted
            · rwa [sameRight]
            · rwa [sameLeft]
            · rwa [sameRight]
      · have notLeft : b ∉ l.entries := fun inLeft => notBoth b inLeft inRight
        have removed : skewHeapRemove comp (node entry l r) b =
            node entry l (skewHeapRemove comp r b) := by
          rw [skewHeapRemove, if_neg notEntry, skewHeapRemove_absent notLeft]
        by_cases isChild : links.right entry = some b
        · cases r with
          | null => exact absurd inRight List.not_mem_nil
          | node top lt rt =>
              obtain rfl : b = top := Option.some.inj (isChild.symm.trans rightShapes.1)
              refine ⟨entry, lt, rt, rightParent b isChild, List.mem_cons_self, rightShapes.2.1,
                rightShapes.2.2.1, (List.nodup_cons.mp rightDistinct).2, fun node member => ?_,
                fun {rep links'} grafted => ?_⟩
              · exact under node (List.mem_append_right _ (List.mem_cons_of_mem b member))
              · have notLeftChild : links.left entry ≠ some b := fun same =>
                  notLeft (leftShapes.root_mem same)
                obtain ⟨sameLeft, newRight⟩ := grafted.child.2 notLeftChild
                obtain ⟨sibling, siblingParent⟩ := grafted.untouched leftShapes leftParent entryLeft
                  (fun node member member' => notBoth node member (List.mem_cons_of_mem b member'))
                  leftDistinct
                rw [removed, skewHeapRemove, if_pos rfl]
                refine ⟨rfl, ?_, ?_, ?_, ?_⟩
                · rwa [sameLeft]
                · rw [newRight]
                  exact grafted.shapes
                · rwa [sameLeft]
                · rw [newRight]
                  exact grafted.repParent
        · obtain ⟨p, lt, rt, stands⟩ := rightHypothesis rightShapes rightDistinct inRight isChild
          refine ⟨p, lt, rt, stands.parent, List.mem_cons_of_mem _ (List.mem_append_right _
            stands.parentMem), stands.left, stands.right, stands.distinct, fun node member => ?_,
            fun {rep links'} grafted => ?_⟩
          · obtain ⟨inTree, _, notParent⟩ := stands.below node member
            have inBoth := under node (List.mem_append_right _ inTree)
            exact ⟨inBoth.1, inBoth.2.1, notParent⟩
          · obtain ⟨sameLeft, sameRight, childParent⟩ :=
              stands.above entryRight rightParent grafted
            obtain ⟨sibling, siblingParent⟩ := grafted.untouched leftShapes leftParent
              (fun inLeft => notBoth p inLeft stands.parentMem)
              (fun node member member' => notBoth node member (stands.below node member').1)
              leftDistinct
            rw [removed]
            refine ⟨rfl, ?_, ?_, ?_, ?_⟩
            · rwa [sameLeft]
            · rw [sameRight]
              exact stands.removes grafted
            · rwa [sameLeft]
            · rwa [sameRight]

theorem StandsBelow.grafted {b p : Nat} {lt rt : SkewHeap Nat} {rep : Option Nat}
    (stands : StandsBelow comp links pointer tree b p lt rt)
    (outcome : LinksMerged links lt rt (skewHeapMerge comp lt rt) rep links') :
    Grafted links b p lt rt (skewHeapMerge comp lt rt) rep
      ((links'.setParent rep (some p)).graft b p rep) := by
  have notBelow : ∀ node ∈ lt.entries ++ rt.entries, node ≠ p := fun node member =>
    (stands.below node member).2.2
  have pLeft : p ∉ lt.entries := fun member => notBelow p (List.mem_append_left _ member) rfl
  have pRight : p ∉ rt.entries := fun member => notBelow p (List.mem_append_right _ member) rfl
  have lefts := setParent_left links' rep (some p)
  have rights := setParent_right links' rep (some p)
  have atParent := outcome.others p pLeft pRight
  -- the parents are those of the merge and of the new root
  have parents : ((links'.setParent rep (some p)).graft b p rep).parent =
      (links'.setParent rep (some p)).parent := by
    unfold HeapLinks.graft
    split_ifs <;> rfl
  have children : ∀ node, node ≠ p →
      ((links'.setParent rep (some p)).graft b p rep).left node = links'.left node ∧
        ((links'.setParent rep (some p)).graft b p rep).right node = links'.right node := by
    intro node apart
    unfold HeapLinks.graft
    split_ifs
    · exact ⟨(Function.update_of_ne apart _ _).trans (congrFun lefts node), congrFun rights node⟩
    · exact ⟨congrFun lefts node, (Function.update_of_ne apart _ _).trans (congrFun rights node)⟩
  refine ⟨?_, ?_, ?_, ?_, ?_⟩
  · refine outcome.shapes.congr (fun node member => ?_) (fun node member notRoot => ?_) ?_
    · exact children node (notBelow node (List.mem_append.mpr (mem_merge.mp member)))
    · rw [parents]
      exact setParent_of_ne _ _ notRoot
    · exact (entries_merge lt rt).nodup_iff.mpr stands.distinct
  · intro root isRoot
    rw [parents, isRoot]
    exact setParent_self _ _ _
  · intro node notLeft notRight
    obtain ⟨sameParent, sameLeft, sameRight⟩ := outcome.others node notLeft notRight
    refine ⟨?_, fun apart => ?_⟩
    · have notRoot : rep ≠ some node := fun same =>
        (mem_merge.mp (outcome.shapes.root_mem same)).elim notLeft notRight
      rw [parents, setParent_of_ne _ _ notRoot]
      exact sameParent
    · rw [(children node apart).1, (children node apart).2]
      exact ⟨sameLeft, sameRight⟩
  · intro isLeft
    have isLeft' : (links'.setParent rep (some p)).left p = some b := by
      rw [lefts, atParent.2.1]
      exact isLeft
    rw [HeapLinks.graft, if_pos isLeft']
    exact ⟨Function.update_self _ _ _, (congrFun rights p).trans atParent.2.2⟩
  · intro isRight
    have isRight' : (links'.setParent rep (some p)).left p ≠ some b := by
      rw [lefts, atParent.2.1]
      exact isRight
    rw [HeapLinks.graft, if_neg isRight']
    exact ⟨(congrFun lefts p).trans atParent.2.1, Function.update_self _ _ _⟩

/-- `skew_heap_remove` -/
theorem removeLinks_spec {b : Nat} (shapes : Shapes links pointer tree)
    (distinct : tree.entries.Nodup) (member : b ∈ tree.entries)
    (rootParent : ∀ root, pointer = some root → links.parent root = none) :
    ∃ result links', Returns (fun fuel => removeLinks comp fuel links pointer b) (result, links') ∧
      Shapes links' result (skewHeapRemove comp tree b) ∧
      ∀ root, result = some root → links'.parent root = none := by
  by_cases isRoot : pointer = some b
  · cases tree with
    | null => exact absurd member List.not_mem_nil
    | node top lt rt =>
        obtain rfl : b = top := Option.some.inj (isRoot.symm.trans shapes.1)
        have noParent := rootParent b isRoot
        have below := (List.nodup_cons.mp distinct).2
        obtain ⟨rep, links', returns, outcome⟩ :=
          @mergeLinks_spec comp lt rt links _ _ shapes.2.1 shapes.2.2.1 below
        refine ⟨rep, links'.setParent rep none, ⟨lt.size + rt.size, fun fuel enough => ?_⟩, ?_, ?_⟩
        · dsimp only
          rw [removeLinks, returns fuel enough, noParent]
          rfl
        · rw [skewHeapRemove, if_pos rfl]
          refine outcome.shapes.congr (fun node _ => ?_) (fun node _ notRoot => ?_)
            ((entries_merge lt rt).nodup_iff.mpr below)
          · rw [setParent_left, setParent_right]
            exact ⟨rfl, rfl⟩
          · exact setParent_of_ne _ _ notRoot
        · rintro root rfl
          exact setParent_self _ _ _
  · obtain ⟨p, lt, rt, stands⟩ := @Shapes.standsBelow comp _ _ _ b shapes distinct member isRoot
    obtain ⟨rep, links', returns, outcome⟩ :=
      @mergeLinks_spec comp lt rt links _ _ stands.left stands.right stands.distinct
    have grafted := stands.grafted outcome
    refine ⟨pointer, (links'.setParent rep (some p)).graft b p rep,
      ⟨lt.size + rt.size, fun fuel enough => ?_⟩, stands.removes grafted, fun root atRoot => ?_⟩
    · dsimp only
      rw [removeLinks, returns fuel enough, stands.parent]
      rfl
    · have outside : ∀ node, node ∈ lt.entries ++ rt.entries → node ≠ root := by
        rintro node inBelow rfl
        exact (stands.below node inBelow).2.1 atRoot
      rw [(grafted.others root (fun inLeft => outside root (List.mem_append_left _ inLeft) rfl)
        (fun inRight => outside root (List.mem_append_right _ inRight) rfl)).1]
      exact rootParent root atRoot

end UCore.Libs
