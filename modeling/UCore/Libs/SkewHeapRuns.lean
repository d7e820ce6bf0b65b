import UCore.Libs.SkewHeapLinks

/-!
Contract: the insertions and removals on a skew heap over a whole run.

Owns:
- the comparisons that order the nodes of a heap;
- the runs of `skew_heap_insert` and `skew_heap_remove`, where the key of the root may change just
  before it is removed;
- the heap after every such run.

Does not own: the operations themselves, which are in `Libs.SkewHeapLinks`.
-/

set_option autoImplicit false

namespace UCore.Libs

open UCore.Lib
open SkewHeap (null)

/-- The comparison returns -1, 0 or 1, and orders the nodes. -/
structure TotalPreorderOn (comp : Nat → Nat → Int) (nodes : List Nat) : Prop where
  values : ∀ x ∈ nodes, ∀ y ∈ nodes, comp x y = -1 ∨ comp x y = 0 ∨ comp x y = 1
  converse : ∀ x ∈ nodes, ∀ y ∈ nodes, comp x y = -1 ↔ comp y x = 1
  trans : ∀ x ∈ nodes, ∀ y ∈ nodes, ∀ z ∈ nodes, comp x y ≠ 1 → comp y z ≠ 1 → comp x z ≠ 1

/-- A comparison returns the same on these nodes. -/
def SameOn (nodes : List Nat) (comp comp' : Nat → Nat → Int) : Prop :=
  ∀ x ∈ nodes, ∀ y ∈ nodes, comp x y = comp' x y

/-- The heap, the nodes it should contain, and the comparison of the last operation. -/
structure HeapState where
  links : HeapLinks
  root : Option Nat
  members : List Nat
  comp : Nat → Nat → Int

/-- Every operation is called with the comparison of the keys as they are then. -/
inductive HeapEvent
  | insert (comp : Nat → Nat → Int) (node : Nat)
  | remove (comp : Nat → Nat → Int) (node : Nat)

/-- The keys in the heap do not change, but the key of the root may change before its removal. -/
def HeapState.Admits (state : HeapState) : HeapEvent → Prop
  | .insert comp node => node ∉ state.members ∧ TotalPreorderOn comp (node :: state.members) ∧
      SameOn state.members comp state.comp
  | .remove comp node => node ∈ state.members ∧ TotalPreorderOn comp state.members ∧
      SameOn (state.members.filter fun other => !(state.root == some node && other == node)) comp
        state.comp

def HeapStep (before : HeapState) (event : HeapEvent) (after : HeapState) : Prop :=
  before.Admits event ∧ match event with
    | .insert comp node =>
        Returns (fun fuel => insertLinks comp fuel before.links before.root node)
          (after.root, after.links) ∧ after.members = node :: before.members ∧ after.comp = comp
    | .remove comp node =>
        Returns (fun fuel => removeLinks comp fuel before.links before.root node)
          (after.root, after.links) ∧ after.members = before.members.erase node ∧ after.comp = comp

def emptyHeap (links : HeapLinks) (comp : Nat → Nat → Int) : HeapState := ⟨links, none, [], comp⟩

/-- The pointers are those of a heap-ordered tree of the members. -/
structure HeapHolds (state : HeapState) (tree : SkewHeap Nat) : Prop where
  shapes : Shapes state.links state.root tree
  rootParent : ∀ root, state.root = some root → state.links.parent root = none
  entries : tree.entries.Perm state.members
  distinct : state.members.Nodup
  preorder : TotalPreorderOn state.comp state.members
  ordered : tree.OrderedBy fun upper lower => state.comp upper lower ≠ 1

variable {state after : HeapState} {tree : SkewHeap Nat} {comp comp' : Nat → Nat → Int}
  {nodes nodes' : List Nat}

namespace TotalPreorderOn

theorem mono (preorder : TotalPreorderOn comp nodes) (fewer : nodes' ⊆ nodes) :
    TotalPreorderOn comp nodes' where
  values := fun x xMember y yMember => preorder.values x (fewer xMember) y (fewer yMember)
  converse := fun x xMember y yMember => preorder.converse x (fewer xMember) y (fewer yMember)
  trans := fun x xMember y yMember z zMember =>
    preorder.trans x (fewer xMember) y (fewer yMember) z (fewer zMember)

/-- The branch that a merge takes keeps the order. -/
theorem agrees (preorder : TotalPreorderOn comp nodes) {x y : Nat} (xMember : x ∈ nodes)
    (yMember : y ∈ nodes) : if comp x y = -1 then comp x y ≠ 1 else comp y x ≠ 1 := by
  split_ifs with smaller
  · omega
  · exact fun greater => smaller ((preorder.converse x xMember y yMember).mpr greater)

theorem refl (preorder : TotalPreorderOn comp nodes) {x : Nat} (member : x ∈ nodes) :
    comp x x ≠ 1 := by
  intro greater
  have smaller := (preorder.converse x member x member).mpr greater
  omega

end TotalPreorderOn

namespace HeapHolds

theorem treeDistinct (holds : HeapHolds state tree) : tree.entries.Nodup :=
  holds.entries.nodup_iff.mpr holds.distinct

/-- An insertion returns, and the new node is in the heap. -/
theorem insert {node : Nat} (holds : HeapHolds state tree)
    (admitted : state.Admits (.insert comp node)) :
    ∃ result links', Returns (fun fuel => insertLinks comp fuel state.links state.root node)
        (result, links') ∧
      HeapHolds ⟨links', result, node :: state.members, comp⟩ (skewHeapInsert comp tree node) := by
  obtain ⟨absent, preorder, same⟩ := admitted
  have notInTree : node ∉ tree.entries := fun member => absent (holds.entries.mem_iff.mp member)
  obtain ⟨result, links', returns, shapes, rootParent⟩ :=
    @insertLinks_spec comp _ _ _ node holds.shapes holds.treeDistinct notInTree holds.rootParent
  have inNodes : ∀ entry ∈ tree.entries, entry ∈ node :: state.members := fun entry member =>
    List.mem_cons_of_mem _ (holds.entries.mem_iff.mp member)
  refine ⟨result, links', returns, shapes, rootParent, ?_, ?_, preorder, ?_⟩
  · exact (entries_insert tree node).trans (holds.entries.cons node)
  · exact List.nodup_cons.mpr ⟨absent, holds.distinct⟩
  · have ordered : tree.OrderedBy fun upper lower => comp upper lower ≠ 1 := by
      refine holds.ordered.congr fun upper upperMember lower lowerMember below => ?_
      rwa [same upper (holds.entries.mem_iff.mp upperMember) lower
        (holds.entries.mem_iff.mp lowerMember)]
    have single : (SkewHeap.node node null null).OrderedBy fun upper lower => comp upper lower ≠ 1 :=
      ⟨fun lower member => absurd member List.not_mem_nil, trivial, trivial⟩
    refine @orderedBy_merge _ comp _ (· ∈ node :: state.members)
      (fun {x y z} xMember yMember zMember => preorder.trans x xMember y yMember z zMember)
      tree _ ordered single inNodes (fun entry member => ?_) fun x xMember y yMember => ?_
    · rw [List.mem_singleton.mp member]
      exact List.mem_cons_self
    · rw [List.mem_singleton.mp yMember]
      exact preorder.agrees (inNodes x xMember) List.mem_cons_self

/-- A removal returns, and the other nodes are in the heap. -/
theorem remove {node : Nat} (holds : HeapHolds state tree)
    (admitted : state.Admits (.remove comp node)) :
    ∃ result links', Returns (fun fuel => removeLinks comp fuel state.links state.root node)
        (result, links') ∧
      HeapHolds ⟨links', result, state.members.erase node, comp⟩ (skewHeapRemove comp tree node) := by
  obtain ⟨present, preorder, same⟩ := admitted
  have inTree : node ∈ tree.entries := holds.entries.mem_iff.mpr present
  obtain ⟨result, links', returns, shapes, rootParent⟩ :=
    @removeLinks_spec comp _ _ _ node holds.shapes holds.treeDistinct inTree holds.rootParent
  have left : (skewHeapRemove comp tree node).entries.Perm (state.members.erase node) :=
    (entries_remove holds.treeDistinct).trans (holds.entries.erase node)
  -- the comparison can only have changed for the root, and then the root goes
  have sameBut : ∀ x ∈ state.members, ∀ y ∈ state.members,
      (state.root = some node → x ≠ node ∧ y ≠ node) → comp x y = state.comp x y := by
    intro x xMember y yMember notBoth
    refine same x (List.mem_filter.mpr ⟨xMember, ?_⟩) y (List.mem_filter.mpr ⟨yMember, ?_⟩)
    · by_cases isRoot : state.root = some node
      · simp [(notBoth isRoot).1]
      · simp [isRoot]
    · by_cases isRoot : state.root = some node
      · simp [(notBoth isRoot).2]
      · simp [isRoot]
  refine ⟨result, links', returns, shapes, rootParent, left, holds.distinct.erase node,
    preorder.mono (List.erase_subset), ?_⟩
  have ordered : (skewHeapRemove comp tree node).OrderedBy
      fun upper lower => state.comp upper lower ≠ 1 := by
    refine @orderedBy_remove _ comp _ _ (· ∈ state.members)
      (fun {x y z} xMember yMember zMember => holds.preorder.trans x xMember y yMember z zMember)
      tree node holds.ordered (fun other member _ => holds.entries.mem_iff.mp member)
      (fun x xMember y yMember notRoot notRoot' => ?_) holds.treeDistinct
    have xMember := holds.entries.mem_iff.mp xMember
    have yMember := holds.entries.mem_iff.mp yMember
    rw [← holds.shapes.root_eq] at notRoot notRoot'
    rw [sameBut x xMember y yMember fun isRoot =>
      ⟨fun same => notRoot (same ▸ isRoot), fun same => notRoot' (same ▸ isRoot)⟩]
    exact holds.preorder.agrees xMember yMember
  refine ordered.congr fun upper upperMember lower lowerMember below => ?_
  have upperLeft := holds.distinct.mem_erase_iff.mp (left.mem_iff.mp upperMember)
  have lowerLeft := holds.distinct.mem_erase_iff.mp (left.mem_iff.mp lowerMember)
  change comp upper lower ≠ 1
  rwa [sameBut upper upperLeft.2 lower lowerLeft.2 fun _ => ⟨upperLeft.1, lowerLeft.1⟩]

/-- No member goes before the root. -/
theorem root_least (holds : HeapHolds state tree) {root : Nat} (atRoot : state.root = some root) :
    root ∈ state.members ∧ ∀ other ∈ state.members, state.comp root other ≠ 1 := by
  have member := holds.entries.mem_iff.mp (holds.shapes.root_mem atRoot)
  refine ⟨member, fun other otherMember => ?_⟩
  have inTree := holds.entries.mem_iff.mpr otherMember
  cases tree with
  | null => exact absurd inTree List.not_mem_nil
  | node top left right =>
      obtain rfl : root = top := Option.some.inj (atRoot.symm.trans holds.shapes.1)
      rcases List.mem_cons.mp inTree with rfl | below
      · exact holds.preorder.refl member
      · exact holds.ordered.1 other below

theorem step {event : HeapEvent} (holds : HeapHolds state tree) (move : HeapStep state event after) :
    ∃ tree', HeapHolds after tree' := by
  obtain ⟨admitted, outcome⟩ := move
  obtain ⟨links, root, members, comp⟩ := after
  cases event with
  | insert comp node =>
      obtain ⟨result, links', returns, holds'⟩ := holds.insert admitted
      obtain ⟨returned, rfl, rfl⟩ := outcome
      obtain ⟨rfl, rfl⟩ := Prod.mk.inj (returned.unique returns)
      exact ⟨_, holds'⟩
  | remove comp node =>
      obtain ⟨result, links', returns, holds'⟩ := holds.remove admitted
      obtain ⟨returned, rfl, rfl⟩ := outcome
      obtain ⟨rfl, rfl⟩ := Prod.mk.inj (returned.unique returns)
      exact ⟨_, holds'⟩

theorem emptyHeap (links : HeapLinks) (comp : Nat → Nat → Int) :
    HeapHolds (emptyHeap links comp) null where
  shapes := rfl
  rootParent := fun _ isRoot => nomatch isRoot
  entries := List.Perm.refl _
  distinct := List.nodup_nil
  preorder := ⟨fun _ member => absurd member List.not_mem_nil,
    fun _ member => absurd member List.not_mem_nil, fun _ member => absurd member List.not_mem_nil⟩
  ordered := trivial

end HeapHolds

/-- Whatever was inserted and removed, the pointers are those of a heap-ordered tree of the nodes
inserted and not removed, the root is one that no other goes before, and the next operation
returns. -/
theorem skew_heap_order {links : HeapLinks} {comp : Nat → Nat → Int} {events : List HeapEvent}
    {state : HeapState} (run : Run HeapStep (emptyHeap links comp) events state) :
    (∃ tree, Shapes state.links state.root tree ∧ tree.entries.Perm state.members ∧
      tree.entries.Nodup ∧ tree.OrderedBy fun upper lower => state.comp upper lower ≠ 1) ∧
    (state.root = none ↔ state.members = []) ∧
    (∀ root, state.root = some root → state.links.parent root = none ∧ root ∈ state.members ∧
      ∀ other ∈ state.members, state.comp root other ≠ 1) ∧
    ∀ event, state.Admits event → ∃ after, HeapStep state event after := by
  obtain ⟨tree, holds⟩ := run.invariant (fun state => ∃ tree, HeapHolds state tree)
    (fun _ _ _ ⟨_, holds⟩ move => holds.step move) ⟨null, HeapHolds.emptyHeap links comp⟩
  refine ⟨⟨tree, holds.shapes, holds.entries, holds.treeDistinct, holds.ordered⟩, ?_,
    fun root atRoot => ⟨holds.rootParent root atRoot, holds.root_least atRoot⟩,
    fun event admitted => ?_⟩
  · cases tree with
    | null => exact iff_of_true holds.shapes (List.nil_perm.mp holds.entries)
    | node top left right =>
        refine iff_of_false (fun isNone => nomatch isNone.symm.trans holds.shapes.1) fun isEmpty => ?_
        have member := holds.entries.mem_iff.mp (List.mem_cons_self : top ∈ _)
        rw [isEmpty] at member
        exact List.not_mem_nil member
  · cases event with
    | insert comp node =>
        obtain ⟨result, links', returns, _⟩ := holds.insert admitted
        exact ⟨⟨links', result, node :: state.members, comp⟩, admitted, returns, rfl, rfl⟩
    | remove comp node =>
        obtain ⟨result, links', returns, _⟩ := holds.remove admitted
        exact ⟨⟨links', result, state.members.erase node, comp⟩, admitted, returns, rfl, rfl⟩

/-- The comparison of keys. -/
def compareKeys (key : Nat → Nat) (x y : Nat) : Int :=
  if key x < key y then -1 else if key x = key y then 0 else 1

theorem compareKeys_preorder (key : Nat → Nat) (nodes : List Nat) :
    TotalPreorderOn (compareKeys key) nodes := by
  refine ⟨fun x _ y _ => ?_, fun x _ y _ => ?_, fun x _ y _ z _ => ?_⟩ <;> unfold compareKeys <;>
    grind

/-- The keys before and after node 1 gets a larger one. -/
def keysBefore (node : Nat) : Nat := node

def keysAfter (node : Nat) : Nat := if node = 1 then 3 else node

/-- No heap was ever built of these nodes. -/
def freshHeap : HeapState :=
  emptyHeap ⟨fun _ => none, fun _ => none, fun _ => none⟩ (compareKeys keysBefore)

/-- The key of the root rises above the other one just before the root is removed. -/
theorem skew_heap_order_raised : ∃ state : HeapState,
    Run HeapStep freshHeap [.insert (compareKeys keysBefore) 1, .insert (compareKeys keysBefore) 2,
      .remove (compareKeys keysAfter) 1] state ∧
      state.root = some 2 ∧ state.links.parent 2 = none := by
  have anywhere := compareKeys_preorder keysBefore
  obtain ⟨one, first⟩ := (skew_heap_order (.nil freshHeap)).2.2.2
    (.insert (compareKeys keysBefore) 1) ⟨List.not_mem_nil, anywhere _, fun _ _ _ _ => rfl⟩
  obtain ⟨-, -, members, comp⟩ := id first
  have run := Run.single first
  have admitted : one.Admits (.insert (compareKeys keysBefore) 2) := by
    refine ⟨?_, anywhere _, fun x _ y _ => by rw [comp]⟩
    rw [members]
    decide
  obtain ⟨both, second⟩ := (skew_heap_order run).2.2.2 _ admitted
  obtain ⟨-, -, members', comp'⟩ := id second
  have run := run.append (Run.single second)
  rw [members] at members'
  have members' : both.members = [2, 1] := members'
  -- the root is the node with the smaller key
  have isRoot : both.root = some 1 := by
    cases atRoot : both.root with
    | none =>
        have noMembers := (skew_heap_order run).2.1.mp atRoot
        rw [members'] at noMembers
        cases noMembers
    | some root =>
        obtain ⟨-, member, least⟩ := (skew_heap_order run).2.2.1 root atRoot
        rw [members'] at member least
        rw [comp'] at least
        have notTwo : root ≠ 2 := by
          rintro rfl
          exact absurd (least 1 (by decide)) (by decide)
        simp only [List.mem_cons, List.not_mem_nil, or_false] at member
        rw [member.resolve_left notTwo]
  have raised : both.Admits (.remove (compareKeys keysAfter) 1) := by
    refine ⟨by rw [members']; decide, compareKeys_preorder keysAfter _, ?_⟩
    rw [members', isRoot, comp']
    intro x xMember y yMember
    have onlyTwo : ∀ node ∈ ([2, 1] : List Nat).filter
        (fun other => !(some 1 == some 1 && other == 1)), node = 2 := by decide
    rw [onlyTwo x xMember, onlyTwo y yMember]
    rfl
  obtain ⟨last, third⟩ := (skew_heap_order run).2.2.2 _ raised
  obtain ⟨-, -, left, -⟩ := id third
  have run := run.append (Run.single third)
  rw [members'] at left
  have left : last.members = [2] := left
  refine ⟨last, run, ?_⟩
  cases atRoot : last.root with
  | none =>
      have noMembers := (skew_heap_order run).2.1.mp atRoot
      rw [left] at noMembers
      cases noMembers
  | some root =>
      obtain ⟨noParent, member, -⟩ := (skew_heap_order run).2.2.1 root atRoot
      rw [left] at member
      obtain rfl := List.mem_singleton.mp member
      exact ⟨rfl, noParent⟩

end UCore.Libs
