import UCore.Lib.Chain
import UCore.Process.Proc

/-!
Contract: the relation links of processes as lists of children.

Owns:
- `FamilyTree`, which says that the links are those of a list of children for each process;
- what `set_links`, `remove_links` and the loop of `do_exit` do to these lists.

Does not own: which processes exist.
-/

set_option autoImplicit false

namespace UCore.Process

open UCore.Lib

variable {family : Family} {children : Nat → List Nat} {leaving : Option Nat} {proc parent : Nat}

/-- The links are those of the lists of children, the youngest child first. While `leaving` gives
its children away, the first one that is left may still point back to one that is gone. -/
structure FamilyTree (family : Family) (leaving : Option Nat) (children : Nat → List Nat) :
    Prop where
  cptr : ∀ parent, family.cptr parent = (children parent).head?
  chained : ∀ parent, ∃ before, (leaving ≠ some parent → before = none) ∧
    Chained family.optr family.yptr before (children parent)
  nodup : ∀ parent, (children parent).Nodup
  parent : ∀ parent, ∀ proc ∈ children parent, family.parent proc = some parent

namespace FamilyTree

/-- No process is a child twice. -/
theorem unique {other : Nat} (tree : FamilyTree family leaving children)
    (first : proc ∈ children parent) (second : proc ∈ children other) : parent = other := by
  have same := (tree.parent parent proc first).symm.trans (tree.parent other proc second)
  exact Option.some.inj same

/-- The leaving process has no children left. -/
theorem left {gone : Nat} (tree : FamilyTree family (some gone) children)
    (empty : children gone = []) : FamilyTree family none children where
  cptr := tree.cptr
  chained parent := by
    obtain ⟨before, stale, chained⟩ := tree.chained parent
    refine ⟨none, fun _ => rfl, ?_⟩
    by_cases same : parent = gone
    · subst same
      rw [empty]
      trivial
    · rw [stale fun isGone => same (Option.some.inj isGone).symm] at chained
      exact chained
  nodup := tree.nodup
  parent := tree.parent

theorem leave (tree : FamilyTree family none children) (gone : Nat) :
    FamilyTree family (some gone) children where
  cptr := tree.cptr
  chained parent := by
    obtain ⟨before, whole, chained⟩ := tree.chained parent
    exact ⟨before, fun _ => whole nofun, chained⟩
  nodup := tree.nodup
  parent := tree.parent

/-- A process that is nobody's child becomes the youngest child of `parent`. -/
theorem insert (tree : FamilyTree family leaving children) (fresh : ∀ other, proc ∉ children other) :
    FamilyTree (family.insert proc parent) leaving
      (Function.update children parent (proc :: children parent)) where
  cptr other := by
    show Function.update family.cptr parent (some proc) other = _
    by_cases same : other = parent
    · subst same
      rw [Function.update_self, Function.update_self]
      rfl
    · rw [Function.update_of_ne same, Function.update_of_ne same]
      exact tree.cptr other
  chained other := by
    have optr : (family.insert proc parent).optr =
        Chained.pushNext family.optr (children parent).head? proc := by
      rw [← tree.cptr parent]
      rfl
    have yptr : (family.insert proc parent).yptr =
        Chained.pushPrev family.yptr (children parent).head? proc := by
      rw [← tree.cptr parent]
      unfold Family.insert Chained.pushPrev
      cases family.cptr parent <;> rfl
    obtain ⟨before, whole, chained⟩ := tree.chained other
    rw [optr, yptr]
    by_cases same : other = parent
    · subst same
      rw [Function.update_self]
      exact ⟨none, fun _ => rfl, chained.push (fresh other) (tree.nodup other)⟩
    · rw [Function.update_of_ne same]
      refine ⟨before, whole, chained.congr ?_ ?_⟩
      · intro sibling member
        apply Function.update_of_ne
        rintro rfl
        exact fresh other member
      · intro sibling member
        have notNew : sibling ≠ proc := by
          rintro rfl
          exact fresh other member
        unfold Chained.pushPrev
        cases head : (children parent).head? with
        | none => exact Function.update_of_ne notNew _ _
        | some older =>
            have elsewhere : sibling ≠ older := by
              rintro rfl
              exact same (tree.unique member (List.mem_of_head? head))
            exact (Function.update_of_ne elsewhere _ _).trans (Function.update_of_ne notNew _ _)
  nodup other := by
    by_cases same : other = parent
    · subst same
      rw [Function.update_self]
      exact List.nodup_cons.mpr ⟨fresh other, tree.nodup other⟩
    · rw [Function.update_of_ne same]
      exact tree.nodup other
  parent other child member := by
    show Function.update family.parent proc (some parent) child = some other
    by_cases isNew : child = proc
    · subst isNew
      have here : other = parent := by
        by_contra elsewhere
        rw [Function.update_of_ne elsewhere] at member
        exact fresh other member
      rw [Function.update_self, here]
    · rw [Function.update_of_ne isNew]
      apply tree.parent
      by_cases same : other = parent
      · subst same
        rw [Function.update_self] at member
        exact (List.mem_cons.mp member).resolve_left isNew
      · rw [Function.update_of_ne same] at member
        exact member

/-- A child of `parent` is taken off its list. -/
theorem remove (tree : FamilyTree family none children) (member : proc ∈ children parent) :
    FamilyTree (family.remove proc) none
      (Function.update children parent ((children parent).erase proc)) := by
  obtain ⟨before, whole, chained⟩ := tree.chained parent
  obtain rfl := whole nofun
  have isParent := tree.parent parent proc member
  have optr : (family.remove proc).optr = Chained.removeNext family.optr family.yptr proc := by
    unfold Family.remove Chained.removeNext
    cases family.yptr proc <;> rfl
  have yptr : (family.remove proc).yptr = Chained.removePrev family.optr family.yptr proc := by
    unfold Family.remove Chained.removePrev
    cases family.optr proc <;> rfl
  have cptr : (family.remove proc).cptr = if family.yptr proc = none then
      Function.update family.cptr parent (family.optr proc) else family.cptr := by
    unfold Family.remove
    rw [isParent]
    cases family.yptr proc <;> rfl
  constructor
  · intro other
    rw [cptr]
    by_cases same : other = parent
    · subst same
      rw [Function.update_self, chained.head_remove member]
      by_cases first : family.yptr proc = none
      · rw [if_pos first, if_pos first, Function.update_self]
      · rw [if_neg first, if_neg first]
        exact tree.cptr other
    · rw [Function.update_of_ne same]
      by_cases first : family.yptr proc = none
      · rw [if_pos first, Function.update_of_ne same]
        exact tree.cptr other
      · rw [if_neg first]
        exact tree.cptr other
  · intro other
    rw [optr, yptr]
    refine ⟨none, fun _ => rfl, ?_⟩
    by_cases same : other = parent
    · subst same
      rw [Function.update_self]
      exact chained.remove member (tree.nodup other) nofun
    · rw [Function.update_of_ne same]
      obtain ⟨otherBefore, otherWhole, otherChained⟩ := tree.chained other
      obtain rfl := otherWhole nofun
      apply otherChained.congr
      · intro sibling inside
        apply Chained.removeNext_of_ne
        intro points
        rcases chained.prev_mem member with ⟨first, _⟩ | ⟨younger, within, back⟩
        · rw [first] at points
          cases points
        · rw [back] at points
          exact same (tree.unique inside (Option.some.inj points ▸ within))
      · intro sibling inside
        apply Chained.removePrev_of_ne
        intro points
        exact same (tree.unique inside (List.mem_of_mem_tail (chained.next_mem member points)))
  · intro other
    by_cases same : other = parent
    · subst same
      rw [Function.update_self]
      exact (tree.nodup other).erase proc
    · rw [Function.update_of_ne same]
      exact tree.nodup other
  · intro other child inside
    show family.parent child = some other
    apply tree.parent
    by_cases same : other = parent
    · subst same
      rw [Function.update_self] at inside
      exact List.mem_of_mem_erase inside
    · rw [Function.update_of_ne same] at inside
      exact inside

/-- The leaving process drops its youngest child. -/
theorem drop {gone : Nat} {rest : List Nat} (tree : FamilyTree family (some gone) children)
    (youngest : children gone = proc :: rest) :
    FamilyTree { family with cptr := Function.update family.cptr gone (family.optr proc) }
      (some gone) (Function.update children gone rest) where
  cptr other := by
    show Function.update family.cptr gone (family.optr proc) other = _
    by_cases same : other = gone
    · subst same
      obtain ⟨before, _, chained⟩ := tree.chained other
      rw [youngest] at chained
      rw [Function.update_self, Function.update_self]
      exact chained.2.1
    · rw [Function.update_of_ne same, Function.update_of_ne same]
      exact tree.cptr other
  chained other := by
    obtain ⟨before, whole, chained⟩ := tree.chained other
    by_cases same : other = gone
    · subst same
      rw [youngest] at chained
      rw [Function.update_self]
      exact ⟨some proc, fun notGone => absurd rfl notGone, chained.2.2⟩
    · rw [Function.update_of_ne same]
      exact ⟨before, whole, chained⟩
  nodup other := by
    have nodup := tree.nodup other
    by_cases same : other = gone
    · subst same
      rw [youngest] at nodup
      rw [Function.update_self]
      exact (List.nodup_cons.mp nodup).2
    · rw [Function.update_of_ne same]
      exact nodup
  parent other child member := by
    apply tree.parent other
    by_cases same : other = gone
    · subst same
      rw [Function.update_self] at member
      rw [youngest]
      exact List.mem_cons_of_mem _ member
    · rw [Function.update_of_ne same] at member
      exact member

/-- The lists of children when `proc`, the youngest child of `gone`, goes to `initproc`. -/
def adopted (children : Nat → List Nat) (gone proc : Nat) : Nat → List Nat :=
  Function.update (Function.update children gone (children gone).tail) initproc
    (proc :: children initproc)

/-- One round of the loop of `do_exit`. -/
theorem adopt {gone : Nat} {rest : List Nat} (tree : FamilyTree family (some gone) children)
    (notInit : gone ≠ initproc) (youngest : children gone = proc :: rest) :
    FamilyTree (family.adopt gone proc) (some gone) (adopted children gone proc) := by
  have dropped := tree.drop youngest
  have absent : proc ∉ rest := by
    have nodup := tree.nodup gone
    rw [youngest] at nodup
    exact (List.nodup_cons.mp nodup).1
  have fresh : ∀ other, proc ∉ Function.update children gone rest other := by
    intro other
    by_cases same : other = gone
    · rw [same, Function.update_self]
      exact absent
    · rw [Function.update_of_ne same]
      intro member
      apply same
      apply tree.unique member
      rw [youngest]
      exact List.mem_cons_self
  have inserted : FamilyTree (family.adopt gone proc) (some gone) _ :=
    dropped.insert fresh
  rw [Function.update_of_ne notInit.symm] at inserted
  unfold adopted
  rw [youngest]
  exact inserted

theorem mem_adopted {gone other child : Nat} {rest : List Nat}
    (tree : FamilyTree family (some gone) children)
    (youngest : children gone = proc :: rest) :
    child ∈ adopted children gone proc other ↔
      if child = proc then other = initproc else child ∈ children other := by
  unfold adopted
  rw [youngest, List.tail_cons]
  by_cases isInit : other = initproc
  · subst isInit
    rw [Function.update_self, List.mem_cons]
    by_cases same : child = proc
    · simp [same]
    · simp [same]
  · rw [Function.update_of_ne isInit]
    by_cases same : child = proc
    · subst same
      rw [if_pos rfl]
      refine iff_of_false ?_ isInit
      have nodup := tree.nodup gone
      rw [youngest] at nodup
      by_cases here : other = gone
      · rw [here, Function.update_self]
        exact (List.nodup_cons.mp nodup).1
      · rw [Function.update_of_ne here]
        intro member
        apply here
        apply tree.unique member
        rw [youngest]
        exact List.mem_cons_self
    · rw [if_neg same]
      by_cases here : other = gone
      · rw [here, Function.update_self, youngest, List.mem_cons]
        exact (or_iff_right same).symm
      · rw [Function.update_of_ne here]

end FamilyTree

end UCore.Process
