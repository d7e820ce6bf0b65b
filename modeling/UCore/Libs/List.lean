import UCore.Lib.Ring

/-!
Contract: the list operations of `libs/list.h`, as updates of the two link fields.

Owns: one definition per function of the header, and the ring rule of each.

Does not own: the circular-list theory itself, which is `UCore.Lib.Ring`.
-/

set_option autoImplicit false

namespace UCore.Libs

open UCore.Lib

universe u

variable {α : Type u} [DecidableEq α]

/-- `elm->prev = elm->next = elm` -/
def listInit (links : Links α) (elm : α) : Links α :=
  (links.setNext elm elm).setPrev elm elm

/-- `prev->next = next->prev = elm; elm->next = next; elm->prev = prev` -/
def __listAdd (links : Links α) (elm prev next : α) : Links α :=
  let links := links.setPrev next elm
  let links := links.setNext prev elm
  let links := links.setNext elm next
  links.setPrev elm prev

/-- `prev->next = next; next->prev = prev` -/
def __listDel (links : Links α) (prev next : α) : Links α :=
  let links := links.setNext prev next
  links.setPrev next prev

def listAddAfter (links : Links α) (listelm elm : α) : Links α :=
  __listAdd links elm listelm (links.next listelm)

def listAdd (links : Links α) (listelm elm : α) : Links α :=
  listAddAfter links listelm elm

def listAddBefore (links : Links α) (listelm elm : α) : Links α :=
  __listAdd links elm (links.prev listelm) listelm

def listDel (links : Links α) (listelm : α) : Links α :=
  __listDel links (links.prev listelm) (links.next listelm)

def listEmpty (links : Links α) (list : α) : Bool :=
  links.next list = list

def listNext (links : Links α) (listelm : α) : α := links.next listelm

def listPrev (links : Links α) (listelm : α) : α := links.prev listelm

/-! ## Ring rules -/

variable {links : Links α} {head elm : α} {items left right : List α}

theorem listInit_isRing (links : Links α) (head : α) : IsRing (listInit links head) head [] := by
  refine ⟨by simp, ⟨?_, ?_⟩, trivial⟩ <;> simp [listInit]

theorem listEmpty_iff (ring : IsRing links head items) :
    listEmpty links head = true ↔ items = [] := by
  rw [listEmpty, decide_eq_true_iff]
  constructor
  · exact ring.nil_of_next_head
  · rintro rfl
    exact ring.next_head

/-- `list_add` after the last entry of `left`, the head included. -/
theorem listAdd_isRing (ring : IsRing links head (left ++ right))
    (fresh : elm ∉ head :: (left ++ right)) :
    IsRing (listAdd links (left.getLastD head) elm) head (left ++ elm :: right) := by
  rw [listAdd, listAddAfter, ring.linked_gap.1]
  exact ring.insertBetween fresh

/-- `list_add_before` the first entry of `right`, the head included. -/
theorem listAddBefore_isRing (ring : IsRing links head (left ++ right))
    (fresh : elm ∉ head :: (left ++ right)) :
    IsRing (listAddBefore links (right.headD head) elm) head (left ++ elm :: right) := by
  rw [listAddBefore, ring.linked_gap.2]
  exact ring.insertBetween fresh

theorem listDel_isRing (ring : IsRing links head (left ++ elm :: right)) :
    IsRing (listDel links elm) head (left ++ right) := by
  rw [listDel, ring.next_item, ring.prev_item]
  exact ring.join

/-! ## Frame rules -/

variable {other : α} {others : List α}

theorem __listAdd_frame {prev next : α} (ring : IsRing links other others)
    (elmAway : elm ∉ other :: others) (prevAway : prev ∉ other :: others)
    (nextAway : next ∉ other :: others) : IsRing (__listAdd links elm prev next) other others :=
  (((ring.setPrev_of_notMem nextAway).setNext_of_notMem prevAway).setNext_of_notMem
    elmAway).setPrev_of_notMem elmAway

theorem __listDel_frame {prev next : α} (ring : IsRing links other others)
    (prevAway : prev ∉ other :: others) (nextAway : next ∉ other :: others) :
    IsRing (__listDel links prev next) other others :=
  (ring.setNext_of_notMem prevAway).setPrev_of_notMem nextAway

theorem listInit_frame (ring : IsRing links other others) (elmAway : elm ∉ other :: others) :
    IsRing (listInit links elm) other others :=
  (ring.setNext_of_notMem elmAway).setPrev_of_notMem elmAway

end UCore.Libs
