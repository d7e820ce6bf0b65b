import Mathlib.Data.List.Nodup
import Mathlib.Logic.Function.Basic

/-!
Contract: circular doubly linked lists over an arbitrary address type.

Owns:
- the two link fields of every address and their updates;
- `IsRing`, which says that a head and a list of items are linked into one circle in both
  directions, each address once;
- the rules for reading a neighbour, inserting between neighbours and removing an item, and
  the frame rules for updates elsewhere.

Does not own: what an address is, or which data hangs off it.
-/

set_option autoImplicit false

namespace UCore.Lib

universe u

/-- The two link fields of every address. -/
structure Links (α : Type u) where
  next : α → α
  prev : α → α

namespace Links

variable {α : Type u} [DecidableEq α]

def setNext (links : Links α) (address target : α) : Links α :=
  { links with next := Function.update links.next address target }

def setPrev (links : Links α) (address target : α) : Links α :=
  { links with prev := Function.update links.prev address target }

variable (links : Links α) (address target : α)

@[simp] theorem setNext_prev : (links.setNext address target).prev = links.prev := rfl

@[simp] theorem setPrev_next : (links.setPrev address target).next = links.next := rfl

@[simp] theorem setNext_next_same : (links.setNext address target).next address = target :=
  Function.update_self ..

@[simp] theorem setPrev_prev_same : (links.setPrev address target).prev address = target :=
  Function.update_self ..

variable {address}

theorem setNext_next_other {other : α} (different : other ≠ address) :
    (links.setNext address target).next other = links.next other :=
  Function.update_of_ne different ..

theorem setPrev_prev_other {other : α} (different : other ≠ address) :
    (links.setPrev address target).prev other = links.prev other :=
  Function.update_of_ne different ..

end Links

variable {α : Type u}

/-- `first` and `second` point at each other. -/
def Linked (links : Links α) (first second : α) : Prop :=
  links.next first = second ∧ links.prev second = first

/-- Starting from `first`, the addresses of the list follow one another. -/
def Path (links : Links α) : α → List α → Prop
  | _, [] => True
  | first, second :: rest => Linked links first second ∧ Path links second rest

theorem path_append (links : Links α) (first : α) (left right : List α) :
    Path links first (left ++ right) ↔
      Path links first left ∧ Path links (left.getLastD first) right := by
  induction left generalizing first with
  | nil => simp [Path]
  | cons second rest inductionHypothesis =>
      rw [List.cons_append]
      simp only [Path, inductionHypothesis second, List.getLastD_cons, and_assoc]

theorem Path.congr {left right : Links α} {first : α} {items : List α}
    (path : Path left first items)
    (next : ∀ address ∈ (first :: items).dropLast, right.next address = left.next address)
    (prev : ∀ address ∈ items, right.prev address = left.prev address) :
    Path right first items := by
  induction items generalizing first with
  | nil => trivial
  | cons second rest inductionHypothesis =>
      obtain ⟨⟨forward, backward⟩, later⟩ := path
      refine ⟨⟨?_, ?_⟩, ?_⟩
      · rw [next first (by simp), forward]
      · rw [prev second (by simp), backward]
      · refine inductionHypothesis later (fun address member => next address ?_)
          (fun address member => prev address (by simp [member]))
        rw [List.dropLast_cons_of_ne_nil (by simp)]
        exact List.mem_cons_of_mem _ member

/-- `head` and `items` form one circle, linked in both directions, each address once. -/
structure IsRing (links : Links α) (head : α) (items : List α) : Prop where
  nodup : (head :: items).Nodup
  path : Path links head (items ++ [head])

namespace IsRing

variable {links : Links α} {head : α} {items left right : List α} {item : α}

theorem congr {other : Links α} (ring : IsRing links head items)
    (next : ∀ address ∈ head :: items, other.next address = links.next address)
    (prev : ∀ address ∈ head :: items, other.prev address = links.prev address) :
    IsRing other head items := by
  refine ⟨ring.nodup, ring.path.congr (fun address member => next address ?_)
    (fun address member => prev address ?_)⟩
  · rw [← List.cons_append, List.dropLast_concat] at member
    exact member
  · simpa [or_comm] using member

/-! ### Reading neighbours -/

theorem linked_gap (ring : IsRing links head (left ++ right)) :
    Linked links (left.getLastD head) (right.headD head) := by
  have path := ring.path
  rw [List.append_assoc, path_append] at path
  cases right with
  | nil => exact path.2.1
  | cons first rest => exact path.2.1

theorem next_head (ring : IsRing links head items) :
    links.next head = items.headD head := by
  have gap := @linked_gap _ links head [] items ring
  exact gap.1

theorem prev_head (ring : IsRing links head items) :
    links.prev head = items.getLastD head := by
  have gap := @linked_gap _ links head items [] (by simpa using ring)
  exact gap.2

theorem next_item (ring : IsRing links head (left ++ item :: right)) :
    links.next item = right.headD head := by
  have gap := @linked_gap _ links head (left ++ [item]) right (by simpa using ring)
  simpa using gap.1

theorem prev_item (ring : IsRing links head (left ++ item :: right)) :
    links.prev item = left.getLastD head :=
  (linked_gap ring).2

theorem nil_of_next_head (ring : IsRing links head items) (closed : links.next head = head) :
    items = [] := by
  cases items with
  | nil => rfl
  | cons first rest =>
      have := ring.next_head
      rw [closed] at this
      exact absurd (this ▸ ring.nodup) (by simp)

/-! ### Updates away from the ring -/

variable [DecidableEq α] {address target : α}

theorem setNext_of_notMem (ring : IsRing links head items) (away : address ∉ head :: items) :
    IsRing (links.setNext address target) head items :=
  ring.congr (fun _ member =>
    links.setNext_next_other target (fun same => away (same ▸ member))) (fun _ _ => rfl)

theorem setPrev_of_notMem (ring : IsRing links head items) (away : address ∉ head :: items) :
    IsRing (links.setPrev address target) head items :=
  ring.congr (fun _ _ => rfl) (fun _ member =>
    links.setPrev_prev_other target (fun same => away (same ▸ member)))

end IsRing

/-! ### Inserting and removing -/

section Splice

variable [DecidableEq α]

/-- Link `item` in between two neighbours. -/
def Links.insertBetween (links : Links α) (item before after : α) : Links α :=
  (((links.setPrev after item).setNext before item).setNext item after).setPrev item before

/-- Make two addresses neighbours, whatever stood between them. -/
def Links.join (links : Links α) (before after : α) : Links α :=
  (links.setNext before after).setPrev after before

variable {links : Links α} {head : α} {left right : List α} {item : α}

theorem Path.setNext {first address target : α} {items : List α}
    (away : address ∉ (first :: items).dropLast) (path : Path links first items) :
    Path (links.setNext address target) first items := by
  refine path.congr (fun other member => ?_) (fun _ _ => rfl)
  exact links.setNext_next_other target (fun same => away (same ▸ member))

theorem Path.setPrev {first address target : α} {items : List α}
    (away : address ∉ items) (path : Path links first items) :
    Path (links.setPrev address target) first items := by
  refine path.congr (fun _ _ => rfl) (fun other member => ?_)
  exact links.setPrev_prev_other target (fun same => away (same ▸ member))

omit [DecidableEq α] in
theorem getLastD_mem (first : α) (items : List α) : items.getLastD first ∈ first :: items := by
  rw [← List.getLast_eq_getLastD (List.cons_ne_nil _ _)]
  exact List.getLast_mem _

omit [DecidableEq α] in
theorem headD_mem (items : List α) (last : α) : items.headD last ∈ last :: items := by
  cases items <;> simp

omit [DecidableEq α] in
theorem append_singleton_eq (items : List α) (last : α) :
    items ++ [last] = items.headD last :: (items ++ [last]).tail := by
  cases items <;> rfl

omit [DecidableEq α] in
theorem getLastD_notMem_dropLast {first : α} {items : List α} (nodup : (first :: items).Nodup) :
    items.getLastD first ∉ (first :: items).dropLast := by
  have split : (first :: items).dropLast ++ [items.getLastD first] = first :: items := by
    rw [← List.getLast_eq_getLastD (List.cons_ne_nil _ _)]
    exact List.dropLast_append_getLast _
  rw [← split] at nodup
  exact fun member => (List.nodup_append.mp nodup).2.2 _ member _ (by simp) rfl

/-- The part of a ring before a gap does not read the links across the gap. -/
theorem path_before_gap {target target' : α} (nodup : (head :: (left ++ right)).Nodup)
    (path : Path links head left) :
    Path ((links.setPrev (right.headD head) target).setNext (left.getLastD head) target')
      head left := by
  have nodupLeft : (head :: left).Nodup :=
    nodup.sublist ((List.sublist_append_left left right).cons_cons head)
  refine Path.setNext (getLastD_notMem_dropLast nodupLeft) (Path.setPrev ?_ path)
  cases right with
  | nil => exact (List.nodup_cons.mp nodupLeft).1
  | cons first rest =>
      intro member
      have disjoint := (List.nodup_append.mp (List.nodup_cons.mp nodup).2).2.2
      exact disjoint first member first (by simp) rfl

/-- The part of a ring after a gap does not read the links across the gap. -/
theorem path_after_gap {target target' : α} (nodup : (head :: (left ++ right)).Nodup)
    (path : Path links (right.headD head) (right ++ [head]).tail) :
    Path ((links.setPrev (right.headD head) target).setNext (left.getLastD head) target')
      (right.headD head) (right ++ [head]).tail := by
  cases right with
  | nil => trivial
  | cons first rest =>
      simp only [List.headD_cons, List.cons_append, List.tail_cons] at *
      have firstFresh : first ∉ rest ++ [head] := by
        simp only [List.nodup_cons, List.mem_append, List.mem_cons, List.nodup_append] at nodup
        simp only [List.mem_append, List.mem_singleton, not_or]
        exact ⟨nodup.2.2.1.1, fun same => nodup.1 (Or.inr (Or.inl same.symm))⟩
      have lastFresh : left.getLastD head ∉ (first :: (rest ++ [head])).dropLast := by
        rw [← List.cons_append, List.dropLast_concat]
        intro member
        rw [← List.cons_append] at nodup
        exact (List.nodup_append.mp nodup).2.2 _ (getLastD_mem head left) _ member rfl
      exact Path.setNext lastFresh (Path.setPrev firstFresh path)

namespace IsRing

/-- Inserting a fresh item between the last of `left` and the first of `right`. -/
theorem insertBetween (ring : IsRing links head (left ++ right))
    (fresh : item ∉ head :: (left ++ right)) :
    IsRing (links.insertBetween item (left.getLastD head) (right.headD head)) head
      (left ++ item :: right) := by
  have nodup : (head :: (left ++ item :: right)).Nodup := by
    have moved : (item :: head :: (left ++ right)).Nodup := List.nodup_cons.mpr ⟨fresh, ring.nodup⟩
    refine moved.perm ?_
    exact (List.Perm.swap head item _).trans (List.perm_middle.symm.cons head)
  have path := ring.path
  rw [List.append_assoc, path_append, append_singleton_eq right] at path
  obtain ⟨before, _, after⟩ := path
  have beforeFresh : left.getLastD head ≠ item := by
    intro same
    have member := getLastD_mem head left
    rw [same] at member
    exact fresh (List.mem_append_left right member)
  have afterFresh : right.headD head ≠ item := by
    intro same
    have member := headD_mem right head
    rw [same] at member
    exact fresh (List.Sublist.subset
      ((List.sublist_append_right left right).cons_cons head) member)
  refine ⟨nodup, ?_⟩
  rw [List.append_assoc, path_append, List.cons_append]
  refine ⟨?_, ⟨?_, ?_⟩, ?_⟩
  · -- the stretch before the new item
    refine Path.setPrev ?_ (Path.setNext ?_ (path_before_gap ring.nodup before))
    · exact fun member => fresh (List.mem_cons_of_mem _ (List.mem_append_left _ member))
    · intro member
      have inLeft := List.dropLast_subset _ member
      rw [← List.cons_append] at fresh
      exact fresh (List.mem_append_left _ inLeft)
  · rw [Links.insertBetween, Links.setPrev_next, Links.setNext_next_other _ _ beforeFresh,
      Links.setNext_next_same]
  · rw [Links.insertBetween, Links.setPrev_prev_same]
  · -- the stretch after the new item
    rw [append_singleton_eq]
    refine ⟨⟨?_, ?_⟩, ?_⟩
    · rw [Links.insertBetween, Links.setPrev_next, Links.setNext_next_same]
    · rw [Links.insertBetween, Links.setPrev_prev_other _ _ afterFresh, Links.setNext_prev,
        Links.setNext_prev, Links.setPrev_prev_same]
    · have tailFresh : item ∉ (right ++ [head]) := by
        simp only [List.mem_cons, List.mem_append, not_or] at fresh
        simp [fresh.1, fresh.2.2]
      refine Path.setPrev ?_ (Path.setNext ?_ (path_after_gap ring.nodup after))
      · exact fun member => tailFresh (List.mem_of_mem_tail member)
      · rw [← append_singleton_eq]
        exact fun member => tailFresh (List.dropLast_subset _ member)

/-- Joining the neighbours of an item takes it out of the ring. -/
theorem join (ring : IsRing links head (left ++ item :: right)) :
    IsRing (links.join (left.getLastD head) (right.headD head)) head (left ++ right) := by
  have nodup : (head :: (left ++ right)).Nodup := by
    refine ring.nodup.sublist (List.Sublist.cons_cons head ?_)
    exact List.Sublist.append_left (List.sublist_cons_self item right) left
  have path := ring.path
  rw [List.append_assoc, path_append, List.cons_append, append_singleton_eq right] at path
  obtain ⟨before, _, _, after⟩ := path
  refine ⟨nodup, ?_⟩
  rw [List.append_assoc, path_append, append_singleton_eq right]
  refine ⟨path_before_gap nodup before, ⟨?_, ?_⟩, path_after_gap nodup after⟩
  · rw [Links.join, Links.setPrev_next, Links.setNext_next_same]
  · rw [Links.join, Links.setPrev_prev_same]

end IsRing

end Splice

end UCore.Lib
