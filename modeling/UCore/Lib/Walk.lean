import Mathlib.Data.List.Nodup
import Mathlib.Logic.Function.Basic
import Mathlib.Order.Lattice

/-!
Contract: singly linked lists that go on in a given node, and circles of nodes.

Owns:
- `Walk`, which says that the nodes of a list follow one another;
- the rules for changes elsewhere and for lists put together;
- the walk from any node of a circle around to any other.

Does not own: what a node is.
-/

set_option autoImplicit false

namespace UCore.Lib

universe u

variable {Node : Type u}

/-- The nodes of the list follow one another, and `last` follows the last one. -/
def Walk (next : Node → Node) : List Node → Node → Prop
  | [], _ => True
  | node :: rest, last => next node = rest.headD last ∧ Walk next rest last

namespace Walk

variable {next next' : Node → Node} {nodes left right : List Node} {node last : Node}

theorem congr (walk : Walk next nodes last) (same : ∀ node ∈ nodes, next' node = next node) :
    Walk next' nodes last := by
  induction nodes with
  | nil => trivial
  | cons first rest inductionHypothesis =>
      refine ⟨(same first List.mem_cons_self).trans walk.1, ?_⟩
      exact inductionHypothesis walk.2 fun node member => same node (List.mem_cons_of_mem _ member)

theorem append_iff : Walk next (left ++ right) last ↔
    Walk next left (right.headD last) ∧ Walk next right last := by
  induction left with
  | nil => exact (iff_of_eq (true_and _)).symm
  | cons first rest inductionHypothesis =>
      have head : (rest ++ right).headD last = rest.headD (right.headD last) := by
        cases rest <;> rfl
      rw [List.cons_append, Walk, Walk, inductionHypothesis, head, and_assoc]

/-- A node in the middle. -/
theorem middle_iff : Walk next (left ++ node :: right) last ↔
    Walk next left node ∧ next node = right.headD last ∧ Walk next right last :=
  append_iff

/-- The node after another one. -/
theorem split_next {head : Node} (walk : Walk next nodes head) (member : node ∈ nodes)
    (notHead : next node ≠ head) :
    ∃ left right, nodes = left ++ node :: next node :: right := by
  obtain ⟨left, right, rfl⟩ := List.append_of_mem member
  obtain ⟨_, follows, _⟩ := middle_iff.mp walk
  cases right with
  | nil => exact absurd follows notHead
  | cons second rest => exact ⟨left, rest, by rw [follows, List.headD_cons]⟩

end Walk

/-! ## Circles -/

section Circle

variable {next : Node → Node} {nodes : List Node} {head start goal : Node}

/-- A circle, started elsewhere. -/
theorem Walk.rotate (circle : Walk next (head :: nodes) head) (member : start ∈ head :: nodes) :
    ∃ items, Walk next (start :: items) start ∧ List.Perm (start :: items) (head :: nodes) := by
  obtain ⟨left, right, split⟩ := List.append_of_mem member
  rw [split] at circle ⊢
  obtain ⟨before, follows, after⟩ := Walk.middle_iff.mp circle
  refine ⟨right ++ left, ?_, @List.perm_append_comm _ (start :: right) left⟩
  have isHead : (left ++ start :: right).headD start = head := by
    rw [← split]
    rfl
  have leftHead : left.headD start = head := by
    cases left with
    | nil => exact isHead
    | cons first rest => exact isHead
  refine ⟨?_, ?_⟩
  · rw [follows]
    cases right with
    | nil => exact leftHead.symm
    | cons second rest => rfl
  · rw [Walk.append_iff, leftHead]
    exact ⟨after, before⟩

/-- The way along a circle from one node to another. -/
theorem Walk.between (circle : Walk next (head :: nodes) head) (distinct : (head :: nodes).Nodup)
    (startMember : start ∈ head :: nodes) (goalMember : goal ∈ head :: nodes)
    (apart : start ≠ goal) :
    ∃ items, Walk next (start :: items) goal ∧ goal ∉ start :: items ∧
      ∀ node ∈ start :: items, node ∈ head :: nodes := by
  obtain ⟨around, walk, perm⟩ := circle.rotate startMember
  have within : goal ∈ around :=
    (List.mem_cons.mp (perm.mem_iff.mpr goalMember)).resolve_left apart.symm
  obtain ⟨left, right, rfl⟩ := List.append_of_mem within
  have once := perm.nodup_iff.mpr distinct
  rw [← List.cons_append] at walk once
  obtain ⟨before, _, _⟩ := Walk.middle_iff.mp walk
  refine ⟨left, before, ?_, ?_⟩
  · intro again
    exact (List.nodup_append.mp once).2.2 goal again goal List.mem_cons_self rfl
  · intro node member
    apply perm.mem_iff.mp
    rw [← List.cons_append]
    exact List.mem_append_left _ member

end Circle

/-- In a circle in ascending order, what follows a node is the least one above it, or the head
where it is the greatest. -/
theorem Walk.next_sorted {Node : Type u} [LinearOrder Node] {next : Node → Node} {nodes : List Node}
    {head node : Node} (circle : Walk next nodes head) (sorted : nodes.Pairwise (· < ·))
    (member : node ∈ nodes) :
    (node < next node ∧ next node ∈ nodes ∧ ∀ other ∈ nodes, node < other → next node ≤ other) ∨
      (next node = head ∧ ∀ other ∈ nodes, other ≤ node) := by
  obtain ⟨left, right, rfl⟩ := List.append_of_mem member
  obtain ⟨_, follows, _⟩ := Walk.middle_iff.mp circle
  obtain ⟨_, later, below⟩ := List.pairwise_append.mp sorted
  obtain ⟨above, laterSorted⟩ := List.pairwise_cons.mp later
  cases right with
  | nil =>
      refine Or.inr ⟨follows, fun other within => ?_⟩
      rcases List.mem_append.mp within with before | here
      · exact le_of_lt (below other before node List.mem_cons_self)
      · exact le_of_eq (List.mem_singleton.mp here)
  | cons second rest =>
      rw [List.headD_cons] at follows
      rw [follows]
      refine Or.inl ⟨above second List.mem_cons_self, ?_, ?_⟩
      · exact List.mem_append_right _ (List.mem_cons_of_mem _ List.mem_cons_self)
      intro other within greater
      rcases List.mem_append.mp within with before | here
      · exact absurd greater (lt_asymm (below other before node List.mem_cons_self))
      rcases List.mem_cons.mp here with rfl | after
      · exact absurd greater (lt_irrefl _)
      rcases List.mem_cons.mp after with rfl | later
      · exact le_refl _
      · exact le_of_lt ((List.pairwise_cons.mp laterSorted).1 other later)

end UCore.Lib
