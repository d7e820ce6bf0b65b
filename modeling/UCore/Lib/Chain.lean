import Mathlib.Data.List.Nodup
import Mathlib.Logic.Function.Basic

/-!
Contract: doubly linked lists that end in both directions, over an arbitrary type of nodes.

Owns:
- `Chained`, which says that a list of nodes is linked in both directions;
- the rules for changes elsewhere, for a new first node, for removing a node and for dropping the
  first one.

Does not own: what a node is, or where the first node of a list is kept.
-/

set_option autoImplicit false

namespace UCore.Lib

universe u

variable {Node : Type u}

/-- The nodes of the list follow one another; the first one comes after `before`. -/
def Chained (next prev : Node → Option Node) : Option Node → List Node → Prop
  | _, [] => True
  | before, node :: rest =>
      prev node = before ∧ next node = rest.head? ∧ Chained next prev (some node) rest

namespace Chained

variable {next prev next' prev' : Node → Option Node} {before : Option Node} {nodes : List Node}
  {node : Node}

/-- Links of other nodes do not matter. -/
theorem congr (chained : Chained next prev before nodes)
    (sameNext : ∀ node ∈ nodes, next' node = next node)
    (samePrev : ∀ node ∈ nodes, prev' node = prev node) : Chained next' prev' before nodes := by
  induction nodes generalizing before with
  | nil => trivial
  | cons first rest inductionHypothesis =>
      obtain ⟨firstPrev, firstNext, chained⟩ := chained
      refine ⟨(samePrev first List.mem_cons_self).trans firstPrev,
        (sameNext first List.mem_cons_self).trans firstNext, ?_⟩
      apply inductionHypothesis chained
      · exact fun node member => sameNext node (List.mem_cons_of_mem _ member)
      · exact fun node member => samePrev node (List.mem_cons_of_mem _ member)

/-- The node after a node of the list is on the list, and not the first one. -/
theorem next_mem (chained : Chained next prev before nodes) (member : node ∈ nodes)
    {after : Node} (follows : next node = some after) : after ∈ nodes.tail := by
  induction nodes generalizing before with
  | nil => cases member
  | cons first rest inductionHypothesis =>
      obtain ⟨_, firstNext, chained⟩ := chained
      rcases List.mem_cons.mp member with rfl | within
      · rw [firstNext] at follows
        exact List.mem_of_head? follows
      · exact List.mem_of_mem_tail (inductionHypothesis chained within)

/-- The node before a node of the list is on the list, or comes before all of it. -/
theorem prev_mem (chained : Chained next prev before nodes) (member : node ∈ nodes) :
    (prev node = before ∧ nodes.head? = some node) ∨ ∃ other ∈ nodes, prev node = some other := by
  induction nodes generalizing before with
  | nil => cases member
  | cons first rest inductionHypothesis =>
      obtain ⟨firstPrev, _, chained⟩ := chained
      rcases List.mem_cons.mp member with rfl | within
      · exact Or.inl ⟨firstPrev, rfl⟩
      · right
        rcases inductionHypothesis chained within with ⟨atFirst, _⟩ | ⟨other, inside, points⟩
        · exact ⟨first, List.mem_cons_self, atFirst⟩
        · exact ⟨other, List.mem_cons_of_mem _ inside, points⟩

/-- The first node of a whole list is the one without a node before it. -/
theorem head_iff (chained : Chained next prev none nodes) (member : node ∈ nodes) :
    prev node = none ↔ nodes.head? = some node := by
  constructor
  · intro first
    rcases chained.prev_mem member with ⟨_, here⟩ | ⟨other, _, points⟩
    · exact here
    · rw [first] at points
      cases points
  · intro here
    cases nodes with
    | nil => cases here
    | cons first rest =>
        obtain rfl : first = node := Option.some.inj here
        exact chained.1

variable [DecidableEq Node]

/-- The links after `node` is put before `head`. -/
def pushNext (next : Node → Option Node) (head : Option Node) (node : Node) : Node → Option Node :=
  Function.update next node head

def pushPrev (prev : Node → Option Node) (head : Option Node) (node : Node) : Node → Option Node :=
  match head with
  | none => Function.update prev node none
  | some first => Function.update (Function.update prev node none) first (some node)

/-- A node in front of the list. -/
theorem push (chained : Chained next prev before nodes) (fresh : node ∉ nodes)
    (distinct : nodes.Nodup) :
    Chained (pushNext next nodes.head? node) (pushPrev prev nodes.head? node) none
      (node :: nodes) := by
  cases nodes with
  | nil => exact ⟨Function.update_self _ _ _, Function.update_self _ _ _, trivial⟩
  | cons first rest =>
      obtain ⟨_, firstNext, chained⟩ := chained
      obtain ⟨absent, _⟩ := List.nodup_cons.mp distinct
      have apart : node ≠ first := fun same => fresh (same ▸ List.mem_cons_self)
      have others : ∀ other ∈ rest, other ≠ node ∧ other ≠ first := by
        intro other member
        constructor
        · rintro rfl
          exact fresh (List.mem_cons_of_mem _ member)
        · rintro rfl
          exact absent member
      refine ⟨?_, Function.update_self _ _ _, Function.update_self _ _ _, ?_, ?_⟩
      · exact (Function.update_of_ne apart _ _).trans (Function.update_self _ _ _)
      · exact (Function.update_of_ne apart.symm _ _).trans firstNext
      · apply chained.congr
        · exact fun other member => Function.update_of_ne (others other member).1 _ _
        · intro other member
          exact (Function.update_of_ne (others other member).2 _ _).trans
            (Function.update_of_ne (others other member).1 _ _)

/-- The links after `node` is taken out. -/
def removeNext (next prev : Node → Option Node) (node : Node) : Node → Option Node :=
  match prev node with
  | none => next
  | some younger => Function.update next younger (next node)

def removePrev (next prev : Node → Option Node) (node : Node) : Node → Option Node :=
  match next node with
  | none => prev
  | some older => Function.update prev older (prev node)

theorem removeNext_of_ne {other : Node} (apart : prev node ≠ some other) :
    removeNext next prev node other = next other := by
  unfold removeNext
  cases points : prev node with
  | none => rfl
  | some younger =>
      apply Function.update_of_ne
      rintro rfl
      exact apart points

theorem removePrev_of_ne {other : Node} (apart : next node ≠ some other) :
    removePrev next prev node other = prev other := by
  unfold removePrev
  cases points : next node with
  | none => rfl
  | some older =>
      apply Function.update_of_ne
      rintro rfl
      exact apart points

/-- A list without one of its nodes. -/
theorem remove (chained : Chained next prev before nodes) (member : node ∈ nodes)
    (distinct : nodes.Nodup) (outside : ∀ other, before = some other → other ∉ nodes) :
    Chained (removeNext next prev node) (removePrev next prev node) before (nodes.erase node) := by
  induction nodes generalizing before with
  | nil => cases member
  | cons first rest inductionHypothesis =>
      obtain ⟨firstPrev, firstNext, restChained⟩ := chained
      obtain ⟨absent, restDistinct⟩ := List.nodup_cons.mp distinct
      by_cases same : first = node
      · subst same
        rw [List.erase_cons_head]
        cases rest with
        | nil => trivial
        | cons second rest =>
            obtain ⟨_, secondNext, restChained⟩ := restChained
            obtain ⟨secondAbsent, _⟩ := List.nodup_cons.mp restDistinct
            have untouched : ∀ other ∈ second :: rest, prev first ≠ some other := by
              intro other inside points
              rw [firstPrev] at points
              exact outside other points (List.mem_cons_of_mem _ inside)
            refine ⟨?_, ?_, ?_⟩
            · unfold removePrev
              rw [firstNext, List.head?_cons]
              exact (Function.update_self _ _ _).trans firstPrev
            · rw [removeNext_of_ne (untouched second List.mem_cons_self)]
              exact secondNext
            · apply restChained.congr
              · intro other inside
                exact removeNext_of_ne (untouched other (List.mem_cons_of_mem _ inside))
              · intro other inside
                apply removePrev_of_ne
                rw [firstNext, List.head?_cons]
                rintro points
                exact secondAbsent (Option.some.inj points ▸ inside)
      · have within : node ∈ rest := (List.mem_cons.mp member).resolve_left (Ne.symm same)
        rw [List.erase_cons_tail (by simpa using same)]
        refine ⟨?_, ?_, ?_⟩
        · rw [removePrev_of_ne]
          · exact firstPrev
          · intro points
            exact absent (List.mem_of_mem_tail (restChained.next_mem within points))
        · cases rest with
          | nil => cases within
          | cons second rest =>
              by_cases here : second = node
              · subst here
                rw [List.erase_cons_head]
                unfold removeNext
                rw [restChained.1]
                exact (Function.update_self _ _ _).trans restChained.2.1
              · rw [List.erase_cons_tail (by simpa using here), removeNext_of_ne, firstNext]
                · rfl
                · intro points
                  rcases restChained.prev_mem within with ⟨_, atHead⟩ | ⟨other, inside, back⟩
                  · exact here (Option.some.inj atHead)
                  · rw [back] at points
                    exact absent (Option.some.inj points ▸ inside)
        · apply inductionHypothesis restChained within restDistinct
          intro other isFirst
          exact Option.some.inj isFirst ▸ absent

/-- The first node after `node` is taken out of a whole list. -/
theorem head_remove (chained : Chained next prev none nodes) (member : node ∈ nodes) :
    (nodes.erase node).head? = if prev node = none then next node else nodes.head? := by
  cases nodes with
  | nil => cases member
  | cons first rest =>
      by_cases same : first = node
      · subst same
        rw [if_pos chained.1, List.erase_cons_head]
        exact chained.2.1.symm
      · have notFirst : prev node ≠ none := by
          intro isFirst
          exact same (Option.some.inj ((chained.head_iff member).mp isFirst))
        rw [if_neg notFirst, List.erase_cons_tail (by simpa using same)]
        rfl

end Chained

end UCore.Lib
