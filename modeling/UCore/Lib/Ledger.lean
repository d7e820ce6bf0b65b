import Mathlib.Data.List.Count
import Mathlib.Data.List.Nodup
import Mathlib.Data.List.Range
import Mathlib.Logic.Function.Basic

/-!
Contract: exact bookkeeping of numbered resources.

Owns:
- counting how many entries of a list satisfy a predicate, when it changes at one entry;
- `Exact`: a map of free resources and their number agree with the references that hold the
  others, each by exactly one reference;
- the rules for assigning a free resource to a reference and for releasing one.

Does not own: what the references are.
-/

set_option autoImplicit false

namespace UCore.Lib

/-- Switching a predicate on at one place counts one more. -/
theorem countP_switch_on {α : Type} {p q : α → Bool} {entries : List α} {entry : α}
    (distinct : entries.Nodup) (member : entry ∈ entries) (off : p entry = false)
    (on : q entry = true) (same : ∀ other, other ≠ entry → q other = p other) :
    entries.countP q = entries.countP p + 1 := by
  induction entries with
  | nil => cases member
  | cons head rest inductionHypothesis =>
      obtain ⟨fresh, distinct⟩ := List.nodup_cons.mp distinct
      rcases List.mem_cons.mp member with rfl | member
      · have restSame : rest.countP q = rest.countP p := by
          apply List.countP_congr
          intro other inRest
          rw [same other fun equal => fresh (equal ▸ inRest)]
        rw [List.countP_cons_of_pos on, List.countP_cons_of_neg (by simp [off]), restSame]
      · have apart : head ≠ entry := fun equal => fresh (equal ▸ member)
        rw [List.countP_cons, List.countP_cons, inductionHypothesis distinct member, same head apart]
        omega

/-- Counting further than a predicate goes finds nothing more. -/
theorem countP_range_beyond {p : Nat → Bool} {bound further : Nat}
    (below : ∀ entry, p entry = true → entry < bound) (beyond : bound ≤ further) :
    (List.range further).countP p = (List.range bound).countP p := by
  induction further, beyond using Nat.le_induction with
  | base => rfl
  | succ further beyond inductionHypothesis =>
      have off : ¬ p further = true := by
        intro on
        have inside := below further on
        omega
      rw [List.range_succ, List.countP_append, inductionHypothesis, List.countP_singleton, if_neg off]
      rfl

variable {Reference : Type}

/-- Of the resources below `bound`, exactly those are free that no reference holds, and no two
references hold the same one. -/
structure Exact (bound : Nat) (free : Nat → Bool) (unused : Nat)
    (target : Reference → Option Nat) : Prop where
  inRange : ∀ reference resource, target reference = some resource → resource < bound
  once : ∀ reference other resource, target reference = some resource →
    target other = some resource → reference = other
  used_iff : ∀ resource, resource < bound →
    (free resource = false ↔ ∃ reference, target reference = some resource)
  freeInRange : ∀ resource, free resource = true → resource < bound
  counted : unused = (List.range bound).countP free

namespace Exact

variable {bound unused : Nat} {free : Nat → Bool} {target : Reference → Option Nat}

theorem unused_pos (exact : Exact bound free unused target) {resource : Nat}
    (isFree : free resource = true) : 0 < unused := by
  rw [exact.counted, List.countP_pos_iff]
  exact ⟨resource, List.mem_range.mpr (exact.freeInRange resource isFree), isFree⟩

theorem used (exact : Exact bound free unused target) {reference : Reference} {resource : Nat}
    (held : target reference = some resource) : free resource = false :=
  (exact.used_iff resource (exact.inRange reference resource held)).mpr ⟨reference, held⟩

theorem not_held (exact : Exact bound free unused target) {resource : Nat}
    (isFree : free resource = true) (reference : Reference) : target reference ≠ some resource := by
  intro held
  rw [exact.used held] at isFree
  cases isFree

variable [DecidableEq Reference]

/-- A free resource goes to a reference that holds none. -/
theorem assign (exact : Exact bound free unused target) {reference : Reference} {resource : Nat}
    (isFree : free resource = true) (vacant : target reference = none) :
    Exact bound (Function.update free resource false) (unused - 1)
      (Function.update target reference (some resource)) where
  inRange other held isHeld := by
    by_cases same : other = reference
    · subst same
      rw [Function.update_self] at isHeld
      exact Option.some.inj isHeld ▸ exact.freeInRange resource isFree
    · rw [Function.update_of_ne same] at isHeld
      exact exact.inRange other held isHeld
  once left right held leftHolds rightHolds := by
    by_cases isLeft : left = reference <;> by_cases isRight : right = reference
    · rw [isLeft, isRight]
    · subst isLeft
      rw [Function.update_self] at leftHolds
      rw [Function.update_of_ne isRight] at rightHolds
      rw [← Option.some.inj leftHolds] at rightHolds
      exact absurd rightHolds (exact.not_held isFree right)
    · subst isRight
      rw [Function.update_self] at rightHolds
      rw [Function.update_of_ne isLeft] at leftHolds
      rw [← Option.some.inj rightHolds] at leftHolds
      exact absurd leftHolds (exact.not_held isFree left)
    · rw [Function.update_of_ne isLeft] at leftHolds
      rw [Function.update_of_ne isRight] at rightHolds
      exact exact.once left right held leftHolds rightHolds
  used_iff other inside := by
    by_cases same : other = resource
    · subst same
      rw [Function.update_self]
      exact iff_of_true rfl ⟨reference, Function.update_self _ _ _⟩
    · rw [Function.update_of_ne same, exact.used_iff other inside]
      constructor
      · rintro ⟨holder, held⟩
        refine ⟨holder, ?_⟩
        rwa [Function.update_of_ne]
        rintro rfl
        rw [vacant] at held
        cases held
      · rintro ⟨holder, held⟩
        by_cases isReference : holder = reference
        · subst isReference
          rw [Function.update_self] at held
          exact absurd (Option.some.inj held).symm same
        · rw [Function.update_of_ne isReference] at held
          exact ⟨holder, held⟩
  freeInRange other isFree' := by
    by_cases same : other = resource
    · subst same
      exact exact.freeInRange other isFree
    · rw [Function.update_of_ne same] at isFree'
      exact exact.freeInRange other isFree'
  counted := by
    have one := countP_switch_on (@List.nodup_range bound)
      (List.mem_range.mpr (exact.freeInRange resource isFree))
      (Function.update_self resource false free) isFree
      (fun other apart => (Function.update_of_ne apart false free).symm)
    rw [exact.counted]
    omega

/-- A reference gives up what it holds. -/
theorem release (exact : Exact bound free unused target) {reference : Reference} {resource : Nat}
    (held : target reference = some resource) :
    Exact bound (Function.update free resource true) (unused + 1)
      (Function.update target reference none) where
  inRange other held' isHeld := by
    by_cases same : other = reference
    · subst same
      rw [Function.update_self] at isHeld
      cases isHeld
    · rw [Function.update_of_ne same] at isHeld
      exact exact.inRange other held' isHeld
  once left right held' leftHolds rightHolds := by
    by_cases isLeft : left = reference
    · subst isLeft
      rw [Function.update_self] at leftHolds
      cases leftHolds
    · by_cases isRight : right = reference
      · subst isRight
        rw [Function.update_self] at rightHolds
        cases rightHolds
      · rw [Function.update_of_ne isLeft] at leftHolds
        rw [Function.update_of_ne isRight] at rightHolds
        exact exact.once left right held' leftHolds rightHolds
  used_iff other inside := by
    by_cases same : other = resource
    · subst same
      rw [Function.update_self]
      refine iff_of_false (fun isFalse => nomatch isFalse) ?_
      rintro ⟨holder, held'⟩
      by_cases isReference : holder = reference
      · subst isReference
        rw [Function.update_self] at held'
        cases held'
      · rw [Function.update_of_ne isReference] at held'
        exact isReference (exact.once holder reference other held' held)
    · rw [Function.update_of_ne same, exact.used_iff other inside]
      constructor
      · rintro ⟨holder, held'⟩
        refine ⟨holder, ?_⟩
        rwa [Function.update_of_ne]
        rintro rfl
        exact same (Option.some.inj (held'.symm.trans held))
      · rintro ⟨holder, held'⟩
        by_cases isReference : holder = reference
        · subst isReference
          rw [Function.update_self] at held'
          cases held'
        · rw [Function.update_of_ne isReference] at held'
          exact ⟨holder, held'⟩
  freeInRange other isFree := by
    by_cases same : other = resource
    · subst same
      exact exact.inRange reference other held
    · rw [Function.update_of_ne same] at isFree
      exact exact.freeInRange other isFree
  counted := by
    have one := countP_switch_on (@List.nodup_range bound)
      (List.mem_range.mpr (exact.inRange reference resource held))
      (exact.used held) (Function.update_self resource true free)
      (fun other apart => Function.update_of_ne apart true free)
    rw [exact.counted]
    omega

end Exact

end UCore.Lib
