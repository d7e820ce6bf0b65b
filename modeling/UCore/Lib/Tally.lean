import Mathlib.Algebra.BigOperators.Ring.Finset

/-!
Contract: counting the members of a finite set whose value is of a kind.

Owns: the count, what one changed value does to it, and when it is zero or positive.

Does not own: what the members and their values are.
-/

set_option autoImplicit false

namespace UCore.Lib

variable {Member Value : Type*} {members : Finset Member} {values : Member → Value}
  {among other : Value → Bool} {member : Member} {value : Value}

/-- How many of `members` have a value that is `among`. -/
def tally (members : Finset Member) (values : Member → Value) (among : Value → Bool) : Int :=
  ((members.filter fun member => among (values member) = true).card : Int)

/-- What one member adds to a count. -/
def share (among : Value → Bool) (value : Value) : Int := if among value = true then 1 else 0

theorem tally_eq_sum :
    tally members values among = ∑ member ∈ members, share among (values member) := by
  unfold tally share
  rw [Finset.card_filter]
  push_cast
  rfl

/-- One value changes. -/
theorem tally_update [DecidableEq Member] (within : member ∈ members) :
    tally members (Function.update values member value) among =
      tally members values among - share among (values member) + share among value := by
  rw [tally_eq_sum, tally_eq_sum, ← Finset.add_sum_erase _ _ within,
    ← Finset.add_sum_erase _ _ within]
  have rest : ∑ other ∈ members.erase member,
      share among (Function.update values member value other) =
        ∑ other ∈ members.erase member, share among (values other) := by
    apply Finset.sum_congr rfl
    intro other inside
    rw [Function.update_of_ne (Finset.ne_of_mem_erase inside)]
  rw [rest, Function.update_self]
  omega

theorem tally_nonneg : 0 ≤ tally members values among := Int.natCast_nonneg _

theorem tally_pos (positive : 0 < tally members values among) :
    ∃ member ∈ members, among (values member) = true := by
  obtain ⟨member, within⟩ := Finset.card_pos.mp (Int.natCast_pos.mp positive)
  exact ⟨member, (Finset.mem_filter.mp within).1, (Finset.mem_filter.mp within).2⟩

theorem tally_eq_zero (none : tally members values among = 0) (within : member ∈ members) :
    among (values member) = false := by
  have empty := Finset.card_eq_zero.mp (Int.natCast_eq_zero.mp none)
  exact Bool.eq_false_iff.mpr (Finset.filter_eq_empty_iff.mp empty within)

/-- One member is counted, and no other. -/
theorem tally_eq_one (within : member ∈ members) (counted : among (values member) = true)
    (only : ∀ other ∈ members, among (values other) = true → other = member) :
    tally members values among = 1 := by
  have single : (members.filter fun member => among (values member) = true) = {member} := by
    ext other
    rw [Finset.mem_filter, Finset.mem_singleton]
    constructor
    · exact fun both => only other both.1 both.2
    · rintro rfl
      exact ⟨within, counted⟩
  unfold tally
  rw [single, Finset.card_singleton]
  rfl

theorem tally_none (none : ∀ member, among (values member) = false) :
    tally members values among = 0 := by
  unfold tally
  rw [Finset.filter_false_of_mem]
  · rfl
  · intro member _
    rw [none member]
    exact nofun

theorem tally_congr (same : ∀ member, among (values member) = other (values member)) :
    tally members values among = tally members values other := by
  unfold tally
  simp only [same]

theorem tally_eq_of_mem {others : Member → Value}
    (same : ∀ member ∈ members, among (others member) = among (values member)) :
    tally members others among = tally members values among := by
  have kept : (members.filter fun member => among (others member) = true) =
      members.filter fun member => among (values member) = true :=
    Finset.filter_congr fun member within => by rw [same member within]
  unfold tally
  rw [kept]

/-- More members, none of them counted. -/
theorem tally_extend {others : Finset Member} (within : members ⊆ others)
    (none : ∀ member ∈ others, member ∉ members → among (values member) = false) :
    tally others values among = tally members values among := by
  rw [tally_eq_sum, tally_eq_sum]
  refine (Finset.sum_subset within ?_).symm
  intro member inside outside
  rw [share, none member inside outside]
  rfl

end UCore.Lib
