import Mathlib.Data.List.Range
import Mathlib.Data.Nat.ModEq
import Mathlib.Logic.Function.Basic

/-!
Contract: circular buffers.

Owns:
- the elements of a buffer from one position on, around its end;
- what storing behind them, taking the first and storing over the first do to them.

Does not own: how positions are counted.
-/

set_option autoImplicit false

namespace UCore.Lib

variable {α : Type} {size start count : Nat} {buf : Nat → α} {value : α}

/-- The `count` elements from `start` on, in a circular buffer of `size` slots. -/
def window (size : Nat) (buf : Nat → α) (start count : Nat) : List α :=
  (List.range count).map fun index => buf ((start + index) % size)

@[simp] theorem window_zero : window size buf start 0 = [] := rfl

@[simp] theorem length_window : (window size buf start count).length = count := by
  rw [window, List.length_map, List.length_range]

/-- The first element. -/
theorem window_cons :
    window size buf start (count + 1) = buf (start % size) :: window size buf (start + 1) count := by
  rw [window, List.range_succ_eq_map, List.map_cons, List.map_map, window, Nat.add_zero]
  congr 1
  apply List.map_congr_left
  intro index _
  rw [Function.comp_apply, Nat.add_assoc, Nat.add_comm 1]

/-- The last element. -/
theorem window_snoc :
    window size buf start (count + 1) = window size buf start count ++ [buf ((start + count) % size)] := by
  rw [window, List.range_succ, List.map_append]
  rfl

/-- Positions count up to the size. -/
theorem window_mod : window size buf (start % size) count = window size buf start count := by
  apply List.map_congr_left
  intro index _
  rw [Nat.mod_add_mod]

/-- Two positions less than a round apart are different slots. -/
theorem slots_apart {index index' : Nat} (less : index < index') (near : index' < index + size) :
    (start + index) % size ≠ (start + index') % size := by
  intro same
  have divides : size ∣ (start + index') - (start + index) := (Nat.modEq_iff_dvd' (by omega)).mp same
  have := Nat.le_of_dvd (by omega) divides
  omega

/-- A store outside the window. -/
theorem window_update_of_ne {slot : Nat}
    (outside : ∀ index, index < count → (start + index) % size ≠ slot) :
    window size (Function.update buf slot value) start count = window size buf start count := by
  apply List.map_congr_left
  intro index inside
  exact Function.update_of_ne (outside index (List.mem_range.mp inside)) _ _

/-- A store behind the last element. -/
theorem window_push (space : count < size) :
    window size (Function.update buf ((start + count) % size) value) start (count + 1) =
      window size buf start count ++ [value] := by
  rw [window_snoc, Function.update_self, window_update_of_ne]
  intro index inside
  exact slots_apart inside (by omega)

/-- A store behind the last element of a full buffer replaces the first. -/
theorem window_push_full :
    window (size + 1) (Function.update buf ((start + (size + 1)) % (size + 1)) value) start
      (size + 1) = value :: window (size + 1) buf (start + 1) size := by
  rw [Nat.add_mod_right, window_cons, Function.update_self, window_update_of_ne]
  intro index inside
  rw [Nat.add_assoc]
  exact (slots_apart (show 0 < 1 + index by omega) (by omega)).symm

end UCore.Lib
