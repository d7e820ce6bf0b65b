import Mathlib.Tactic.Ring

/-!
Contract: what every part of the kernel model shares.

Owns:
- the stops of a kernel run (failed assertion, panic), and the fuel of its loops;
- conversion to and arithmetic on the integer types of C, which wrap around.

Integers of C are naturals or integers here; a value is reduced where the source stores it
into a narrower type or computes in one and the reduction can matter.
-/

set_option autoImplicit false

namespace UCore

/-- The ways a kernel function can fail to return. `notAPage` is a list head taken for the
`page_link` of a page. -/
inductive Stop
  | assertFailed
  | panicked
  | notAPage
  | outOfFuel
deriving DecidableEq, Repr

theorem ok_bind {α β : Type} (value : α) (next : α → Except Stop β) :
    (Except.ok value).bind next = next value := rfl

theorem error_bind {α β : Type} (stop : Stop) (next : α → Except Stop β) :
    (Except.error stop).bind next = .error stop := rfl

theorem bind_eq_ok {α β : Type} {first : Except Stop α} {next : α → Except Stop β} {result : β}
    (ran : first.bind next = .ok result) : ∃ value, first = .ok value ∧ next value = .ok result := by
  cases first with
  | error stop => cases ran
  | ok value => exact ⟨value, rfl, ran⟩

/-- Enough fuel makes the computation return `value`. -/
def Returns {α : Type} (compute : Nat → Except Stop α) (value : α) : Prop :=
  ∃ enough, ∀ fuel, enough ≤ fuel → compute fuel = .ok value

theorem Returns.unique {α : Type} {compute : Nat → Except Stop α} {left right : α}
    (first : Returns compute left) (second : Returns compute right) : left = right := by
  obtain ⟨enough, first⟩ := first
  obtain ⟨enough', second⟩ := second
  have same := (first (max enough enough') (by omega)).symm.trans (second _ (by omega))
  exact Except.ok.inj same

/-- One computation after another. -/
theorem Returns.bind {α β : Type} {compute : Nat → Except Stop α} {next : Nat → α → Except Stop β}
    {value : α} {result : β} (first : Returns compute value)
    (second : Returns (fun fuel => next fuel value) result) :
    Returns (fun fuel => (compute fuel).bind (next fuel)) result := by
  obtain ⟨enough, first⟩ := first
  obtain ⟨enough', second⟩ := second
  refine ⟨max enough enough', fun fuel more => ?_⟩
  dsimp only
  rw [first fuel (by omega)]
  exact second fuel (by omega)

theorem Returns.ok {α : Type} (value : α) : Returns (fun _ => .ok value) value :=
  ⟨0, fun _ _ => rfl⟩

/-- Conversion to `unsigned int`. -/
def u32 (value : Nat) : Nat := value % 2 ^ 32

theorem u32_of_lt {value : Nat} (small : value < 2 ^ 32) : u32 value = value :=
  Nat.mod_eq_of_lt small

/-- `x - y` on `unsigned int` -/
def sub32 (left right : Nat) : Nat := u32 (left + (2 ^ 32 - u32 right))

/-- `x - 1` on `unsigned int` -/
def pred32 (value : Nat) : Nat := u32 (value + (2 ^ 32 - 1))

/-- Conversion of an `unsigned int` to `int`. -/
def int32 (value : Nat) : Int := if u32 value < 2 ^ 31 then u32 value else u32 value - 2 ^ 32

/-- Conversion of a `size_t` sum to `off_t`. -/
def wrap64 (value : Int) : Int := (value + 2 ^ 63) % 2 ^ 64 - 2 ^ 63

theorem wrap64_of_range {value : Int} (low : -2 ^ 63 ≤ value) (high : value < 2 ^ 63) :
    wrap64 value = value := by
  unfold wrap64
  omega

/-- Arithmetic on `int`, which wraps around. -/
def wrap32 (value : Int) : Int := (value + 2 ^ 31) % 2 ^ 32 - 2 ^ 31

theorem wrap32_of_range {value : Int} (low : -2 ^ 31 ≤ value) (high : value < 2 ^ 31) :
    wrap32 value = value := by
  unfold wrap32
  omega

end UCore
