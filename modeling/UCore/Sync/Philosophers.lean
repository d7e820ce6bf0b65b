import Mathlib.Logic.Function.Basic
import Mathlib.Tactic.SplitIfs

/-!
Contract: what the two versions of the dining philosophers in `kern/sync/check_sync.c` share.

Owns:
- the states and the neighbours, and the reads and writes that `phi_test_sema` and
  `phi_test_condvar` have in common;
- that no two neighbours eat, what a test has read, and what a write does to both;
- the record of the transitions to `EATING` and of the wakeups, and how the two belong together.

Does not own: semaphores, monitors, and the order in which the threads go on.
-/

set_option autoImplicit false

namespace UCore.Sync.Philosophers

/-- `N` -/
def N : Nat := 5

/-- `LEFT` -/
def left (i : Nat) : Nat := (i + N - 1) % N

/-- `RIGHT` -/
def right (i : Nat) : Nat := (i + 1) % N

/-- The values of `state_sema` and `state_condvar`. -/
inductive PhiState
  | thinking
  | hungry
  | eating
deriving DecidableEq, Repr

/-- What a philosopher evaluates or does next in `phi_test`: the three parts of the condition, the
assignment, and the wakeup. -/
inductive TestStage
  | self
  | left
  | right
  | set
  | wake
deriving DecidableEq, Repr

/-- Where `phi_test` is called. -/
inductive Caller
  | take
  | putLeft
  | putRight
deriving DecidableEq, Repr

/-- The argument of `phi_test`. -/
def Caller.who (i : Nat) : Caller → Nat
  | take => i
  | putLeft => Philosophers.left i
  | putRight => Philosophers.right i

/-- The part of the condition that is read at `stage`. -/
def TestStage.passes (state : Nat → PhiState) (who : Nat) : TestStage → Bool
  | self => decide (state who = .hungry)
  | left => decide (state (Philosophers.left who) ≠ .eating)
  | right => decide (state (Philosophers.right who) ≠ .eating)
  | set | wake => true

/-- The stage after a part of the condition that holds, and after the assignment. -/
def TestStage.next : TestStage → TestStage
  | self => left
  | left => right
  | right => set
  | set | wake => wake

/-! ## Neighbours -/

theorem left_lt (i : Nat) : left i < N := Nat.mod_lt _ (by decide)

theorem right_lt (i : Nat) : right i < N := Nat.mod_lt _ (by decide)

variable {i who : Nat} {state : Nat → PhiState} {value : PhiState} {stage : TestStage}
  {caller : Caller}

theorem Caller.who_lt (seated : i < N) : caller.who i < N := by
  cases caller with
  | take => exact seated
  | putLeft => exact left_lt i
  | putRight => exact right_lt i

theorem left_right (seated : i < N) : left (right i) = i := by
  unfold left right N at *
  omega

theorem right_ne : right i ≠ i := by
  unfold right N
  omega

theorem Caller.who_ne (other : caller ≠ .take) : caller.who i ≠ i := by
  cases caller with
  | take => exact absurd rfl other
  | putLeft =>
      show Philosophers.left i ≠ i
      unfold Philosophers.left N
      omega
  | putRight => exact right_ne

/-- No two neighbours eat. -/
def Apart (state : Nat → PhiState) : Prop :=
  ∀ i < N, ¬ (state i = .eating ∧ state (right i) = .eating)

/-- A philosopher that stops eating, or asks to eat. -/
theorem Apart.lays (apart : Apart state) (quiet : value ≠ .eating) :
    Apart (Function.update state who value) := by
  intro i seated both
  have kept : ∀ other, Function.update state who value other = .eating → state other = .eating := by
    intro other eats
    by_cases same : other = who
    · rw [same, Function.update_self] at eats
      exact absurd eats quiet
    · rw [Function.update_of_ne same] at eats
      exact eats
  exact apart i seated ⟨kept i both.1, kept (right i) both.2⟩

/-- A philosopher starts to eat between two that do not. -/
theorem Apart.eats (apart : Apart state) (leftQuiet : state (left who) ≠ .eating)
    (rightQuiet : state (right who) ≠ .eating) :
    Apart (Function.update state who .eating) := by
  intro i seated both
  obtain ⟨first, second⟩ := both
  by_cases same : i = who
  · subst same
    rw [Function.update_of_ne right_ne] at second
    exact rightQuiet second
  · rw [Function.update_of_ne same] at first
    by_cases beside : right i = who
    · rw [← beside, left_right seated] at leftQuiet
      exact leftQuiet first
    · rw [Function.update_of_ne beside] at second
      exact apart i seated ⟨first, second⟩

/-! ## What a test has read -/

/-- What the parts of the condition that were evaluated say. -/
def Knows (state : Nat → PhiState) (who : Nat) : TestStage → Prop
  | .self => True
  | .left => state who = .hungry
  | .right => state who = .hungry ∧ state (left who) ≠ .eating
  | .set => state who = .hungry ∧ state (left who) ≠ .eating ∧ state (right who) ≠ .eating
  | .wake => state who = .eating

theorem Knows.passes (knows : Knows state who stage) (passes : stage.passes state who = true)
    (reads : stage ≠ .set) : Knows state who stage.next := by
  cases stage with
  | self =>
      have hungry : state who = .hungry := of_decide_eq_true passes
      exact hungry
  | left =>
      have quiet : state (Philosophers.left who) ≠ .eating := of_decide_eq_true passes
      exact ⟨knows, quiet⟩
  | right =>
      have quiet : state (Philosophers.right who) ≠ .eating := of_decide_eq_true passes
      exact ⟨knows.1, knows.2, quiet⟩
  | set => exact absurd rfl reads
  | wake => exact knows

/-! ## Transitions and wakeups -/

/-- What happens to a philosopher: `giver` takes its state from `HUNGRY` to `EATING`, or a wakeup
is posted to it. -/
inductive Mark
  | grant (giver : Nat)
  | post
deriving DecidableEq, Repr

/-- What an assignment of `value` by `giver` adds to the record, newest first. -/
def noted (giver : Nat) (before value : PhiState) (marks : List Mark) : List Mark :=
  if before = .hungry ∧ value = .eating then .grant giver :: marks else marks

/-- The newest entry is a transition whose giver is to post a wakeup. -/
def owes (posts : Nat → Bool) : List Mark → Bool
  | .grant giver :: _ => posts giver
  | _ => false

/-- Each wakeup stands right after the one transition it is for, and a transition whose giver posts
is followed by its wakeup before the next transition. -/
def Answered (posts : Nat → Bool) : List Mark → Prop
  | [] => True
  | .grant _ :: marks => owes posts marks = false ∧ Answered posts marks
  | .post :: marks => owes posts marks = true ∧ Answered posts marks

theorem noted_grant {giver : Nat} {marks : List Mark} :
    noted giver .hungry .eating marks = .grant giver :: marks :=
  if_pos ⟨rfl, rfl⟩

theorem noted_quiet {giver : Nat} {before : PhiState} {marks : List Mark}
    (quiet : value ≠ .eating) : noted giver before value marks = marks :=
  if_neg fun both => quiet both.2

end UCore.Sync.Philosophers
