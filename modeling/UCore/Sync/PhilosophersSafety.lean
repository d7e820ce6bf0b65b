import UCore.Sync.PhilosophersCondvar
import UCore.Sync.PhilosophersSema

/-!
Contract: what both versions of the dining philosophers guarantee, in every order of the threads and
for any number of rounds.

Owns: exclusion, the return of `phi_take_forks`, and the correspondence of wakeups and transitions.
-/

set_option autoImplicit false

namespace UCore.Sync.Philosophers

open UCore.Lib

theorem SemaInvariant.eats {table : SemaTable} {i : Nat} (invariant : SemaInvariant table)
    (returned : table.pc i = .eating) : table.state i = .eating := by
  have stands := invariant.stands i
  rw [returned] at stands
  exact (stands.of_fed rfl).1

theorem CondvarInvariant.eats {table : CondvarTable} {place : Place} {i : Nat}
    (invariant : CondvarInvariant table place) (returned : table.pc i = .eating)
    (outside : table.monitor.pc i = .outside) : table.state i = .eating := by
  have sits := invariant.sits i
  rw [outside] at sits
  rcases sits with ⟨thinking, _⟩ | ⟨_, eats⟩
  · rw [thinking] at returned
    cases returned
  · exact eats

/-- No two neighbours eat, who has its forks eats, and wakeups belong to transitions. -/
theorem dining_philosophers :
    -- the version with semaphores
    (∀ events table, Run semaMachine.Step semaInit events table →
      Apart table.state ∧
      (∀ i, table.pc i = .eating → table.state i = .eating) ∧
      ∀ who, Answered always (table.marks who) ∧
        (owes always (table.marks who) = true ↔
          ∃ i caller, table.pc i = .test .wake caller ∧ caller.who i = who)) ∧
    -- the version with condition variables
    (∀ events table, Run condvarMachine.Step condvarInit events table →
      Apart table.state ∧
      (∀ i, table.pc i = .eating → table.monitor.pc i = .outside → table.state i = .eating) ∧
      ∀ who, Answered (byOthers who) (table.marks who) ∧
        (owes (byOthers who) (table.marks who) = true ↔ ∃ i, Wakes table i who)) := by
  constructor
  · intro events table run
    have invariant := SemaInvariant.run run
    exact ⟨invariant.apart, fun _ => invariant.eats,
      fun who => ⟨invariant.answered who, invariant.wakes who⟩⟩
  · intro events table run
    obtain ⟨_, invariant⟩ := CondvarInvariant.run run
    exact ⟨invariant.apart, fun _ => invariant.eats,
      fun who => ⟨invariant.answered who, invariant.wakes who⟩⟩

/-- Philosopher 1 takes its forks, 0 asks for its own and waits, 1 lays its forks down. -/
def semaEvents : List Nat :=
  List.replicate 9 1 ++ List.replicate 7 0 ++ List.replicate 9 1 ++ [0]

/-- The same with condition variables, where 0 goes on before 1. -/
def condvarEvents : List Nat :=
  List.replicate 10 1 ++ List.replicate 10 0 ++ List.replicate 10 1 ++ List.replicate 4 0

theorem dining_philosophers_waits :
    (∃ table, Run semaMachine.Step semaInit semaEvents table ∧ table.pc 0 = .eating ∧
      table.state 0 = .eating) ∧
    (∃ table, Run condvarMachine.Step condvarInit condvarEvents table ∧ table.pc 0 = .eating ∧
      table.state 0 = .eating) := by
  constructor
  · have done : (follow (semaMachine.next fun _ _ => True) semaInit semaEvents).any
        (fun table => table.pc 0 = .eating) = true := by decide +kernel
    obtain ⟨table, finished, found⟩ := (Option.any_eq_true _ _).mp done
    have run : Run semaMachine.Step semaInit semaEvents table :=
      Run.mono (fun _ _ _ move => move.1) (Machine.follow_next_run finished)
    have returned : table.pc 0 = .eating := of_decide_eq_true found
    exact ⟨table, run, returned, (dining_philosophers.1 semaEvents table run).2.1 0 returned⟩
  · have done : (follow (condvarMachine.next fun _ _ => True) condvarInit condvarEvents).any
        (fun table => table.pc 0 = .eating ∧ table.monitor.pc 0 = .outside) = true := by
      decide +kernel
    obtain ⟨table, finished, found⟩ := (Option.any_eq_true _ _).mp done
    have run : Run condvarMachine.Step condvarInit condvarEvents table :=
      Run.mono (fun _ _ _ move => move.1) (Machine.follow_next_run finished)
    obtain ⟨returned, outside⟩ := of_decide_eq_true found
    exact ⟨table, run, returned,
      (dining_philosophers.2 condvarEvents table run).2.1 0 returned outside⟩

end UCore.Sync.Philosophers
