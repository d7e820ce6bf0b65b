import UCore.Sync.Monitor

/-!
Contract: a semaphore that starts at one and is downed before and upped after every critical
section.

Owns: the invariant of such a semaphore, and what `down`, the return from it and `up` do to it.

Does not own: the code in the critical sections.
-/

set_option autoImplicit false

namespace UCore.Sync

/-- Where a process is with respect to a mutex. -/
inductive LockPhase
  | out
  /-- `down` has put the process on the queue -/
  | queued
  | held
deriving DecidableEq, Repr

/-- The process has the mutex, or `up` has handed it over and the process has yet to return from
`down`. -/
def Owns (sem : Semaphore) (phase : Nat → LockPhase) (proc : Nat) : Prop :=
  phase proc = .held ∨ (phase proc = .queued ∧ proc ∉ sem.waitQueue)

structure MutexInvariant (sem : Semaphore) (phase : Nat → LockPhase) : Prop where
  queued : ∀ proc ∈ sem.waitQueue, phase proc = .queued
  distinct : sem.waitQueue.Nodup
  exclusive : ∀ proc other, Owns sem phase proc → Owns sem phase other → proc = other
  value : (sem.value = 1 ∧ sem.waitQueue = [] ∧ ∀ proc, ¬ Owns sem phase proc) ∨
    (sem.value = 0 ∧ ∃ proc, Owns sem phase proc)

namespace MutexInvariant

variable {sem : Semaphore} {phase : Nat → LockPhase} {proc other : Nat}

theorem init : MutexInvariant (semInit 1) (fun _ => .out) where
  queued := nofun
  distinct := List.nodup_nil
  exclusive := by
    intro proc other owns
    rcases owns with held | ⟨queued, _⟩
    · cases held
    · cases queued
  value := by
    refine Or.inl ⟨rfl, rfl, ?_⟩
    intro proc owns
    rcases owns with held | ⟨queued, _⟩
    · cases held
    · cases queued

/-- One process at most is in its critical section. -/
theorem held_unique (invariant : MutexInvariant sem phase) (first : phase proc = .held)
    (second : phase other = .held) : proc = other :=
  invariant.exclusive proc other (Or.inl first) (Or.inl second)

/-- `down` by a process that is out, and where the process is afterwards. -/
theorem down (invariant : MutexInvariant sem phase) (out : phase proc = .out) :
    MutexInvariant (sem.down proc).2
      (Function.update phase proc (if (sem.down proc).1 = true then .held else .queued)) := by
  have absent : proc ∉ sem.waitQueue := by
    intro member
    rw [invariant.queued proc member] at out
    cases out
  unfold Semaphore.down
  by_cases token : sem.value > 0
  · rw [if_pos token]
    rcases invariant.value with ⟨value, idle, nobody⟩ | ⟨value, _⟩
    · have owner : ∀ other, Owns { sem with value := sem.value - 1 }
          (Function.update phase proc .held) other → other = proc := by
        intro other owns
        by_contra apart
        unfold Owns at owns
        rw [Function.update_of_ne apart] at owns
        exact nobody other owns
      constructor
      · intro other member
        rw [idle] at member
        cases member
      · exact invariant.distinct
      · intro first second firstOwns secondOwns
        rw [owner first firstOwns, owner second secondOwns]
      · refine Or.inr ⟨by rw [value]; rfl, proc, Or.inl ?_⟩
        exact Function.update_self _ _ _
    · omega
  · rw [if_neg token]
    have owners : ∀ other, Owns { sem with waitQueue := sem.waitQueue ++ [proc] }
        (Function.update phase proc .queued) other ↔ Owns sem phase other := by
      intro other
      unfold Owns
      by_cases same : other = proc
      · subst same
        rw [Function.update_self, out]
        simp
      · rw [Function.update_of_ne same]
        simp [same]
    constructor
    · intro other member
      rcases List.mem_append.mp member with old | new
      · have apart : other ≠ proc := by
          rintro rfl
          exact absent old
        show Function.update phase proc LockPhase.queued other = .queued
        rw [Function.update_of_ne apart]
        exact invariant.queued other old
      · rw [List.mem_singleton.mp new]
        exact Function.update_self _ _ _
    · apply List.nodup_append.mpr
      refine ⟨invariant.distinct, List.nodup_singleton proc, ?_⟩
      intro other old fresh new equal
      rw [equal, List.mem_singleton.mp new] at old
      exact absent old
    · intro first second firstOwns secondOwns
      exact invariant.exclusive first second ((owners first).mp firstOwns)
        ((owners second).mp secondOwns)
    · rcases invariant.value with ⟨value, _, _⟩ | ⟨value, owner, owns⟩
      · omega
      · exact Or.inr ⟨value, owner, (owners owner).mpr owns⟩

/-- A process that is off the queue returns from `down`. -/
theorem resume (invariant : MutexInvariant sem phase) (queued : phase proc = .queued)
    (released : proc ∉ sem.waitQueue) :
    MutexInvariant sem (Function.update phase proc .held) := by
  have owners : ∀ other, Owns sem (Function.update phase proc .held) other ↔
      Owns sem phase other := by
    intro other
    unfold Owns
    by_cases same : other = proc
    · subst same
      rw [Function.update_self]
      simp [queued, released]
    · rw [Function.update_of_ne same]
  constructor
  · intro other member
    have apart : other ≠ proc := by
      rintro rfl
      exact released member
    rw [Function.update_of_ne apart]
    exact invariant.queued other member
  · exact invariant.distinct
  · intro first second firstOwns secondOwns
    exact invariant.exclusive first second ((owners first).mp firstOwns)
      ((owners second).mp secondOwns)
  · rcases invariant.value with ⟨value, idle, nobody⟩ | ⟨value, owner, owns⟩
    · exact absurd (Or.inr ⟨queued, released⟩) (nobody proc)
    · exact Or.inr ⟨value, owner, (owners owner).mpr owns⟩

/-- `up` at the end of a critical section. -/
theorem up (invariant : MutexInvariant sem phase) (held : phase proc = .held) :
    MutexInvariant sem.up (Function.update phase proc .out) := by
  have value : sem.value = 0 := by
    rcases invariant.value with ⟨_, _, nobody⟩ | ⟨value, _⟩
    · exact absurd (Or.inl held) (nobody proc)
    · exact value
  -- nobody else had it
  have others : ∀ other, other ≠ proc → phase other = .queued → other ∈ sem.waitQueue := by
    intro other apart queued
    by_contra released
    exact apart (invariant.exclusive other proc (Or.inr ⟨queued, released⟩) (Or.inl held))
  have notHeld : ∀ other, other ≠ proc → phase other ≠ .held := by
    intro other apart second
    exact apart (invariant.held_unique second held)
  unfold Semaphore.up
  cases waiters : sem.waitQueue with
  | nil =>
      have nobody : ∀ other, ¬ Owns ⟨wrap32 (sem.value + 1), []⟩
          (Function.update phase proc .out) other := by
        intro other owns
        by_cases same : other = proc
        · subst same
          rcases owns with second | ⟨queued, _⟩
          · rw [Function.update_self] at second
            cases second
          · rw [Function.update_self] at queued
            cases queued
        · rcases owns with second | ⟨queued, released⟩
          · rw [Function.update_of_ne same] at second
            exact notHeld other same second
          · rw [Function.update_of_ne same] at queued
            have member := others other same queued
            rw [waiters] at member
            cases member
      constructor
      · exact nofun
      · exact List.nodup_nil
      · intro first _ owns
        exact absurd owns (nobody first)
      · refine Or.inl ⟨?_, rfl, nobody⟩
        rw [value]
        rfl
  | cons first rest =>
      have distinct := invariant.distinct
      rw [waiters] at distinct
      obtain ⟨fresh, distinct⟩ := List.nodup_cons.mp distinct
      have firstQueued := invariant.queued first (waiters ▸ List.mem_cons_self)
      have apart : first ≠ proc := by
        rintro rfl
        rw [held] at firstQueued
        cases firstQueued
      have owner : ∀ other, Owns { sem with waitQueue := rest }
          (Function.update phase proc .out) other ↔ other = first := by
        intro other
        constructor
        · intro owns
          have moved : other ≠ proc := by
            rintro rfl
            rcases owns with second | ⟨queued, _⟩
            · rw [Function.update_self] at second
              cases second
            · rw [Function.update_self] at queued
              cases queued
          rcases owns with second | ⟨queued, released⟩
          · rw [Function.update_of_ne moved] at second
            exact absurd second (notHeld other moved)
          · rw [Function.update_of_ne moved] at queued
            have member := others other moved queued
            rw [waiters] at member
            exact (List.mem_cons.mp member).resolve_right released
        · rintro rfl
          refine Or.inr ⟨?_, fresh⟩
          rw [Function.update_of_ne apart]
          exact firstQueued
      constructor
      · intro other member
        have old := invariant.queued other (waiters ▸ List.mem_cons_of_mem _ member)
        have moved : other ≠ proc := by
          rintro rfl
          rw [held] at old
          cases old
        rw [Function.update_of_ne moved]
        exact old
      · exact distinct
      · intro one two oneOwns twoOwns
        rw [(owner one).mp oneOwns, (owner two).mp twoOwns]
      · exact Or.inr ⟨value, first, (owner first).mpr rfl⟩

end MutexInvariant

end UCore.Sync
