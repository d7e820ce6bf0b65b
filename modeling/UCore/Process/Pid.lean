import Mathlib.Data.Finset.Card
import Mathlib.Order.Interval.Finset.Defs
import Mathlib.Data.Int.Interval
import UCore.Machine

/-!
Contract: process identifiers, `get_pid` of `kern/process/proc.c`.

Owns:
- the search for an identifier, with what it remembers from one call to the next;
- that it ends and answers an identifier that no process has.

Does not own: the process list, which is given by the identifiers on it.
-/

set_option autoImplicit false

namespace UCore.Process

def maxProcess : Nat := 4096

def maxPid : Int := 8192

/-- One walk along the process list, from a candidate `last_pid` and the bound `next_safe`: whether
the walk starts again, and the new candidate and bound. -/
def scanPids : List Int → Int → Int → Bool × Int × Int
  | [], lastPid, nextSafe => (false, lastPid, nextSafe)
  | pid :: rest, lastPid, nextSafe =>
      if pid = lastPid then
        if lastPid + 1 ≥ nextSafe then
          (true, if lastPid + 1 ≥ maxPid then 1 else lastPid + 1, maxPid)
        else scanPids rest (lastPid + 1) nextSafe
      else if pid > lastPid ∧ nextSafe > pid then scanPids rest lastPid pid
      else scanPids rest lastPid nextSafe

/-- `repeat:` -/
def repeatScan (pids : List Int) : Nat → Int → Int → Except Stop (Int × Int)
  | 0, _, _ => .error .outOfFuel
  | fuel + 1, lastPid, nextSafe =>
      match scanPids pids lastPid nextSafe with
      | (true, lastPid, nextSafe) => repeatScan pids fuel lastPid nextSafe
      | (false, lastPid, nextSafe) => .ok (lastPid, nextSafe)

/-- `get_pid`: the new `last_pid`, which is the answer, and the new `next_safe`. -/
def getPid (pids : List Int) (fuel : Nat) (lastPid nextSafe : Int) : Except Stop (Int × Int) :=
  if lastPid + 1 ≥ maxPid then repeatScan pids fuel 1 maxPid
  else if lastPid + 1 ≥ nextSafe then repeatScan pids fuel (lastPid + 1) maxPid
  else .ok (lastPid + 1, nextSafe)

/-- No process has an identifier between the two. -/
def Unused (pids : List Int) (lastPid nextSafe : Int) : Prop :=
  ∀ pid ∈ pids, pid ≤ lastPid ∨ nextSafe ≤ pid

/-- What `get_pid` remembers. -/
structure PidSafe (pids : List Int) (lastPid nextSafe : Int) : Prop where
  positive : 1 ≤ lastPid
  small : lastPid ≤ maxPid
  bound : nextSafe ≤ maxPid
  unused : Unused pids lastPid nextSafe

/-- A candidate that no process on the part of the list that was seen has. -/
def Candidate (seen : List Int) (lastPid nextSafe : Int) : Prop :=
  ∀ pid ∈ seen, pid < lastPid ∨ nextSafe ≤ pid

/-- How many steps up from `lastPid`, with a wrap at the end, the identifier `free` is. -/
def stepsTo (free lastPid : Int) : Int :=
  if lastPid ≤ free then free - lastPid else free - lastPid + (maxPid - 1)

section Scan

variable {pids seen rest : List Int} {free lastPid nextSafe : Int}

/-- What one walk answers. -/
structure Scanned (pids : List Int) (free lastPid : Int) (outcome : Bool × Int × Int) : Prop where
  positive : 1 ≤ outcome.2.1
  small : outcome.2.1 < maxPid
  above : outcome.2.1 < outcome.2.2
  bound : outcome.2.2 ≤ maxPid
  /-- the walk ends with a candidate that nobody has -/
  ends : outcome.1 = false → Candidate pids outcome.2.1 outcome.2.2
  /-- the walk starts again nearer to a free identifier -/
  again : outcome.1 = true → outcome.2.2 = maxPid ∧
    stepsTo free outcome.2.1 < stepsTo free lastPid

theorem stepsTo_succ (positive : 1 ≤ lastPid) (small : lastPid < maxPid) (freePositive : 1 ≤ free)
    (freeSmall : free < maxPid) (apart : free ≠ lastPid) :
    stepsTo free (if lastPid + 1 ≥ maxPid then 1 else lastPid + 1) < stepsTo free lastPid := by
  unfold stepsTo maxPid at *
  split_ifs <;> omega

/-- One walk, from the part of the list that was seen on. -/
theorem scanPids_spec (freePositive : 1 ≤ free) (freeSmall : free < maxPid)
    (start : Int) (startSteps : stepsTo free lastPid ≤ stepsTo free start)
    (notFree : ∀ pid ∈ rest, pid ≠ free) (positive : 1 ≤ lastPid) (above : lastPid < nextSafe)
    (bound : nextSafe ≤ maxPid) (candidate : Candidate seen lastPid nextSafe) :
    Scanned (seen ++ rest) free start (scanPids rest lastPid nextSafe) := by
  induction rest generalizing seen lastPid nextSafe with
  | nil =>
      rw [List.append_nil]
      exact ⟨positive, lt_of_lt_of_le above bound, above, bound, fun _ => candidate, nofun⟩
  | cons pid rest inductionHypothesis =>
      have small : lastPid < maxPid := lt_of_lt_of_le above bound
      have restNotFree : ∀ pid ∈ rest, pid ≠ free :=
        fun pid member => notFree pid (List.mem_cons_of_mem _ member)
      have split : seen ++ pid :: rest = (seen ++ [pid]) ++ rest := by simp
      rw [split]
      unfold scanPids
      by_cases taken : pid = lastPid
      · rw [if_pos taken]
        have apart : free ≠ lastPid :=
          fun same => notFree pid List.mem_cons_self (taken.trans same.symm)
        have nearer := stepsTo_succ positive small freePositive freeSmall apart
        by_cases wraps : lastPid + 1 ≥ nextSafe
        · rw [if_pos wraps]
          refine ⟨?_, ?_, ?_, le_refl _, nofun, fun _ => ⟨rfl, lt_of_lt_of_le nearer startSteps⟩⟩
          · show 1 ≤ if lastPid + 1 ≥ maxPid then 1 else lastPid + 1
            split_ifs <;> omega
          · show (if lastPid + 1 ≥ maxPid then 1 else lastPid + 1) < maxPid
            unfold maxPid at *
            split_ifs <;> omega
          · show (if lastPid + 1 ≥ maxPid then 1 else lastPid + 1) < maxPid
            unfold maxPid at *
            split_ifs <;> omega
        · rw [if_neg wraps]
          rw [if_neg (by omega)] at nearer
          apply inductionHypothesis _ restNotFree (by omega) (by omega) bound
          · intro other member
            rcases List.mem_append.mp member with old | new
            · rcases candidate other old with below | beyond
              · exact Or.inl (by omega)
              · exact Or.inr beyond
            · rw [List.mem_singleton.mp new, taken]
              exact Or.inl (by omega)
          · omega
      · rw [if_neg taken]
        by_cases between : pid > lastPid ∧ nextSafe > pid
        · rw [if_pos between]
          apply inductionHypothesis startSteps restNotFree positive between.1 (by omega)
          intro other member
          rcases List.mem_append.mp member with old | new
          · rcases candidate other old with below | beyond
            · exact Or.inl below
            · exact Or.inr (by omega)
          · exact Or.inr (List.mem_singleton.mp new).ge
        · rw [if_neg between]
          apply inductionHypothesis startSteps restNotFree positive above bound
          intro other member
          rcases List.mem_append.mp member with old | new
          · exact candidate other old
          · rw [List.mem_singleton.mp new]
            omega

end Scan

variable {pids : List Int} {lastPid nextSafe : Int}

/-- The answer of `get_pid`: an identifier that nobody has, and what it remembers. -/
def Answers (pids : List Int) (answer : Int × Int) : Prop :=
  answer.1 ∉ pids ∧ answer.1 < maxPid ∧ PidSafe (answer.1 :: pids) answer.1 answer.2

theorem answers_of_candidate (positive : 1 ≤ lastPid) (small : lastPid < maxPid)
    (above : lastPid < nextSafe) (bound : nextSafe ≤ maxPid)
    (candidate : Candidate pids lastPid nextSafe) : Answers pids (lastPid, nextSafe) := by
  refine ⟨?_, small, positive, small.le, bound, ?_⟩
  · intro taken
    rcases candidate lastPid taken with below | beyond
    · exact absurd below (lt_irrefl _)
    · exact absurd beyond (not_le.mpr above)
  · intro pid member
    rcases List.mem_cons.mp member with rfl | old
    · exact Or.inl (le_refl _)
    · rcases candidate pid old with below | beyond
      · exact Or.inl below.le
      · exact Or.inr beyond

/-- The walks end, each starting nearer to a free identifier. -/
theorem repeatScan_spec {free : Int} (freePositive : 1 ≤ free) (freeSmall : free < maxPid)
    (notFree : ∀ pid ∈ pids, pid ≠ free) (fuel : Nat) (positive : 1 ≤ lastPid)
    (small : lastPid < maxPid) (enough : stepsTo free lastPid < fuel) :
    ∃ answer, repeatScan pids fuel lastPid maxPid = .ok answer ∧ Answers pids answer := by
  induction fuel generalizing lastPid with
  | zero =>
      have nonneg : 0 ≤ stepsTo free lastPid := by
        unfold stepsTo maxPid at *
        split_ifs <;> omega
      exact absurd enough (not_lt.mpr nonneg)
  | succ fuel inductionHypothesis =>
      have scanned : Scanned ([] ++ pids) free lastPid (scanPids pids lastPid maxPid) :=
        scanPids_spec freePositive freeSmall lastPid le_rfl notFree positive small le_rfl nofun
      rw [List.nil_append] at scanned
      unfold repeatScan
      generalize scanPids pids lastPid maxPid = outcome at scanned ⊢
      obtain ⟨again, next, safe⟩ := outcome
      cases again with
      | false =>
          exact ⟨_, rfl, answers_of_candidate scanned.positive scanned.small scanned.above
            scanned.bound (scanned.ends rfl)⟩
      | true =>
          obtain ⟨same, nearer⟩ := scanned.again rfl
          have same : safe = maxPid := same
          have nearer : stepsTo free next < stepsTo free lastPid := nearer
          subst same
          apply inductionHypothesis scanned.positive scanned.small
          push_cast at enough
          omega

/-- A list that is not too long leaves an identifier free. -/
theorem exists_free (few : (pids.length : Int) < maxPid - 1) :
    ∃ free, 1 ≤ free ∧ free < maxPid ∧ ∀ pid ∈ pids, pid ≠ free := by
  have card : pids.toFinset.card < (Finset.Ico (1 : Int) maxPid).card := by
    rw [Int.card_Ico]
    have most := pids.toFinset_card_le
    unfold maxPid at *
    omega
  obtain ⟨free, inside, absent⟩ := Finset.exists_mem_notMem_of_card_lt_card card
  refine ⟨free, (Finset.mem_Ico.mp inside).1, (Finset.mem_Ico.mp inside).2, ?_⟩
  rintro pid member rfl
  exact absent (List.mem_toFinset.mpr member)

/-- `get_pid` ends, and answers an identifier that no process has. -/
theorem getPid_spec (safe : PidSafe pids lastPid nextSafe)
    (few : (pids.length : Int) < maxPid - 1) :
    ∃ answer, getPid pids maxPid.toNat lastPid nextSafe = .ok answer ∧ Answers pids answer := by
  obtain ⟨free, freePositive, freeSmall, notFree⟩ := exists_free few
  have positive := safe.positive
  unfold getPid
  by_cases wraps : lastPid + 1 ≥ maxPid
  · rw [if_pos wraps]
    apply repeatScan_spec freePositive freeSmall notFree maxPid.toNat le_rfl (by decide)
    unfold stepsTo maxPid at *
    rw [if_pos freePositive]
    omega
  · rw [if_neg wraps]
    by_cases unsafe' : lastPid + 1 ≥ nextSafe
    · rw [if_pos unsafe']
      apply repeatScan_spec freePositive freeSmall notFree maxPid.toNat (by omega) (by omega)
      unfold stepsTo maxPid at *
      split_ifs <;> omega
    · rw [if_neg unsafe']
      refine ⟨_, rfl, answers_of_candidate (by omega) (by omega) (by omega) safe.bound ?_⟩
      intro pid member
      rcases safe.unused pid member with below | beyond
      · exact Or.inl (by omega)
      · exact Or.inr beyond

/-! ## The fuel does not matter -/

theorem repeatScan_more {answer : Int × Int} {fuel more : Nat} (enough : fuel ≤ more)
    (found : repeatScan pids fuel lastPid nextSafe = .ok answer) :
    repeatScan pids more lastPid nextSafe = .ok answer := by
  induction fuel generalizing more lastPid nextSafe with
  | zero => cases found
  | succ fuel inductionHypothesis =>
      obtain ⟨more, rfl⟩ : ∃ smaller, more = smaller + 1 := ⟨more - 1, by omega⟩
      unfold repeatScan at found ⊢
      generalize scanPids pids lastPid nextSafe = outcome at found ⊢
      obtain ⟨again, next, safe⟩ := outcome
      cases again with
      | false => exact found
      | true => exact inductionHypothesis (by omega) found

theorem getPid_returns (safe : PidSafe pids lastPid nextSafe)
    (few : (pids.length : Int) < maxPid - 1) :
    ∃ answer, Returns (fun fuel => getPid pids fuel lastPid nextSafe) answer ∧
      Answers pids answer := by
  obtain ⟨answer, found, answers⟩ := getPid_spec safe few
  refine ⟨answer, ⟨maxPid.toNat, fun fuel enough => ?_⟩, answers⟩
  dsimp only
  unfold getPid at found ⊢
  by_cases wraps : lastPid + 1 ≥ maxPid
  · rw [if_pos wraps] at found ⊢
    exact repeatScan_more enough found
  · rw [if_neg wraps] at found ⊢
    by_cases unsafe' : lastPid + 1 ≥ nextSafe
    · rw [if_pos unsafe'] at found ⊢
      exact repeatScan_more enough found
    · rw [if_neg unsafe'] at found ⊢
      exact found

/-- A walk from an identifier that nobody has keeps it. -/
theorem scanPids_unused (unused : lastPid ∉ pids) :
    (scanPids pids lastPid nextSafe).1 = false ∧
      (scanPids pids lastPid nextSafe).2.1 = lastPid := by
  induction pids generalizing nextSafe with
  | nil => exact ⟨rfl, rfl⟩
  | cons pid rest inductionHypothesis =>
      obtain ⟨apart, later⟩ := not_or.mp (mt List.mem_cons.mpr unused)
      have apart : pid ≠ lastPid := fun same => apart same.symm
      unfold scanPids
      rw [if_neg apart]
      by_cases between : pid > lastPid ∧ nextSafe > pid
      · rw [if_pos between]
        exact inductionHypothesis later
      · rw [if_neg between]
        exact inductionHypothesis later

end UCore.Process
