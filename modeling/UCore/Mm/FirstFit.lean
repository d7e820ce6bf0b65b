import UCore.Mm.FitSystem

/-!
Contract: the first-fit manager of `kern/mm/default_pmm.c`.

Owns:
- its search, its `alloc_pages` and the manager;
- the theorem that no page is ever in two places as long as every insertion is below the last
  listed block, and a run that hands out one page twice after an insertion at the tail.
-/

set_option autoImplicit false

namespace UCore.Mm

open UCore.Lib UCore.Libs

/-- `while ((le = list_next(le)) != &free_list)` of `default_alloc_pages` -/
def firstFitSearch (pmm : Pmm Unit) (n : Nat) :
    Nat → ListEntry Unit → Except Stop (Option Nat)
  | 0, _ => .error .outOfFuel
  | fuel + 1, le =>
      match listNext pmm.links le with
      | .freeList _ => .ok none
      | .pageLink p =>
          if n ≤ pmm.property p then .ok (some p)
          else firstFitSearch pmm n fuel (.pageLink p)

def defaultAllocPages (fuel : Nat) (pmm : Pmm Unit) (n : Nat) :
    Except Stop (Option Nat × Pmm Unit) :=
  if n = 0 then .error .assertFailed
  else if pmm.nrFree () < n then .ok (none, pmm)
  else do
    match ← firstFitSearch pmm n fuel freeList with
    | none => pure (none, pmm)
    | some page => pure (some page, takeBlock pmm page n)

def defaultInitMemmap := initMemmap

def defaultFreePages := freePages

def defaultNrFreePages (pmm : Pmm Unit) : Nat := pmm.nrFree ()

theorem firstFitSearch_mono {pmm : Pmm Unit} {n fuel fuel' : Nat} {le : ListEntry Unit}
    {result : Option Nat} (run : firstFitSearch pmm n fuel le = .ok result)
    (more : fuel ≤ fuel') : firstFitSearch pmm n fuel' le = .ok result := by
  induction fuel generalizing fuel' le with
  | zero => simp [firstFitSearch] at run
  | succ fuel inductionHypothesis =>
      obtain ⟨fuel', rfl⟩ : ∃ smaller, fuel' = smaller + 1 := ⟨fuel' - 1, by omega⟩
      rw [firstFitSearch] at run ⊢
      cases atNext : listNext pmm.links le with
      | freeList area => simpa [atNext] using run
      | pageLink page =>
          simp only [atNext] at run ⊢
          split_ifs at run ⊢ with fits
          · exact run
          · exact inductionHypothesis run (by omega)

theorem defaultAllocPages_mono {pmm : Pmm Unit} {n fuel fuel' : Nat}
    {result : Option Nat × Pmm Unit} (run : defaultAllocPages fuel pmm n = .ok result)
    (more : fuel ≤ fuel') : defaultAllocPages fuel' pmm n = .ok result := by
  unfold defaultAllocPages at run ⊢
  split_ifs at run ⊢ with zero few
  · exact run
  · cases search : firstFitSearch pmm n fuel freeList with
    | error stop =>
        rw [search] at run
        cases run
    | ok found =>
        rw [search] at run
        rw [firstFitSearch_mono search more]
        exact run

def defaultPmmManager : PmmManager Unit where
  initMemmap := defaultInitMemmap
  allocPages := defaultAllocPages
  freePages := defaultFreePages
  nrFreePages := defaultNrFreePages
  initMemmap_mono := initMemmap_mono
  allocPages_mono := defaultAllocPages_mono
  freePages_mono := freePages_mono

/-! ## The search -/

/-- The search finds the first listed block that is large enough. -/
theorem firstFitSearch_ok {pmm : Pmm Unit} {left right : List Extent} {n fuel : Nat}
    (represents : Represents pmm (left ++ right)) (enough : right.length < fuel) :
    firstFitSearch pmm n fuel ((entries left).getLastD freeList) =
      .ok ((right.find? fun block => n ≤ block.size).map Extent.base) := by
  induction right generalizing left fuel with
  | nil =>
      obtain ⟨fuel, rfl⟩ : ∃ smaller, fuel = smaller + 1 := ⟨fuel - 1, by omega⟩
      have ring := represents.ring
      rw [entries_append] at ring
      have atEnd : listNext pmm.links ((entries left).getLastD freeList) = freeList :=
        ring.linked_gap.1
      rw [firstFitSearch, atEnd]
      rfl
  | cons block rest inductionHypothesis =>
      obtain ⟨fuel, rfl⟩ : ∃ smaller, fuel = smaller + 1 := ⟨fuel - 1, by omega⟩
      have ring := represents.ring
      rw [entries_append, entries_cons] at ring
      have atBlock : listNext pmm.links ((entries left).getLastD freeList) =
          .pageLink block.base := ring.linked_gap.1
      have size : pmm.property block.base = block.size := represents.property block (by simp)
      rw [firstFitSearch, atBlock]
      dsimp only
      rw [size]
      by_cases fits : n ≤ block.size
      · rw [if_pos fits, List.find?_cons_of_pos (by simpa using fits)]
        rfl
      · rw [if_neg fits, List.find?_cons_of_neg (by simpa using fits)]
        have step := @inductionHypothesis (left ++ [block]) fuel (by simpa using represents)
          (by simp only [List.length_cons] at enough; omega)
        rw [entries_append, entries_cons, entries_nil, List.getLastD_concat] at step
        exact step

theorem find?_fits_none {blocks : List Extent} {n : Nat} (few : Extent.total blocks < n) :
    (blocks.find? fun block => n ≤ block.size) = none := by
  rw [List.find?_eq_none]
  intro block member
  have := Extent.size_le_total member
  simp only [decide_eq_true_eq]
  omega

theorem default_fitManager : FitManager (2 ^ 32) defaultPmmManager
    fun blocks n => blocks.find? fun block => n ≤ block.size where
  initMemmap := rfl
  freePages := rfl
  allocPages {pmm blocks n} represents positive bounded := by
    refine ⟨blocks.length + 1, fun fuel enough => ?_⟩
    show defaultAllocPages fuel pmm n = _
    rw [defaultAllocPages, if_neg (by omega)]
    by_cases few : pmm.nrFree () < n
    · rw [if_pos few, find?_fits_none (represents.count ▸ few)]
    · rw [if_neg few]
      have search : firstFitSearch pmm n fuel freeList =
          .ok ((blocks.find? fun block => n ≤ block.size).map Extent.base) :=
        @firstFitSearch_ok pmm [] blocks n fuel represents (by omega)
      rw [search]
      cases blocks.find? fun block => n ≤ block.size <;> rfl
  choice_mem chosen := List.mem_of_find?_eq_some chosen
  choice_fits chosen := by simpa using List.find?_some chosen

/-! ## Runs -/

/-- As long as every block is inserted below the last listed one, each managed page is in
exactly one listed block or live allocation at every point of a run, and every request is
answered. -/
theorem default_pages_exclusive {start system : System Unit} {requests : List Request}
    (boot : Boot start)
    (run : Run (System.StepMeeting defaultPmmManager id (InsertsBelowLast (2 ^ 32))) start
      requests system) :
    Exclusive system ∧
      ∀ request, system.Admits request → InsertsBelowLast (2 ^ 32) system request →
        ∃ next, System.Step defaultPmmManager id system request next := by
  have started := fitInvariant_boot boot (by decide) (Nat.le_refl (2 ^ 32))
  obtain ⟨blocks, invariant⟩ := default_fitManager.run_invariant started run
  exact ⟨invariant.exclusive, fun _ => default_fitManager.responds invariant⟩

/-- Ten pages split three ways and partly returned. -/
def shuffledRequests : List Request :=
  [.initMemmap 0 10, .allocPages 3, .allocPages 2, .freePages 0 3, .allocPages 1,
    .freePages 3 2]

theorem default_pages_exclusive_shuffled :
    ∃ system, (System.exec defaultPmmManager id (InsertsBelowLast (2 ^ 32)) 10 bootSystem
      shuffledRequests).map System.live = some [⟨0, 1⟩] ∧ Exclusive system := by
  have done : (System.exec defaultPmmManager id (InsertsBelowLast (2 ^ 32)) 10 bootSystem
      shuffledRequests).map System.live = some [⟨0, 1⟩] := by decide
  obtain ⟨system, finished, -⟩ := Option.map_eq_some_iff.mp done
  exact ⟨system, done,
    (default_pages_exclusive bootSystem_boot (System.exec_run finished)).1⟩

/-- Both blocks of a ten page range are returned, the upper one last and so at the tail; the
next two requests for four pages are then answered with the same page. -/
def tailRequests : List Request :=
  [.initMemmap 0 10, .allocPages 3, .allocPages 7, .freePages 0 3, .freePages 3 7,
    .allocPages 4, .allocPages 4]

theorem default_tail_double_alloc :
    ¬ ∀ requests system, Run (System.Step defaultPmmManager id) bootSystem requests system →
      Exclusive system := by
  intro exclusive
  have done : (System.exec defaultPmmManager id (fun _ _ => True) 10 bootSystem
      tailRequests).map System.live = some [⟨3, 4⟩, ⟨3, 4⟩] := by decide
  obtain ⟨system, finished, live⟩ := Option.map_eq_some_iff.mp done
  have run := (System.exec_run finished).mono fun _ _ _ move => move.1
  obtain ⟨blocks, -, -, -, -, -, apart⟩ := exclusive tailRequests system run
  rw [live, List.pairwise_append] at apart
  have twice := (List.pairwise_cons.mp apart.2.1).1 ⟨3, 4⟩ (by simp)
  revert twice
  decide

end UCore.Mm
