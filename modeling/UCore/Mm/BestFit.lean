import UCore.Mm.FitSystem

/-!
Contract: the best-fit manager of `kern/mm/best_fit_pmm.c`.

Owns:
- its search, its `alloc_pages` and the manager;
- `Reference`, an allocator that keeps the set of free pages and answers with the lowest of
  the smallest maximal runs that are large enough;
- the simulation of the manager by the reference as long as every insertion is below the last
  listed block, and a run on which a merge is missed after an insertion at the tail.
-/

set_option autoImplicit false

namespace UCore.Mm

open UCore.Lib UCore.Libs

/-- `while ((le = list_next(le)) != &free_list)` of `best_fit_alloc_pages`, with the candidate
`page` and its `min_size` -/
def bestFitSearch (pmm : Pmm Unit) (n : Nat) :
    Nat → ListEntry Unit → Option Nat → Nat → Except Stop (Option Nat)
  | 0, _, _, _ => .error .outOfFuel
  | fuel + 1, le, page, minSize =>
      match listNext pmm.links le with
      | .freeList _ => .ok page
      | .pageLink p =>
          if n ≤ pmm.property p ∧ pmm.property p < minSize then
            bestFitSearch pmm n fuel (.pageLink p) (some p) (pmm.property p)
          else bestFitSearch pmm n fuel (.pageLink p) page minSize

def bestFitAllocPages (fuel : Nat) (pmm : Pmm Unit) (n : Nat) :
    Except Stop (Option Nat × Pmm Unit) :=
  if n = 0 then .error .assertFailed
  else if pmm.nrFree () < n then .ok (none, pmm)
  else do
    match ← bestFitSearch pmm n fuel freeList none (u32 (pmm.nrFree () + 1)) with
    | none => pure (none, pmm)
    | some page => pure (some page, takeBlock pmm page n)

def bestFitInitMemmap := initMemmap

def bestFitFreePages := freePages

def bestFitNrFreePages (pmm : Pmm Unit) : Nat := pmm.nrFree ()

theorem bestFitSearch_mono {pmm : Pmm Unit} {n fuel fuel' minSize : Nat} {le : ListEntry Unit}
    {page result : Option Nat} (run : bestFitSearch pmm n fuel le page minSize = .ok result)
    (more : fuel ≤ fuel') : bestFitSearch pmm n fuel' le page minSize = .ok result := by
  induction fuel generalizing fuel' le page minSize with
  | zero => simp [bestFitSearch] at run
  | succ fuel inductionHypothesis =>
      obtain ⟨fuel', rfl⟩ : ∃ smaller, fuel' = smaller + 1 := ⟨fuel' - 1, by omega⟩
      rw [bestFitSearch] at run ⊢
      cases atNext : listNext pmm.links le with
      | freeList area => simpa [atNext] using run
      | pageLink p =>
          simp only [atNext] at run ⊢
          split_ifs at run ⊢ with better
          · exact inductionHypothesis run (by omega)
          · exact inductionHypothesis run (by omega)

theorem bestFitAllocPages_mono {pmm : Pmm Unit} {n fuel fuel' : Nat}
    {result : Option Nat × Pmm Unit} (run : bestFitAllocPages fuel pmm n = .ok result)
    (more : fuel ≤ fuel') : bestFitAllocPages fuel' pmm n = .ok result := by
  unfold bestFitAllocPages at run ⊢
  split_ifs at run ⊢ with zero few
  · exact run
  · cases search : bestFitSearch pmm n fuel freeList none (u32 (pmm.nrFree () + 1)) with
    | error stop =>
        rw [search] at run
        cases run
    | ok found =>
        rw [search] at run
        rw [bestFitSearch_mono search more]
        exact run

def bestFitPmmManager : PmmManager Unit where
  initMemmap := bestFitInitMemmap
  allocPages := bestFitAllocPages
  freePages := bestFitFreePages
  nrFreePages := bestFitNrFreePages
  initMemmap_mono := initMemmap_mono
  allocPages_mono := bestFitAllocPages_mono
  freePages_mono := freePages_mono

/-! ## The search on the listed blocks -/

/-- The candidate after a pass over the blocks. -/
def pickBest (n : Nat) : Option Extent → Nat → List Extent → Option Extent
  | candidate, _, [] => candidate
  | candidate, minSize, block :: rest =>
      if n ≤ block.size ∧ block.size < minSize then pickBest n (some block) block.size rest
      else pickBest n candidate minSize rest

def bestFitChoice (blocks : List Extent) (n : Nat) : Option Extent :=
  pickBest n none (Extent.total blocks + 1) blocks

/-- Either no block beats the candidate, or the pass ends at a smallest block that is large
enough, the first of its size. -/
theorem pickBest_cases (n : Nat) (candidate : Option Extent) (minSize : Nat)
    (blocks : List Extent) :
    (pickBest n candidate minSize blocks = candidate ∧
      ∀ block ∈ blocks, n ≤ block.size → minSize ≤ block.size) ∨
    ∃ left chosen right, blocks = left ++ chosen :: right ∧
      pickBest n candidate minSize blocks = some chosen ∧
      n ≤ chosen.size ∧ chosen.size < minSize ∧
      (∀ block ∈ left, n ≤ block.size → chosen.size < block.size) ∧
      ∀ block ∈ right, n ≤ block.size → chosen.size ≤ block.size := by
  induction blocks generalizing candidate minSize with
  | nil => exact Or.inl ⟨rfl, by simp⟩
  | cons block rest inductionHypothesis =>
      unfold pickBest
      split_ifs with better
      · right
        rcases inductionHypothesis (some block) block.size with
          ⟨same, larger⟩ | ⟨left, chosen, right, rfl, found, fits, smaller, before, after⟩
        · exact ⟨[], block, rest, rfl, same, better.1, better.2, by simp, larger⟩
        · refine ⟨block :: left, chosen, right, rfl, found, fits, by omega, ?_, after⟩
          intro other member otherFits
          rcases List.mem_cons.mp member with rfl | earlier
          · exact smaller
          · exact before other earlier otherFits
      · rcases inductionHypothesis candidate minSize with
          ⟨same, larger⟩ | ⟨left, chosen, right, rfl, found, fits, smaller, before, after⟩
        · left
          refine ⟨same, fun other member otherFits => ?_⟩
          rcases List.mem_cons.mp member with rfl | later
          · omega
          · exact larger other later otherFits
        · right
          refine ⟨block :: left, chosen, right, rfl, found, fits, smaller, ?_, after⟩
          intro other member otherFits
          rcases List.mem_cons.mp member with rfl | earlier
          · omega
          · exact before other earlier otherFits

theorem bestFitChoice_none {blocks : List Extent} {n : Nat} (chosen : bestFitChoice blocks n = none) :
    ∀ block ∈ blocks, block.size < n := by
  intro block member
  have size := Extent.size_le_total member
  rcases pickBest_cases n none (Extent.total blocks + 1) blocks with
    ⟨-, larger⟩ | ⟨_, _, _, _, found, _⟩
  · by_contra fits
    have := larger block member (by omega)
    omega
  · rw [bestFitChoice, found] at chosen
    cases chosen

theorem bestFitChoice_some {blocks : List Extent} {n : Nat} {block : Extent}
    (chosen : bestFitChoice blocks n = some block) :
    ∃ left right, blocks = left ++ block :: right ∧ n ≤ block.size ∧
      (∀ other ∈ left, n ≤ other.size → block.size < other.size) ∧
      ∀ other ∈ right, n ≤ other.size → block.size ≤ other.size := by
  rcases pickBest_cases n none (Extent.total blocks + 1) blocks with
    ⟨same, -⟩ | ⟨left, best, right, split, found, fits, -, before, after⟩
  · rw [bestFitChoice, same] at chosen
    cases chosen
  · rw [bestFitChoice, found] at chosen
    cases chosen
    exact ⟨left, right, split, fits, before, after⟩

/-- The search ends at the block that the pass over the listed blocks picks. -/
theorem bestFitSearch_ok {pmm : Pmm Unit} {left right : List Extent} {n fuel minSize : Nat}
    {candidate : Option Extent} (represents : Represents pmm (left ++ right))
    (enough : right.length < fuel) :
    bestFitSearch pmm n fuel ((entries left).getLastD freeList) (candidate.map Extent.base)
        minSize =
      .ok ((pickBest n candidate minSize right).map Extent.base) := by
  induction right generalizing left fuel minSize candidate with
  | nil =>
      obtain ⟨fuel, rfl⟩ : ∃ smaller, fuel = smaller + 1 := ⟨fuel - 1, by omega⟩
      have ring := represents.ring
      rw [entries_append] at ring
      have atEnd : listNext pmm.links ((entries left).getLastD freeList) = freeList :=
        ring.linked_gap.1
      rw [bestFitSearch, atEnd]
      rfl
  | cons block rest inductionHypothesis =>
      obtain ⟨fuel, rfl⟩ : ∃ smaller, fuel = smaller + 1 := ⟨fuel - 1, by omega⟩
      have ring := represents.ring
      rw [entries_append, entries_cons] at ring
      have atBlock : listNext pmm.links ((entries left).getLastD freeList) =
          .pageLink block.base := ring.linked_gap.1
      have size : pmm.property block.base = block.size := represents.property block (by simp)
      have atLast : (entries (left ++ [block])).getLastD freeList = .pageLink block.base := by
        rw [entries_append, entries_cons, entries_nil, List.getLastD_concat]
      have represents' : Represents pmm ((left ++ [block]) ++ rest) := by simpa using represents
      have enough' : rest.length < fuel := by
        rw [List.length_cons] at enough
        omega
      rw [bestFitSearch, atBlock]
      dsimp only
      rw [size, ← atLast]
      unfold pickBest
      by_cases better : n ≤ block.size ∧ block.size < minSize
      · rw [if_pos better, if_pos better]
        exact @inductionHypothesis _ fuel block.size (some block) represents' enough'
      · rw [if_neg better, if_neg better]
        exact @inductionHypothesis _ fuel minSize candidate represents' enough'

theorem bestFitChoice_few {blocks : List Extent} {n : Nat} (few : Extent.total blocks < n) :
    bestFitChoice blocks n = none := by
  cases chosen : bestFitChoice blocks n with
  | none => rfl
  | some block =>
      obtain ⟨left, right, rfl, fits, -⟩ := bestFitChoice_some chosen
      have size := @Extent.size_le_total (left ++ block :: right) block (by simp)
      omega

theorem bestFit_fitManager : FitManager (2 ^ 32 - 1) bestFitPmmManager bestFitChoice where
  initMemmap := rfl
  freePages := rfl
  allocPages {pmm blocks n} represents positive bounded := by
    refine ⟨blocks.length + 1, fun fuel enough => ?_⟩
    show bestFitAllocPages fuel pmm n = _
    rw [bestFitAllocPages, if_neg (by omega)]
    by_cases few : pmm.nrFree () < n
    · rw [if_pos few, bestFitChoice_few (represents.count ▸ few)]
    · rw [if_neg few]
      -- the sentinel `nr_free + 1` does not wrap, so every listed block is below it
      have sentinel : u32 (pmm.nrFree () + 1) = Extent.total blocks + 1 := by
        rw [represents.count]
        exact u32_of_lt (by omega)
      have search : bestFitSearch pmm n fuel freeList none (u32 (pmm.nrFree () + 1)) =
          .ok ((bestFitChoice blocks n).map Extent.base) := by
        rw [sentinel]
        exact @bestFitSearch_ok pmm [] blocks n fuel _ none represents (by omega)
      rw [search]
      cases bestFitChoice blocks n <;> rfl
  choice_mem chosen := by
    obtain ⟨left, right, rfl, -⟩ := bestFitChoice_some chosen
    simp
  choice_fits chosen := by
    obtain ⟨left, right, -, fits, -⟩ := bestFitChoice_some chosen
    exact fits

/-! ## The reference allocator -/

/-- The set of free pages and the allocations handed out. -/
structure Reference where
  free : Finset Nat
  live : List Extent

namespace Reference

/-- A smallest run of at least `n` free pages, the lowest one on ties. -/
structure BestRun (free : Finset Nat) (n : Nat) (run : Extent) : Prop where
  isRun : Extent.IsRun (· ∈ free) run
  fits : n ≤ run.size
  best : ∀ other, Extent.IsRun (· ∈ free) other → n ≤ other.size →
    run.size < other.size ∨ run.size = other.size ∧ run.base ≤ other.base

/-- The pages of a range. -/
abbrev pages (base n : Nat) : Finset Nat := Finset.Ico base (base + n)

inductive Step : Reference → Request → Reference → Prop
  | initMemmap {free : Finset Nat} {live : List Extent} {base n : Nat} :
      Step ⟨free, live⟩ (.initMemmap base n) ⟨free ∪ pages base n, live⟩
  | allocNull {free : Finset Nat} {live : List Extent} {n : Nat}
      (none : ∀ run, Extent.IsRun (· ∈ free) run → run.size < n) :
      Step ⟨free, live⟩ (.allocPages n) ⟨free, live⟩
  | allocPage {free : Finset Nat} {live : List Extent} {n : Nat} {run : Extent}
      (best : BestRun free n run) :
      Step ⟨free, live⟩ (.allocPages n) ⟨free \ pages run.base n, ⟨run.base, n⟩ :: live⟩
  | freePages {free : Finset Nat} {live : List Extent} {base n : Nat}
      (held : ⟨base, n⟩ ∈ live) :
      Step ⟨free, live⟩ (.freePages base n) ⟨free ∪ pages base n, live.erase ⟨base, n⟩⟩

end Reference

/-! ## The simulation -/

/-- The conditions under which the manager follows the reference. -/
def DetachedBelowLast (system : System Unit) (request : Request) : Prop :=
  Detached system request ∧ InsertsBelowLast (2 ^ 32 - 1) system request

instance : DecidableRel DetachedBelowLast := fun _ _ => inferInstanceAs (Decidable (_ ∧ _))

/-- The listed blocks are exactly the runs of the reference's free set. -/
structure Simulates (system : System Unit) (blocks : List Extent) (reference : Reference) :
    Prop where
  invariant : FitInvariant (2 ^ 32 - 1) system blocks
  separated : Extent.Separated blocks
  free : ∀ page, page ∈ reference.free ↔ Extent.Covers blocks page
  live : reference.live = system.live

namespace Simulates

variable {system next : System Unit} {blocks : List Extent} {reference : Reference}

theorem isRun_iff (simulates : Simulates system blocks reference) {run : Extent} :
    Extent.IsRun (· ∈ reference.free) run ↔ run ∈ blocks := by
  rw [← Extent.isRun_covers_iff simulates.separated simulates.invariant.represents.positive]
  rw [show (· ∈ reference.free) = Extent.Covers blocks from
    funext fun page => propext (simulates.free page)]

theorem nrFree (simulates : Simulates system blocks reference) :
    reference.free.card = system.pmm.nrFree () := by
  have sameSet : reference.free = Extent.cells blocks := by
    ext page
    rw [simulates.free, Extent.mem_cells]
  rw [sameSet, Extent.card_cells simulates.invariant.represents.pairwise_disjoint,
    simulates.invariant.represents.count]

/-- The block that best fit chooses is the best run. -/
theorem bestRun (simulates : Simulates system blocks reference) {n : Nat} {block : Extent}
    (chosen : bestFitChoice blocks n = some block) : Reference.BestRun reference.free n block := by
  obtain ⟨left, right, rfl, fits, before, after⟩ := bestFitChoice_some chosen
  have sorted := List.pairwise_append.mp simulates.separated
  refine ⟨simulates.isRun_iff.mpr (by simp), fits, fun other isRun otherFits => ?_⟩
  rcases List.mem_append.mp (simulates.isRun_iff.mp isRun) with earlier | later
  · exact Or.inl (before other earlier otherFits)
  · rcases List.mem_cons.mp later with rfl | later
    · exact Or.inr ⟨rfl, Nat.le_refl _⟩
    · have size := after other later otherFits
      have above := (List.pairwise_cons.mp sorted.2.1).1 other later
      rcases Nat.lt_or_eq_of_le size with smaller | same
      · exact Or.inl smaller
      · exact Or.inr ⟨same, by omega⟩

end Simulates

/-- The pages of a block that are not handed out are those of its remainder. -/
theorem covers_remainder {left right : List Extent} {block : Extent} {n page : Nat}
    (apart : (left ++ block :: right).Pairwise Extent.Disjoint) (fits : n ≤ block.size) :
    Extent.Covers (left ++ Represents.remainder block n ++ right) page ↔
      Extent.Covers (left ++ block :: right) page ∧ page ∉ (⟨block.base, n⟩ : Extent) := by
  have elsewhere : Extent.Covers (left ++ right) page → page ∉ (⟨block.base, n⟩ : Extent) := by
    rintro ⟨other, member, inOther⟩ taken
    rw [List.perm_middle.pairwise_iff (fun disjoint => Extent.Disjoint.symm disjoint),
      List.pairwise_cons] at apart
    refine (apart.1 other member).notMem ?_ inOther
    exact ⟨taken.1, Nat.lt_of_lt_of_le taken.2 (Nat.add_le_add_left fits _)⟩
  have rest : Extent.Covers (Represents.remainder block n) page ↔
      page ∈ block ∧ page ∉ (⟨block.base, n⟩ : Extent) := by
    unfold Represents.remainder
    split_ifs with splits
    · simp only [Extent.Covers, List.mem_singleton, exists_eq_left, Extent.mem_def]
      omega
    · simp only [Extent.Covers, List.not_mem_nil, false_and, exists_false, Extent.mem_def,
        false_iff]
      omega
  simp only [Extent.covers_append, Extent.covers_cons] at elsewhere ⊢
  grind

namespace Simulates

variable {system next : System Unit} {blocks : List Extent} {reference : Reference}

/-- One answered request is one step of the reference, with the same answer. -/
theorem step (simulates : Simulates system blocks reference) {request : Request}
    (move : System.StepMeeting bestFitPmmManager id DetachedBelowLast system request next) :
    ∃ blocks' reference', Reference.Step reference request reference' ∧
      Simulates next blocks' reference' := by
  obtain ⟨answered, detached, below⟩ := move
  have represents := simulates.invariant.represents
  have free := simulates.free
  obtain ⟨blocks', after, effect⟩ := bestFit_fitManager.step simulates.invariant ⟨answered, below⟩
  obtain ⟨freeSet, referenceLive⟩ := reference
  obtain rfl : referenceLive = system.live := simulates.live
  generalize oldPair : (blocks, system.live) = old at effect
  generalize newPair : (blocks', next.live) = new at effect
  cases effect with
  | @initMemmap lower upper live base n =>
      obtain ⟨rfl, rfl⟩ := Prod.mk.inj oldPair
      obtain ⟨rfl, live⟩ := Prod.mk.inj newPair
      have admitted : system.Admits (.initMemmap base n) := by
        cases answered with
        | initMemmap admitted => exact admitted
      refine ⟨_, _, .initMemmap, after, ?_, ?_, live.symm⟩
      · refine separated_initMemmap (fun page covers => ?_) represents.positive admitted detached
          after.represents.sorted simulates.separated
        rw [simulates.invariant.covered, Extent.covers_append]
        exact Or.inl covers
      · intro page
        have before := free page
        simp only [Finset.mem_union, Finset.mem_Ico, Extent.covers_append, Extent.covers_cons,
          Extent.mem_def] at before ⊢
        grind
  | @allocNull _ _ n chosen =>
      obtain ⟨rfl, rfl⟩ := Prod.mk.inj oldPair
      obtain ⟨rfl, live⟩ := Prod.mk.inj newPair
      refine ⟨_, _, .allocNull fun run isRun => ?_, after, simulates.separated, free, live.symm⟩
      exact bestFitChoice_none chosen run (simulates.isRun_iff.mp isRun)
  | @allocPage left right live block n chosen =>
      obtain ⟨rfl, rfl⟩ := Prod.mk.inj oldPair
      obtain ⟨rfl, live⟩ := Prod.mk.inj newPair
      refine ⟨_, _, .allocPage (simulates.bestRun chosen), after,
        separated_remainder simulates.separated, ?_, live.symm⟩
      intro page
      rw [covers_remainder represents.pairwise_disjoint (bestFit_fitManager.choice_fits chosen),
        Finset.mem_sdiff, Finset.mem_Ico, free page]
      rfl
  | @freePages _ _ live base n covers separated =>
      obtain ⟨rfl, rfl⟩ := Prod.mk.inj oldPair
      obtain ⟨rfl, live⟩ := Prod.mk.inj newPair
      have held : (⟨base, n⟩ : Extent) ∈ system.live := by
        cases answered with
        | freePages admitted => exact admitted
      refine ⟨_, _, .freePages held, after, separated simulates.separated, ?_, live.symm⟩
      intro page
      rw [covers page, Finset.mem_union, Finset.mem_Ico, free page, or_comm]
      rfl

theorem run (simulates : Simulates system blocks reference) {requests : List Request}
    (moves : Run (System.StepMeeting bestFitPmmManager id DetachedBelowLast) system requests
      next) :
    ∃ blocks' reference', Run Reference.Step reference requests reference' ∧
      Simulates next blocks' reference' := by
  induction moves generalizing blocks reference with
  | nil => exact ⟨blocks, reference, .nil _, simulates⟩
  | cons move _ inductionHypothesis =>
      obtain ⟨middleBlocks, middle, first, between⟩ := simulates.step move
      obtain ⟨blocks', reference', later, atEnd⟩ := inductionHypothesis between
      exact ⟨blocks', reference', .cons first later, atEnd⟩

end Simulates

/-- As long as every block is inserted below the last listed one, the manager and the reference
give the same answers, the free count is the size of the reference's free set, and every
request is answered. -/
theorem best_fit_refines_reference {start system : System Unit} {requests : List Request}
    (boot : Boot start)
    (run : Run (System.StepMeeting bestFitPmmManager id DetachedBelowLast) start requests
      system) :
    (∃ reference, Run Reference.Step ⟨∅, []⟩ requests reference ∧
      reference.live = system.live ∧
      reference.free.card = bestFitPmmManager.nrFreePages system.pmm) ∧
    ∀ request, system.Admits request → DetachedBelowLast system request →
      ∃ next, System.Step bestFitPmmManager id system request next := by
  have started : Simulates start [] ⟨∅, []⟩ :=
    { invariant := fitInvariant_boot boot (by decide) (by decide)
      separated := List.Pairwise.nil
      free := by simp [Extent.Covers]
      live := boot.live.symm }
  obtain ⟨blocks, reference, referenceRun, simulates⟩ := started.run run
  exact ⟨⟨reference, referenceRun, simulates.live, simulates.nrFree⟩,
    fun _ admitted meets => bestFit_fitManager.responds simulates.invariant admitted meets.2⟩

/-- Two ranges, the lower one handed over last; a tie, a split and both merges. -/
def twoRangeRequests : List Request :=
  [.initMemmap 20 10, .initMemmap 0 10, .allocPages 3, .allocPages 8, .freePages 0 3,
    .freePages 20 8, .allocPages 10]

theorem best_fit_refines_reference_two_ranges :
    ∃ system : System Unit,
      (System.exec bestFitPmmManager id DetachedBelowLast 10 bootSystem
        twoRangeRequests).map System.live = some [⟨0, 10⟩] ∧
      ∃ reference, Run Reference.Step ⟨∅, []⟩ twoRangeRequests reference ∧
        reference.live = system.live ∧
        reference.free.card = bestFitPmmManager.nrFreePages system.pmm := by
  have done : (System.exec bestFitPmmManager id DetachedBelowLast 10 bootSystem
      twoRangeRequests).map System.live = some [⟨0, 10⟩] := by decide
  obtain ⟨system, finished, -⟩ := Option.map_eq_some_iff.mp done
  exact ⟨system, done,
    (best_fit_refines_reference bootSystem_boot (System.exec_run finished)).1⟩

/-- The upper part of a range of ten pages is returned last and so at the tail, where it is not
merged with the lower part; a request for eight pages is then refused. -/
def missedMergeRequests : List Request :=
  [.initMemmap 0 10, .allocPages 3, .allocPages 7, .freePages 0 3, .freePages 3 7,
    .allocPages 8]

theorem best_fit_missed_merge :
    ¬ ∀ requests system,
      Run (System.StepMeeting bestFitPmmManager id Detached) bootSystem requests system →
      ∃ reference, Run Reference.Step ⟨∅, []⟩ requests reference ∧
        reference.live = system.live ∧
        reference.free.card = bestFitPmmManager.nrFreePages system.pmm := by
  intro refines
  have done : (System.exec bestFitPmmManager id Detached 10 bootSystem
      missedMergeRequests).map System.live = some [] := by decide
  obtain ⟨system, finished, live⟩ := Option.map_eq_some_iff.mp done
  obtain ⟨reference, run, same, -⟩ := refines missedMergeRequests system (System.exec_run finished)
  rw [live] at same
  obtain ⟨free, referenceLive⟩ := reference
  -- the six answers of the reference, the last one a refusal
  cases run with | cons first run =>
  cases run with | cons second run =>
  cases run with | cons third run =>
  cases run with | cons fourth run =>
  cases run with | cons fifth run =>
  cases run with | cons sixth run =>
  cases run
  cases first
  cases sixth with
  | allocPage best => cases same
  | allocNull none =>
      cases fifth
      cases fourth with
      | @freePages free live =>
          have below : ∀ page ∈ free, page < 10 := by
            intro page member
            cases second <;> cases third <;>
              simp only [Finset.mem_sdiff, Finset.mem_union, Finset.notMem_empty, false_or,
                Finset.mem_Ico] at member <;> omega
          have whole : Extent.IsRun
              (· ∈ free ∪ Reference.pages 0 3 ∪ Reference.pages 3 7) ⟨0, 10⟩ := by
            refine ⟨by decide, fun page member => ?_, fun page next => ?_, ?_⟩
            · have inside : page < 0 + 10 := member.2
              simp only [Finset.mem_union, Finset.mem_Ico]
              omega
            · exact absurd next (Nat.succ_ne_zero page)
            · intro above
              simp only [Finset.mem_union, Finset.mem_Ico] at above
              rcases above with (inFree | low) | high
              · exact absurd (below _ inFree) (by decide)
              · omega
              · omega
          exact absurd (none _ whole) (by decide)

end UCore.Mm
