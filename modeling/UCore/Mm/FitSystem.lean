import UCore.Mm.FreeListSpec

/-!
Contract: runs of a kernel over an allocator that keeps one address-ordered free list.

Owns:
- `FitInvariant`, which ties the listed blocks, the live allocations and the managed ranges
  together, and its preservation by each request;
- `Exclusive`, the same facts as a kernel sees them;
- the side condition `InsertsBelowLast` under which the insertion keeps the list in shape;
- `FitManager`, what a manager must do to be covered: share the two operations and hand out
  the start of a listed block that is large enough;
- `BlocksStep`, the steps such a manager takes on its listed blocks;
- ranges that do not touch, under which no two listed blocks do.

Does not own: how `alloc_pages` chooses a block.
-/

set_option autoImplicit false

namespace UCore.Mm

open UCore.Lib UCore.Libs

/-- Every page is reserved and unflagged, the free list is empty, nothing is managed. -/
structure Boot (system : System Unit) : Prop where
  reserved : ∀ page, system.pmm.pageReserved page = true
  unflagged : ∀ page, system.pmm.pageProperty page = false
  empty : IsRing system.pmm.links freeList []
  nrFree : system.pmm.nrFree () = 0
  managed : system.managed = []
  live : system.live = []

/-- The state after `init`, with every page reserved by `page_init`. -/
def bootSystem : System Unit where
  pmm :=
    { pages := fun _ => ⟨0, ⟨true, false⟩, 0⟩
      links := listInit ⟨id, id⟩ freeList
      nrFree := fun _ => 0 }
  managed := []
  live := []

theorem bootSystem_boot : Boot bootSystem where
  reserved _ := rfl
  unflagged _ := rfl
  empty := listInit_isRing _ _
  nrFree := rfl
  managed := rfl
  live := rfl

/-- No managed page is in two places: each lies in exactly one listed block or live
allocation. The free list is a circle with each block on it once, in both directions; the flag
marks exactly the heads of listed blocks; `nr_free` is the sum of their sizes. -/
def Exclusive (system : System Unit) : Prop :=
  ∃ blocks : List Extent,
    IsRing system.pmm.links freeList (entries blocks) ∧
    (∀ block ∈ blocks, 0 < block.size ∧ system.pmm.property block.base = block.size) ∧
    (∀ page, system.pmm.pageProperty page = true ↔ ∃ block ∈ blocks, block.base = page) ∧
    system.pmm.nrFree () = Extent.total blocks ∧
    (∀ page, Extent.Covers system.managed page ↔ Extent.Covers (blocks ++ system.live) page) ∧
    (blocks ++ system.live).Pairwise Extent.Disjoint

/-- The invariant of a run, for the blocks that are listed. Fewer than `capacity` pages are
managed. -/
structure FitInvariant (capacity : Nat) (system : System Unit) (blocks : List Extent) :
    Prop where
  represents : Represents system.pmm blocks
  reserved : ∀ page, system.pmm.pageReserved page = false ↔ Extent.Covers system.managed page
  apart : (blocks ++ system.live).Pairwise Extent.Disjoint
  covered : ∀ page,
    Extent.Covers system.managed page ↔ Extent.Covers (blocks ++ system.live) page
  positive : ∀ block ∈ system.live, 0 < block.size
  balance : Extent.total blocks + Extent.total system.live = Extent.total system.managed
  bounded : Extent.total system.managed < capacity
  countable : capacity ≤ 2 ^ 32

/-- A block that is inserted lies below the last listed block, and the managed pages stay below
`capacity`. -/
def InsertsBelowLast (capacity : Nat) (system : System Unit) : Request → Prop
  | .initMemmap base n =>
      LastAbove system.pmm base ∧ Extent.total system.managed + n < capacity
  | .allocPages _ => True
  | .freePages base _ => LastAbove system.pmm base

instance (capacity : Nat) : DecidableRel (InsertsBelowLast capacity) := fun system request =>
  match request with
  | .initMemmap _ _ => inferInstanceAs (Decidable (_ ∧ _))
  | .allocPages _ => inferInstanceAs (Decidable True)
  | .freePages base _ => inferInstanceAs (Decidable (LastAbove system.pmm base))

theorem takeBlock_pageReserved (pmm : Pmm Unit) (block n page : Nat) :
    (takeBlock pmm block n).pageReserved page = pmm.pageReserved page := by
  by_cases splits : n < pmm.property block <;> simp [takeBlock, splits]

theorem fitInvariant_boot {capacity : Nat} {system : System Unit} (boot : Boot system)
    (positive : 0 < capacity) (countable : capacity ≤ 2 ^ 32) :
    FitInvariant capacity system [] where
  represents :=
    { ring := boot.empty
      sorted := List.Pairwise.nil
      positive := by simp
      property := by simp
      flagged := by simp [boot.unflagged]
      count := boot.nrFree }
  reserved := by simp [boot.reserved, boot.managed, Extent.Covers]
  apart := by simp [boot.live]
  covered := by simp [boot.managed, boot.live]
  positive := by simp [boot.live]
  balance := by simp [boot.managed, boot.live]
  bounded := by simpa [boot.managed] using positive
  countable := countable

namespace FitInvariant

variable {capacity : Nat} {system : System Unit} {blocks : List Extent}

theorem exclusive (invariant : FitInvariant capacity system blocks) : Exclusive system :=
  ⟨blocks, invariant.represents.ring,
    fun block member => ⟨invariant.represents.positive block member,
      invariant.represents.property block member⟩,
    invariant.represents.flagged, invariant.represents.count, invariant.covered, invariant.apart⟩

theorem blocks_bounded (invariant : FitInvariant capacity system blocks) :
    Extent.total blocks + Extent.total system.live < 2 ^ 32 := by
  rw [invariant.balance]
  exact Nat.lt_of_lt_of_le invariant.bounded invariant.countable

/-- Pages of a live allocation are neither reserved nor flagged. -/
theorem allocated (invariant : FitInvariant capacity system blocks) {block : Extent}
    (live : block ∈ system.live) :
    ∀ page ∈ block, system.pmm.pageReserved page = false ∧
      system.pmm.pageProperty page = false := by
  intro page member
  have covers : Extent.Covers (blocks ++ system.live) page :=
    ⟨block, List.mem_append_right _ live, member⟩
  refine ⟨(invariant.reserved page).mpr ((invariant.covered page).mpr covers), ?_⟩
  rw [← Bool.not_eq_true, invariant.represents.flagged page]
  rintro ⟨head, listed, rfl⟩
  have apart := (List.pairwise_append.mp invariant.apart).2.2 head listed block live
  exact apart.notMem (Extent.base_mem (invariant.represents.positive head listed)) member

theorem initMemmap (invariant : FitInvariant capacity system blocks) {base n : Nat}
    (admitted : system.Admits (.initMemmap base n))
    (meets : InsertsBelowLast capacity system (.initMemmap base n)) :
    ∃ pmm lower upper, blocks = lower ++ upper ∧
      Returns (fun fuel => Mm.initMemmap fuel system.pmm base n) pmm ∧
      FitInvariant capacity ⟨pmm, ⟨base, n⟩ :: system.managed, system.live⟩
        (lower ++ ⟨base, n⟩ :: upper) := by
  obtain ⟨positive, fresh⟩ := admitted
  obtain ⟨lastAbove, bounded⟩ := meets
  have outside : ∀ page ∈ (⟨base, n⟩ : Extent), ¬ Extent.Covers system.managed page := by
    rintro page member ⟨range, managed, inRange⟩
    exact (fresh range managed).notMem member inRange
  have away : ∀ block ∈ blocks ++ system.live, Extent.Disjoint ⟨base, n⟩ block := by
    intro block member
    have size : 0 < block.size := by
      rcases List.mem_append.mp member with listed | live
      · exact invariant.represents.positive block listed
      · exact invariant.positive block live
    refine Extent.disjoint_of_notMem ⟨positive, size⟩ fun page inRange inBlock => ?_
    exact outside page inRange ((invariant.covered page).mpr ⟨block, member, inBlock⟩)
  have small := invariant.balance
  have countable := invariant.countable
  obtain ⟨pmm, lower, upper, rfl, returns, represents, reserved⟩ :=
    invariant.represents.initMemmap positive
      (fun page member => by
        rw [← Bool.not_eq_false, invariant.reserved page]
        exact outside page member)
      (fun block listed => away block (List.mem_append_left _ listed)) (by omega) lastAbove
  have moved : List.Perm (lower ++ ⟨base, n⟩ :: upper ++ system.live)
      (⟨base, n⟩ :: (lower ++ upper ++ system.live)) := by
    rw [List.append_assoc, List.cons_append, List.append_assoc lower upper]
    exact List.perm_middle
  refine ⟨pmm, lower, upper, rfl, returns, represents, ?_, ?_, ?_, invariant.positive, ?_, ?_,
    countable⟩
  · intro page
    rw [reserved page, Extent.covers_cons]
    split_ifs with inside
    · simp [inside]
    · simp [inside, invariant.reserved page]
  · rw [moved.pairwise_iff (fun disjoint => disjoint.symm), List.pairwise_cons]
    exact ⟨away, invariant.apart⟩
  · intro page
    have before := invariant.covered page
    simp only [Extent.covers_append, Extent.covers_cons] at before ⊢
    rw [before]
    grind
  · simp only [Extent.total_append, Extent.total_cons] at small ⊢
    omega
  · simp only [Extent.total_cons]
    omega

theorem freePages (invariant : FitInvariant capacity system blocks) {base n : Nat}
    (admitted : system.Admits (.freePages base n))
    (meets : InsertsBelowLast capacity system (.freePages base n)) :
    ∃ pmm blocks', Returns (fun fuel => Mm.freePages fuel system.pmm base n) pmm ∧
      FitInvariant capacity ⟨pmm, system.managed, system.live.erase ⟨base, n⟩⟩ blocks' ∧
      (∀ page, Extent.Covers blocks' page ↔
        page ∈ (⟨base, n⟩ : Extent) ∨ Extent.Covers blocks page) ∧
      (Extent.Separated blocks → Extent.Separated blocks') := by
  have live : (⟨base, n⟩ : Extent) ∈ system.live := admitted
  have positive : 0 < n := invariant.positive _ live
  have moved : List.Perm system.live (⟨base, n⟩ :: system.live.erase ⟨base, n⟩) :=
    List.perm_cons_erase live
  have total : Extent.total system.live = n + Extent.total (system.live.erase ⟨base, n⟩) := by
    have := (moved.map Extent.size).sum_eq
    simpa [Extent.total] using this
  have apart := (List.pairwise_append.mp invariant.apart)
  have liveApart := (moved.pairwise_iff (fun disjoint => Extent.Disjoint.symm disjoint)).mp apart.2.1
  have bounded := invariant.blocks_bounded
  have balance := invariant.balance
  obtain ⟨pmm, blocks', returns, represents, reserved, covers, total', separated⟩ :=
    invariant.represents.freePages positive (invariant.allocated live)
      (fun block listed => (apart.2.2 block listed _ live).symm) (by omega) meets
  refine ⟨pmm, blocks', returns, ⟨represents, ?_, ?_, ?_, ?_, ?_, invariant.bounded,
    invariant.countable⟩, covers,
    separated⟩
  · intro page
    rw [reserved page]
    exact invariant.reserved page
  · rw [List.pairwise_append]
    refine ⟨represents.pairwise_disjoint, (List.pairwise_cons.mp liveApart).2, ?_⟩
    intro block listed other otherLive
    have otherMember : other ∈ system.live := List.mem_of_mem_erase otherLive
    refine Extent.disjoint_of_notMem ⟨represents.positive block listed,
      invariant.positive other otherMember⟩ fun page inBlock inOther => ?_
    rcases (covers page).mp ⟨block, listed, inBlock⟩ with inFreed | ⟨old, oldListed, inOld⟩
    · exact ((List.pairwise_cons.mp liveApart).1 other otherLive).notMem inFreed inOther
    · exact (apart.2.2 old oldListed other otherMember).notMem inOld inOther
  · intro page
    have before := invariant.covered page
    have live' : Extent.Covers system.live page ↔
        page ∈ (⟨base, n⟩ : Extent) ∨ Extent.Covers (system.live.erase ⟨base, n⟩) page := by
      rw [← Extent.covers_cons]
      simp only [Extent.Covers, moved.mem_iff]
    simp only [Extent.covers_append] at before ⊢
    rw [before, covers page, live']
    grind
  · exact fun block member => invariant.positive block (List.mem_of_mem_erase member)
  · show Extent.total blocks' + Extent.total (system.live.erase ⟨base, n⟩) =
      Extent.total system.managed
    omega

/-- Handing out the first `n` pages of a listed block. -/
theorem allocPages {left right : List Extent} {block : Extent}
    (invariant : FitInvariant capacity system (left ++ block :: right)) {n : Nat} (positive : 0 < n)
    (fits : n ≤ block.size) :
    FitInvariant capacity ⟨takeBlock system.pmm block.base n, system.managed,
        ⟨block.base, n⟩ :: system.live⟩ (left ++ Represents.remainder block n ++ right) := by
  have bounded := invariant.blocks_bounded
  have balance := invariant.balance
  have represents := invariant.represents.takeBlock positive fits (by omega)
  have apart := List.pairwise_append.mp invariant.apart
  -- everything listed afterwards was listed before, or lies in the upper part of the block
  have within : ∀ other ∈ left ++ Represents.remainder block n ++ right,
      other ∈ left ++ right ∨
        block.base + n ≤ other.base ∧ other.base + other.size ≤ block.base + block.size := by
    intro other member
    simp only [List.mem_append] at member ⊢
    rcases member with (early | fromBlock) | late
    · exact Or.inl (Or.inl early)
    · unfold Represents.remainder at fromBlock
      split_ifs at fromBlock with splits
      · rw [List.mem_singleton.mp fromBlock]
        right
        show block.base + n ≤ block.base + n ∧
          block.base + n + (block.size - n) ≤ block.base + block.size
        omega
      · simp at fromBlock
    · exact Or.inl (Or.inr late)
  have listedAway : ∀ other ∈ left ++ right, Extent.Disjoint block other := by
    intro other member
    have all := invariant.represents.pairwise_disjoint
    rw [List.perm_middle.pairwise_iff (fun disjoint => Extent.Disjoint.symm disjoint),
      List.pairwise_cons] at all
    exact all.1 other member
  refine ⟨represents, ?_, ?_, ?_, ?_, ?_, invariant.bounded,
    invariant.countable⟩
  · intro page
    rw [show (takeBlock system.pmm block.base n).pageReserved page =
      system.pmm.pageReserved page from takeBlock_pageReserved ..]
    exact invariant.reserved page
  · rw [List.pairwise_append]
    refine ⟨represents.pairwise_disjoint, List.pairwise_cons.mpr ⟨?_, apart.2.1⟩, ?_⟩
    · intro other live
      exact (apart.2.2 block (by simp) other live).within (Nat.le_refl _)
        (Nat.add_le_add_left fits _)
    · intro other listed live liveMember
      rcases within other listed with old | part
      · rcases List.mem_cons.mp liveMember with rfl | older
        · have inner : Extent.Disjoint ⟨block.base, n⟩ other :=
            (listedAway other old).within (Nat.le_refl _) (Nat.add_le_add_left fits _)
          exact inner.symm
        · exact apart.2.2 other (mem_middle.mpr (Or.inr old)) live older
      · rcases List.mem_cons.mp liveMember with rfl | older
        · exact Or.inr part.1
        · exact (apart.2.2 block (by simp) live older).within (by omega) part.2
  · intro page
    have before := invariant.covered page
    have split : page ∈ block ↔
        page ∈ (⟨block.base, n⟩ : Extent) ∨ Extent.Covers (Represents.remainder block n) page := by
      unfold Represents.remainder
      split_ifs with splits
      · simp only [Extent.Covers, List.mem_singleton, exists_eq_left, Extent.mem_def]
        omega
      · simp only [Extent.Covers, List.not_mem_nil, false_and, exists_false, or_false,
          Extent.mem_def]
        omega
    simp only [Extent.covers_append, Extent.covers_cons] at before ⊢
    rw [before, split]
    grind
  · intro other member
    rcases List.mem_cons.mp member with rfl | older
    · exact positive
    · exact invariant.positive other older
  · have rest : Extent.total (Represents.remainder block n) = block.size - n := by
      unfold Represents.remainder
      split_ifs with splits
      · simp
      · simp only [Extent.total_nil]
        omega
    simp only [Extent.total_append, Extent.total_cons, rest] at balance ⊢
    omega

end FitInvariant

/-- A manager that shares `init_memmap` and `free_pages`, and whose `alloc_pages` takes its
pages off the listed block that `choice` names. -/
structure FitManager (capacity : Nat) (manager : PmmManager Unit)
    (choice : List Extent → Nat → Option Extent) : Prop where
  initMemmap : manager.initMemmap = Mm.initMemmap
  freePages : manager.freePages = Mm.freePages
  allocPages : ∀ {pmm : Pmm Unit} {blocks : List Extent} {n : Nat}, Represents pmm blocks →
    0 < n → Extent.total blocks < capacity →
    Returns (fun fuel => manager.allocPages fuel pmm n)
      (match choice blocks n with
        | none => (none, pmm)
        | some block => (some block.base, takeBlock pmm block.base n))
  choice_mem : ∀ {blocks : List Extent} {n : Nat} {block : Extent},
    choice blocks n = some block → block ∈ blocks
  choice_fits : ∀ {blocks : List Extent} {n : Nat} {block : Extent},
    choice blocks n = some block → n ≤ block.size

/-- What a request does to the listed blocks and to the live allocations. -/
inductive BlocksStep (choice : List Extent → Nat → Option Extent) :
    List Extent × List Extent → Request → List Extent × List Extent → Prop
  | initMemmap {lower upper live : List Extent} {base n : Nat} :
      BlocksStep choice (lower ++ upper, live) (.initMemmap base n)
        (lower ++ ⟨base, n⟩ :: upper, live)
  | allocNull {blocks live : List Extent} {n : Nat} (chosen : choice blocks n = none) :
      BlocksStep choice (blocks, live) (.allocPages n) (blocks, live)
  | allocPage {left right live : List Extent} {block : Extent} {n : Nat}
      (chosen : choice (left ++ block :: right) n = some block) :
      BlocksStep choice (left ++ block :: right, live) (.allocPages n)
        (left ++ Represents.remainder block n ++ right, ⟨block.base, n⟩ :: live)
  | freePages {blocks blocks' live : List Extent} {base n : Nat}
      (covers : ∀ page, Extent.Covers blocks' page ↔
        page ∈ (⟨base, n⟩ : Extent) ∨ Extent.Covers blocks page)
      (separated : Extent.Separated blocks → Extent.Separated blocks') :
      BlocksStep choice (blocks, live) (.freePages base n) (blocks', live.erase ⟨base, n⟩)

namespace FitManager

variable {capacity : Nat} {manager : PmmManager Unit}
  {choice : List Extent → Nat → Option Extent} {system next : System Unit}
  {blocks : List Extent}

/-- A step of the system is a step of its listed blocks. -/
theorem step (fit : FitManager capacity manager choice)
    (invariant : FitInvariant capacity system blocks) {request : Request}
    (move : System.StepMeeting manager id (InsertsBelowLast capacity) system request next) :
    ∃ blocks', FitInvariant capacity next blocks' ∧
      BlocksStep choice (blocks, system.live) request (blocks', next.live) := by
  obtain ⟨answered, meets⟩ := move
  have bounded : Extent.total blocks < capacity := by
    have := invariant.balance
    have := invariant.bounded
    omega
  cases answered with
  | initMemmap admitted returns =>
      rw [fit.initMemmap] at returns
      obtain ⟨pmm, lower, upper, rfl, returns', after⟩ := invariant.initMemmap admitted meets
      rw [returns.unique returns']
      exact ⟨_, after, .initMemmap⟩
  | @allocNull n pmm admitted returns =>
      have answer := returns.unique (fit.allocPages invariant.represents admitted bounded)
      cases chosen : choice blocks n with
      | none =>
          rw [chosen, Prod.mk.injEq] at answer
          rw [answer.2]
          exact ⟨blocks, invariant, .allocNull chosen⟩
      | some block =>
          rw [chosen, Prod.mk.injEq] at answer
          cases answer.1
  | @allocPage n page pmm admitted returns =>
      have answer := returns.unique (fit.allocPages invariant.represents admitted bounded)
      cases chosen : choice blocks n with
      | none =>
          rw [chosen, Prod.mk.injEq] at answer
          cases answer.1
      | some block =>
          rw [chosen, Prod.mk.injEq, Option.some.injEq] at answer
          obtain ⟨left, right, rfl⟩ := List.append_of_mem (fit.choice_mem chosen)
          rw [answer.1, answer.2]
          exact ⟨_, invariant.allocPages admitted (fit.choice_fits chosen), .allocPage chosen⟩
  | freePages admitted returns =>
      rw [fit.freePages] at returns
      obtain ⟨pmm, blocks', returns', after, covers, separated⟩ :=
        invariant.freePages admitted meets
      rw [returns.unique returns']
      exact ⟨_, after, .freePages covers separated⟩

/-- Every admitted request that meets the condition is answered. -/
theorem responds (fit : FitManager capacity manager choice)
    (invariant : FitInvariant capacity system blocks) {request : Request}
    (admitted : system.Admits request) (meets : InsertsBelowLast capacity system request) :
    ∃ next, System.Step manager id system request next := by
  have bounded : Extent.total blocks < capacity := by
    have := invariant.balance
    have := invariant.bounded
    omega
  cases request with
  | initMemmap base n =>
      obtain ⟨pmm, lower, upper, -, returns, -⟩ := invariant.initMemmap admitted meets
      exact ⟨_, .initMemmap admitted (by rw [fit.initMemmap]; exact returns)⟩
  | allocPages n =>
      have returns := fit.allocPages invariant.represents admitted bounded
      cases chosen : choice blocks n with
      | none =>
          rw [chosen] at returns
          exact ⟨_, .allocNull admitted returns⟩
      | some block =>
          rw [chosen] at returns
          exact ⟨_, .allocPage admitted returns⟩
  | freePages base n =>
      obtain ⟨pmm, blocks', returns, -⟩ := invariant.freePages admitted meets
      exact ⟨_, .freePages admitted (by rw [fit.freePages]; exact returns)⟩

theorem run_invariant (fit : FitManager capacity manager choice) {start : System Unit}
    {requests : List Request} (invariant : FitInvariant capacity start blocks)
    (run : Run (System.StepMeeting manager id (InsertsBelowLast capacity)) start requests
      system) :
    ∃ blocks', FitInvariant capacity system blocks' :=
  run.invariant (fun system => ∃ blocks, FitInvariant capacity system blocks)
    (fun _ _ _ ⟨_, before⟩ move =>
      (fit.step before move).imp fun _ after => after.1) ⟨blocks, invariant⟩

end FitManager

/-! ## Ranges that do not touch -/

/-- A range handed to `init_memmap` does not touch an earlier one. -/
def Detached (system : System Unit) : Request → Prop
  | .initMemmap base n => ∀ range ∈ system.managed,
      range.base + range.size ≠ base ∧ base + n ≠ range.base
  | .allocPages _ => True
  | .freePages _ _ => True

instance : DecidableRel Detached := fun _ request =>
  match request with
  | .initMemmap _ _ => inferInstanceAs (Decidable (∀ _ ∈ _, _))
  | .allocPages _ => inferInstanceAs (Decidable True)
  | .freePages _ _ => inferInstanceAs (Decidable True)

/-- What is listed above and below a detached range does not touch it. -/
theorem separated_initMemmap {system : System Unit} {lower upper : List Extent} {base n : Nat}
    (covered : ∀ page, Extent.Covers (lower ++ upper) page → Extent.Covers system.managed page)
    (positive : ∀ block ∈ lower ++ upper, 0 < block.size)
    (admitted : system.Admits (.initMemmap base n)) (detached : Detached system (.initMemmap base n))
    (sorted : Sorted (lower ++ ⟨base, n⟩ :: upper)) (separated : Extent.Separated (lower ++ upper)) :
    Extent.Separated (lower ++ ⟨base, n⟩ :: upper) := by
  obtain ⟨-, fromMiddle, lowerMiddle⟩ := List.pairwise_append.mp sorted
  apply separated.insert
  · intro block member
    have touches := lowerMiddle block member _ List.mem_cons_self
    have size := positive block (List.mem_append_left _ member)
    refine Nat.lt_of_le_of_ne touches fun adjacent => ?_
    have adjacent : block.base + block.size = base := adjacent
    -- the page below the range is managed, so an earlier range ends there
    obtain ⟨range, managed, inRange⟩ := covered (base - 1)
      ⟨block, List.mem_append_left _ member, by rw [Extent.mem_def]; omega⟩
    have apart := admitted.2 range managed
    have ends := (detached range managed).1
    rw [Extent.mem_def] at inRange
    unfold Extent.Disjoint at apart
    dsimp only at apart
    omega
  · intro block member
    have touches := (List.pairwise_cons.mp fromMiddle).1 block member
    have size := positive block (List.mem_append_right _ member)
    refine Nat.lt_of_le_of_ne touches fun adjacent => ?_
    have adjacent : base + n = block.base := adjacent
    obtain ⟨range, managed, inRange⟩ := covered block.base
      ⟨block, List.mem_append_right _ member, Extent.base_mem size⟩
    have apart := admitted.2 range managed
    have starts := (detached range managed).2
    have nonempty := admitted.1
    rw [Extent.mem_def] at inRange
    unfold Extent.Disjoint at apart
    dsimp only at apart
    omega

/-- What is left of a block starts above it and ends where it ended. -/
theorem separated_remainder {left right : List Extent} {block : Extent} {n : Nat}
    (separated : Extent.Separated (left ++ block :: right)) :
    Extent.Separated (left ++ Represents.remainder block n ++ right) := by
  have outer : Extent.Separated (left ++ right) :=
    separated.sublist (List.Sublist.append_left (List.sublist_cons_self _ _) _)
  obtain ⟨-, fromBlock, toBlock⟩ := List.pairwise_append.mp separated
  unfold Represents.remainder
  split_ifs with splits
  · rw [List.append_assoc, List.singleton_append]
    apply outer.insert
    · intro lower member
      have below := toBlock lower member block List.mem_cons_self
      dsimp only
      omega
    · intro upper member
      have above := (List.pairwise_cons.mp fromBlock).1 upper member
      dsimp only
      omega
  · rw [List.append_nil]
    exact outer

end UCore.Mm
