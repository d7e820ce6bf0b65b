import UCore.Mm.FirstFit

/-!
Contract: coalescing in the first-fit manager of `kern/mm/default_pmm.c`.

Owns:
- the order of the free list, and the merge of a freed block with the blocks next to it;
- that no two free blocks touch where the ranges handed to `init_memmap` do not;
- that a single range is whole again once every allocation is freed, and a run in which it is not
  after an insertion at the tail.

Does not own: the exclusive use of pages.
-/

set_option autoImplicit false

namespace UCore.Mm

open UCore.Lib UCore.Libs

variable {system next : System Unit} {blocks : List Extent}

/-- No two of these ranges touch. -/
def Untouching (ranges : List Extent) : Prop :=
  ranges.Pairwise fun later earlier =>
    earlier.base + earlier.size ≠ later.base ∧ later.base + later.size ≠ earlier.base

instance (ranges : List Extent) : Decidable (Untouching ranges) :=
  inferInstanceAs (Decidable (List.Pairwise _ ranges))

/-- What is carried along a run: blocks that touch come from ranges that touch. -/
structure Coalesced (system : System Unit) (blocks : List Extent) : Prop where
  invariant : FitInvariant (2 ^ 32) system blocks
  nonempty : ∀ range ∈ system.managed, 0 < range.size
  separated : Untouching system.managed → Extent.Separated blocks

namespace Coalesced

theorem step (coalesced : Coalesced system blocks) {request : Request}
    (move : System.StepMeeting defaultPmmManager id (InsertsBelowLast (2 ^ 32)) system request
      next) : ∃ blocks', Coalesced next blocks' := by
  have represents := coalesced.invariant.represents
  obtain ⟨blocks', after, effect⟩ := default_fitManager.step coalesced.invariant move
  have nonempty : ∀ range ∈ next.managed, 0 < range.size := by
    cases move.1 with
    | initMemmap admitted _ =>
        rintro range (_ | ⟨_, older⟩)
        · exact admitted.1
        · exact coalesced.nonempty range older
    | allocNull _ _ => exact coalesced.nonempty
    | allocPage _ _ => exact coalesced.nonempty
    | freePages _ _ => exact coalesced.nonempty
  refine ⟨blocks', after, nonempty, ?_⟩
  intro untouching
  generalize oldPair : (blocks, system.live) = old at effect
  generalize newPair : (blocks', next.live) = new at effect
  cases effect with
  | @initMemmap lower upper live base n =>
      obtain ⟨rfl, rfl⟩ := Prod.mk.inj oldPair
      obtain ⟨rfl, -⟩ := Prod.mk.inj newPair
      cases move.1 with
      | initMemmap admitted _ =>
          obtain ⟨detached, before⟩ := List.pairwise_cons.mp untouching
          refine separated_initMemmap (fun page covers => ?_) represents.positive admitted
            (fun range managed => detached range managed) after.represents.sorted
            (coalesced.separated before)
          rw [coalesced.invariant.covered, Extent.covers_append]
          exact Or.inl covers
  | @allocNull _ _ n chosen =>
      obtain ⟨rfl, rfl⟩ := Prod.mk.inj oldPair
      obtain ⟨rfl, -⟩ := Prod.mk.inj newPair
      apply coalesced.separated
      cases move.1 <;> exact untouching
  | @allocPage left right live block n chosen =>
      obtain ⟨rfl, rfl⟩ := Prod.mk.inj oldPair
      obtain ⟨rfl, -⟩ := Prod.mk.inj newPair
      apply separated_remainder
      apply coalesced.separated
      cases move.1 <;> exact untouching
  | @freePages _ _ live base n covers separated =>
      obtain ⟨rfl, rfl⟩ := Prod.mk.inj oldPair
      obtain ⟨rfl, -⟩ := Prod.mk.inj newPair
      apply separated
      apply coalesced.separated
      cases move.1
      exact untouching

/-- One range without allocations is one block. -/
theorem whole {range : Extent} (coalesced : Coalesced system blocks)
    (managed : system.managed = [range]) (live : system.live = []) : blocks = [range] := by
  have positive := coalesced.nonempty range (by rw [managed]; exact List.mem_singleton_self _)
  have separated := coalesced.separated (by rw [managed]; exact List.pairwise_singleton _ _)
  have blocksPositive := coalesced.invariant.represents.positive
  have sameCover : Extent.Covers blocks = Extent.Covers [range] := by
    funext page
    have covered := coalesced.invariant.covered page
    rw [managed, live, List.append_nil] at covered
    exact propext covered.symm
  have only : ∀ block, block ∈ blocks ↔ block = range := by
    intro block
    rw [← Extent.isRun_covers_iff separated blocksPositive, sameCover,
      Extent.isRun_covers_iff (List.pairwise_singleton _ _), List.mem_singleton]
    intro extent member
    rwa [List.mem_singleton.mp member]
  cases blocks with
  | nil => exact absurd ((only range).mpr rfl) List.not_mem_nil
  | cons first rest =>
      obtain rfl := (only first).mp List.mem_cons_self
      cases rest with
      | nil => rfl
      | cons second rest =>
          obtain rfl := (only second).mp (List.mem_cons_of_mem _ List.mem_cons_self)
          have apart := (List.pairwise_cons.mp separated).1 second List.mem_cons_self
          omega

/-- A freed block is joined with the blocks next to it. -/
theorem freed {base n : Nat} (coalesced : Coalesced system blocks)
    (move : System.StepMeeting defaultPmmManager id (InsertsBelowLast (2 ^ 32)) system
      (.freePages base n) next) :
    ∃ blocks', Represents next.pmm blocks' ∧ JoinsFreed blocks ⟨base, n⟩ blocks' := by
  have invariant := coalesced.invariant
  obtain ⟨answered, lastAbove⟩ := move
  cases answered with
  | freePages admitted returns =>
      have live : (⟨base, n⟩ : Extent) ∈ system.live := admitted
      have positive : 0 < n := invariant.positive _ live
      have apart := List.pairwise_append.mp invariant.apart
      have held := Extent.size_le_total live
      have balance := invariant.balance
      have bounded := invariant.bounded
      dsimp only at held
      obtain ⟨result, blocks', returns', represents, _, joins⟩ :=
        invariant.represents.freePages_joins positive (invariant.allocated live)
          (fun block listed => (apart.2.2 block listed _ live).symm) (by omega) lastAbove
      obtain rfl := returns.unique returns'
      exact ⟨blocks', represents, joins⟩

end Coalesced

/-- As long as every block is inserted below the last listed one: the free list is in address
order; a freed block is joined with the blocks directly before and after it; no two listed blocks
touch where no two ranges do; and a single range without allocations is one block again. -/
theorem default_free_coalesces {start : System Unit} {requests : List Request} (boot : Boot start)
    (run : Run (System.StepMeeting defaultPmmManager id (InsertsBelowLast (2 ^ 32))) start
      requests system) :
    ∃ blocks, Represents system.pmm blocks ∧
      (∀ base n next, System.StepMeeting defaultPmmManager id (InsertsBelowLast (2 ^ 32)) system
        (.freePages base n) next →
        ∃ blocks', Represents next.pmm blocks' ∧ JoinsFreed blocks ⟨base, n⟩ blocks') ∧
      (Untouching system.managed → Extent.Separated blocks) ∧
      ∀ range, system.managed = [range] → system.live = [] → blocks = [range] := by
  have started : Coalesced start [] :=
    { invariant := fitInvariant_boot boot (by decide) (Nat.le_refl (2 ^ 32))
      nonempty := by simp [boot.managed]
      separated := fun _ => List.Pairwise.nil }
  obtain ⟨blocks, coalesced⟩ := run.invariant (fun system => ∃ blocks, Coalesced system blocks)
    (fun _ _ _ ⟨_, before⟩ move => before.step move) ⟨[], started⟩
  exact ⟨blocks, coalesced.invariant.represents, fun _ _ _ move => coalesced.freed move,
    coalesced.separated, fun _ managed live => coalesced.whole managed live⟩

/-- A range of ten pages, split three ways and freed from the top. -/
def wholeRequests : List Request :=
  [.initMemmap 0 10, .allocPages 3, .allocPages 2, .allocPages 1, .freePages 5 1, .freePages 0 3,
    .freePages 3 2]

theorem default_free_coalesces_whole :
    ∃ system, System.exec defaultPmmManager id (InsertsBelowLast (2 ^ 32)) 10 bootSystem
      wholeRequests = some system ∧ Represents system.pmm [⟨0, 10⟩] := by
  have done : (System.exec defaultPmmManager id (InsertsBelowLast (2 ^ 32)) 10 bootSystem
      wholeRequests).map (fun system => (system.managed, system.live)) =
        some ([⟨0, 10⟩], []) := by decide
  obtain ⟨system, finished, same⟩ := Option.map_eq_some_iff.mp done
  obtain ⟨managed, live⟩ := Prod.mk.inj same
  obtain ⟨blocks, represents, -, -, whole⟩ :=
    default_free_coalesces bootSystem_boot (System.exec_run finished)
  exact ⟨system, finished, whole _ managed live ▸ represents⟩

/-- Both parts of a range of ten pages are freed, the upper one last and so at the tail: they are
not merged. -/
def splitRequests : List Request :=
  [.initMemmap 0 10, .allocPages 3, .allocPages 7, .freePages 0 3, .freePages 3 7]

theorem default_tail_not_coalesced :
    ¬ ∀ requests system, Run (System.Step defaultPmmManager id) bootSystem requests system →
      ∀ range, system.managed = [range] → system.live = [] → Represents system.pmm [range] := by
  intro coalesces
  have done : (System.exec defaultPmmManager id (fun _ _ => True) 10 bootSystem
      splitRequests).map (fun system => (system.managed, system.live, system.pmm.property 0)) =
        some ([⟨0, 10⟩], [], 3) := by decide
  obtain ⟨system, finished, same⟩ := Option.map_eq_some_iff.mp done
  obtain ⟨managed, rest⟩ := Prod.mk.inj same
  obtain ⟨live, size⟩ := Prod.mk.inj rest
  have run := (System.exec_run finished).mono fun _ _ _ move => move.1
  have whole := (coalesces splitRequests system run _ managed live).property ⟨0, 10⟩
    (List.mem_singleton_self _)
  rw [size] at whole
  revert whole
  decide

end UCore.Mm
