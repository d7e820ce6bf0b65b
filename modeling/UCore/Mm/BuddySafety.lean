import UCore.Mm.BuddySystem

/-!
Contract: safety of the buddy system.

Owns:
- `BuddySafe`, what a kernel relies on: listed and live blocks partition the managed pages, the
  flag marks exactly the heads of listed blocks, and the free count is right;
- the theorem that every state is safe as long as no freed block is merged;
- the run in which the first merge leaves the head of a listed block unflagged.
-/

set_option autoImplicit false

namespace UCore.Mm

open UCore.Lib UCore.Libs

/-- Each managed page lies in exactly one listed block or live allocation. The free list of
each order is a circle of blocks of that order, with their sizes in place; the flag marks
exactly the heads of listed blocks; free and live pages add up to the managed ones. -/
def BuddySafe (system : System Nat) : Prop :=
  ∃ blocks : List Block,
    (∀ order < maxOrder, IsRing system.pmm.links (.freeList order) (orderEntries blocks order)) ∧
    (∀ block ∈ blocks, block.order < maxOrder ∧
      system.pmm.property block.base = 2 ^ block.order) ∧
    (∀ page, system.pmm.pageProperty page = true ↔ ∃ block ∈ blocks, block.base = page) ∧
    (Block.extents blocks ++ system.live).Pairwise Extent.Disjoint ∧
    (∀ page, Extent.Covers system.managed page ↔
      Extent.Covers (Block.extents blocks ++ system.live) page) ∧
    buddySystemNrFreePages system.pmm + Extent.total system.live = Extent.total system.managed

/-- A range handed to `init_memmap` lies in physical memory. -/
def InMemory (npage : Nat) (_ : System Nat) : Request → Prop
  | .initMemmap base n => page2ppn base + n ≤ npage
  | .allocPages _ => True
  | .freePages _ _ => True

instance (npage : Nat) : DecidableRel (InMemory npage) := fun _ request =>
  match request with
  | .initMemmap _ _ => inferInstanceAs (Decidable (_ ≤ _))
  | .allocPages _ => inferInstanceAs (Decidable True)
  | .freePages _ _ => inferInstanceAs (Decidable True)

/-- A freed block is of the top order, or its buddy is a page of memory that is not marked as
the head of a free block of the same size. Fewer than `2 ^ 32` pages are managed. -/
def StaysUnmerged (npage : Nat) (system : System Nat) : Request → Prop
  | .initMemmap _ n => Extent.total system.managed + n < 2 ^ 32
  | .allocPages _ => True
  | .freePages base n => n = 2 ^ (maxOrder - 1) ∨
      page2ppn base ^^^ n < npage ∧
        ¬ (system.pmm.property ((page2ppn base ^^^ n) - nbase) = n ∧
          system.pmm.pageProperty ((page2ppn base ^^^ n) - nbase) = true)

instance (npage : Nat) : DecidableRel (StaysUnmerged npage) := fun _ request =>
  match request with
  | .initMemmap _ _ => inferInstanceAs (Decidable (_ < _))
  | .allocPages _ => inferInstanceAs (Decidable True)
  | .freePages _ _ => inferInstanceAs (Decidable (_ ∨ _))

/-- The invariant with exact flags. -/
structure FlaggedInvariant (system : System Nat) (blocks held : List Block) : Prop where
  invariant : BuddyInvariant system blocks held
  flagged : ∀ page, system.pmm.pageProperty page = true ↔ ∃ block ∈ blocks, block.base = page

namespace FlaggedInvariant

variable {npage : Nat} {system next : System Nat} {blocks held : List Block}

theorem safe (flagged : FlaggedInvariant system blocks held) : BuddySafe system := by
  have invariant := flagged.invariant
  refine ⟨blocks, invariant.lists.ring, ?_, flagged.flagged, ?_, ?_, invariant.free_count⟩
  · exact fun block member => ⟨invariant.lists.small block member,
      invariant.lists.property block member⟩
  · rw [invariant.live, ← Block.extents_append]
    exact invariant.apart
  · rw [invariant.live, ← Block.extents_append]
    exact invariant.covered

/-- Heads of listed blocks are managed pages outside every held block. -/
theorem unflagged_held (flagged : FlaggedInvariant system blocks held) {block : Block}
    (member : block ∈ held) : ∀ page ∈ block.extent, system.pmm.pageProperty page = false := by
  intro page inBlock
  rw [← Bool.not_eq_true, flagged.flagged page]
  rintro ⟨head, listed, rfl⟩
  exact (flagged.invariant.apart_split.2 head listed block member).notMem head.base_mem_extent
    inBlock

theorem initMemmap (flagged : FlaggedInvariant system blocks held) {base n : Nat}
    (admitted : system.Admits (.initMemmap base n))
    (meets : StaysUnmerged npage system (.initMemmap base n)) :
    ∃ next blocks', System.Step (buddySystemPmmManager npage) buddyGranted system
      (.initMemmap base n) next ∧ FlaggedInvariant next blocks' held := by
  obtain ⟨new, result, returns, after, -, flags⟩ :=
    flagged.invariant.initMemmap admitted meets
  refine ⟨_, new ++ blocks, .initMemmap admitted returns, after, fun page => ?_⟩
  show result.pageProperty page = true ↔ _
  rw [flags page, flagged.flagged page]
  constructor
  · rintro (⟨block, member, rfl⟩ | ⟨-, block, member, rfl⟩)
    · exact ⟨block, List.mem_append_left _ member, rfl⟩
    · exact ⟨block, List.mem_append_right _ member, rfl⟩
  · rintro ⟨block, member, rfl⟩
    rcases List.mem_append.mp member with fresh | old
    · exact Or.inl ⟨block, fresh, rfl⟩
    · refine Or.inr ⟨fun inside => ?_, block, old, rfl⟩
      -- a listed head is managed, and the range is not
      have managed : Extent.Covers system.managed block.base := by
        rw [flagged.invariant.covered, Block.covers_extents]
        exact ⟨block, List.mem_append_left _ old, block.base_mem_extent⟩
      obtain ⟨range, member, inRange⟩ := managed
      exact (admitted.2 range member).notMem inside inRange

theorem allocPages (flagged : FlaggedInvariant system blocks held) {n : Nat}
    (admitted : system.Admits (.allocPages n)) :
    ∃ next blocks' held', System.Step (buddySystemPmmManager npage) buddyGranted system
      (.allocPages n) next ∧ FlaggedInvariant next blocks' held' := by
  have invariant := flagged.invariant
  rcases invariant.lists.allocPages admitted with none | ⟨left, right, base, count, result, blocks',
    split, returns, lists, moved, reserved, flags⟩
  · exact ⟨system, blocks, held, .allocNull admitted none, flagged⟩
  · have after := invariant.allocated split lists moved reserved
    have step : System.Step (buddySystemPmmManager npage) buddyGranted system (.allocPages n)
        ⟨result, system.managed, ⟨lastHalf (allocOrder n) base count, 2 ^ allocOrder n⟩ ::
          system.live⟩ := by
      rw [← Nat.one_shiftLeft]
      exact .allocPage admitted returns
    refine ⟨_, blocks', _, step, after, fun page => ?_⟩
    show result.pageProperty page = true ↔ _
    rw [flags page, flagged.flagged page]
    have listedNow : (∃ block ∈ blocks', block.base = page) ↔
        (∃ block ∈ remains (allocOrder n) base count, block.base = page) ∨
          ∃ block ∈ left ++ right, block.base = page := by
      simp only [moved.mem_iff, List.mem_append, or_and_right, exists_or]
    have listedBefore : (∃ block ∈ blocks, block.base = page) ↔
        base = page ∨ ∃ block ∈ left ++ right, block.base = page := by
      rw [split]
      simp only [List.perm_middle.mem_iff, List.mem_cons, or_and_right, exists_or,
        exists_eq_left]
    rw [listedNow, listedBefore]
    constructor
    · rintro ⟨different, leftOver | rfl | other⟩
      · exact Or.inl leftOver
      · exact Or.inl ((lastHalf_or_remains (allocOrder n) base count).resolve_left different)
      · exact Or.inr other
    · intro listed
      refine ⟨?_, listed.imp id Or.inr⟩
      rintro rfl
      -- the block handed out meets no listed one
      obtain ⟨block, member, same⟩ := listedNow.mpr listed
      have apart := after.apart_split.2 block member _ List.mem_cons_self
      apply apart.notMem block.base_mem_extent
      rw [same]
      exact Block.base_mem_extent ⟨allocOrder n, lastHalf (allocOrder n) base count⟩

theorem freePages (flagged : FlaggedInvariant system blocks held) {base n : Nat}
    (admitted : system.Admits (.freePages base n))
    (meets : StaysUnmerged npage system (.freePages base n)) :
    ∃ next blocks' held', System.Step (buddySystemPmmManager npage) buddyGranted system
      (.freePages base n) next ∧ FlaggedInvariant next blocks' held' := by
  have invariant := flagged.invariant
  obtain ⟨block, member, rfl, rfl⟩ := invariant.held_of_live admitted
  have small := invariant.small block member
  obtain ⟨marked, run, lists, sized, property, reserved, flags⟩ :=
    invariant.freePages_eq member (flagged.unflagged_held member)
  obtain ⟨away, room⟩ := invariant.held_room member
  have added := @BuddyLists.addPage _ _ block lists small sized away room
  -- the merge stops at once
  have merge : ∀ fuel, mergePage npage (fuel + 1) marked block.order block.base =
      .ok (addPage marked block.order block.base) := by
    intro fuel
    by_cases top : maxOrder - 1 ≤ block.order
    · rw [mergePage, if_pos top]
    · rcases meets with isTop | ⟨inMemory, unmarked⟩
      · have same := Nat.pow_right_injective (Nat.le_refl 2) isTop
        omega
      · have outside : block.buddy.base ∉ block.extent :=
          block.buddy_disjoint.symm.notMem block.buddy.base_mem_extent
        have different : block.buddy.base ≠ block.base :=
          fun same => outside (same ▸ block.base_mem_extent)
        have buddyPage : (page2ppn block.base ^^^ 2 ^ block.order) - nbase = block.buddy.base := by
          rw [page2ppn_xor small]
          exact Nat.add_sub_cancel _ _
        have inMemory' : page2ppn block.buddy.base < npage := page2ppn_xor small block.base ▸ inMemory
        rw [mergePage_succ (by omega), if_neg (by omega), if_neg]
        rw [property _ outside, flags]
        rintro ⟨size, same | marked⟩
        · exact different same
        · rw [buddyPage] at unmarked
          exact unmarked ⟨size, marked⟩
  have after := @BuddyInvariant.released _ _ _ invariant block member (block :: blocks) _ added
    (fun page => by rw [Block.extents_cons, Extent.covers_cons])
    (by rw [Block.extents_cons, Extent.total_cons]; rfl)
    (fun page => by rw [addPage_pageReserved, reserved page])
  refine ⟨_, block :: blocks, held.erase block,
    .freePages admitted ⟨1, fun fuel enough => ?_⟩, after, fun page => ?_⟩
  · obtain ⟨fuel, rfl⟩ : ∃ smaller, fuel = smaller + 1 := ⟨fuel - 1, by omega⟩
    exact (run npage (fuel + 1)).trans (merge fuel)
  · show (addPage marked block.order block.base).pageProperty page = true ↔ _
    rw [addPage_pageProperty, flags page, flagged.flagged page]
    simp only [List.mem_cons, or_and_right, exists_or, exists_eq_left]
    exact or_congr_left eq_comm

/-- Every admitted request that meets the condition is answered, and keeps the invariant. -/
theorem answers (flagged : FlaggedInvariant system blocks held) {request : Request}
    (admitted : system.Admits request) (meets : StaysUnmerged npage system request) :
    ∃ next blocks' held', System.Step (buddySystemPmmManager npage) buddyGranted system
      request next ∧ FlaggedInvariant next blocks' held' := by
  cases request with
  | initMemmap base n =>
      obtain ⟨next, blocks', step, after⟩ := flagged.initMemmap admitted meets
      exact ⟨next, blocks', held, step, after⟩
  | allocPages n => exact flagged.allocPages admitted
  | freePages base n => exact flagged.freePages admitted meets

end FlaggedInvariant

theorem flaggedInvariant_boot {system : System Nat} (boot : BuddyBoot system) :
    FlaggedInvariant system [] [] :=
  ⟨buddyInvariant_boot boot, by simp [boot.unflagged]⟩

/-- As long as no freed block is merged, every state is safe and every request is answered:
no assertion fails and no lookup of a buddy panics. -/
theorem buddy_system_safe {npage : Nat} {start system : System Nat} {requests : List Request}
    (boot : BuddyBoot start)
    (run : Run (System.StepMeeting (buddySystemPmmManager npage) buddyGranted
      (StaysUnmerged npage)) start requests system) :
    BuddySafe system ∧ ∀ request, system.Admits request → StaysUnmerged npage system request →
      ∃ next, System.Step (buddySystemPmmManager npage) buddyGranted system request next := by
  obtain ⟨blocks, held, flagged⟩ := run.invariant
    (fun system => ∃ blocks held, FlaggedInvariant system blocks held)
    (fun before request after ⟨_, _, flagged⟩ ⟨step, meets⟩ => by
      obtain ⟨next, blocks', held', answer, kept⟩ := flagged.answers step.admits meets
      exact step.unique answer ▸ ⟨blocks', held', kept⟩)
    ⟨[], [], flaggedInvariant_boot boot⟩
  refine ⟨flagged.safe, fun request admitted meets => ?_⟩
  obtain ⟨next, -, -, step, -⟩ := flagged.answers admitted meets
  exact ⟨next, step⟩

/-- A range of five pages at an odd frame is split; two blocks come back whose buddies are held
or outside the range. -/
def unmergedRequests : List Request :=
  [.initMemmap 3 5, .allocPages 1, .allocPages 1, .allocPages 2, .freePages 7 1,
    .freePages 3 2]

theorem buddy_system_safe_unmerged :
    ∃ system : System Nat,
      (System.exec (buddySystemPmmManager (nbase + 16)) buddyGranted (StaysUnmerged (nbase + 16))
        10 buddyBootSystem unmergedRequests).map System.live = some [⟨6, 1⟩] ∧
      BuddySafe system := by
  have done : (System.exec (buddySystemPmmManager (nbase + 16)) buddyGranted
      (StaysUnmerged (nbase + 16)) 10 buddyBootSystem unmergedRequests).map System.live =
        some [⟨6, 1⟩] := by decide
  obtain ⟨system, finished, -⟩ := Option.map_eq_some_iff.mp done
  exact ⟨system, done,
    (buddy_system_safe buddyBootSystem_boot (System.exec_run finished)).1⟩

/-- One of the two pages of a range is handed out and comes back. -/
def firstMergeRequests : List Request :=
  [.initMemmap 0 2, .allocPages 1, .freePages 1 1]

theorem buddy_merged_head_unflagged :
    ¬ ∀ requests system,
      Run (System.StepMeeting (buddySystemPmmManager (nbase + 16)) buddyGranted
        (InMemory (nbase + 16))) buddyBootSystem requests system → BuddySafe system := by
  intro safe
  have done : (System.exec (buddySystemPmmManager (nbase + 16)) buddyGranted
      (InMemory (nbase + 16)) 10 buddyBootSystem firstMergeRequests).map
        (fun system => (system.pmm.links.next (.freeList 1), system.pmm.pageProperty 0)) =
      some (.pageLink 0, false) := by decide
  obtain ⟨system, finished, seen⟩ := Option.map_eq_some_iff.mp done
  obtain ⟨listed, unflagged⟩ := Prod.mk.inj seen
  obtain ⟨blocks, ring, -, flagged, -⟩ := safe firstMergeRequests system
    (System.exec_run finished)
  -- page 0 heads the free list of order 1, so it would have to be flagged
  have first := (ring 1 (by decide)).next_head
  rw [listed] at first
  have member : (.pageLink 0 : ListEntry Nat) ∈ orderEntries blocks 1 := by
    cases entries : orderEntries blocks 1 with
    | nil =>
        rw [entries] at first
        cases first
    | cons entry rest =>
        rw [entries] at first
        exact List.mem_cons.mpr (Or.inl first)
  have marked := (flagged 0).mpr ⟨⟨1, 0⟩, pageLink_mem_orderEntries.mp member, rfl⟩
  rw [unflagged] at marked
  cases marked

end UCore.Mm
