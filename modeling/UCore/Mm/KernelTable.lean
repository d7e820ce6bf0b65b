import Mathlib.Data.Finset.Max
import UCore.Mm.PageInit
import UCore.Mm.PageTableWalk

/-!
Contract: the page table that `switch_kernel_memorylayout` of `kern/mm/pmm.c` builds.

Owns:
- `boot_alloc_page`, `boot_map_segment` and `switch_kernel_memorylayout`;
- the tree of tables under the new directory, with the number of pages that it takes;
- which pages a segment maps, and when there is no page for one of its tables.

The guard pages of the kernel stack, which are mapped anew once the directory is in use, lie in the
kernel image.

Does not own: the tables of the processes.
-/

set_option autoImplicit false

namespace UCore.Mm

open UCore.Lib

/-! ## The program -/

namespace Memory

variable (memory : Memory)

def bootAllocPage (allocator : PageAllocator) : Except Stop (Nat × Memory) :=
  match memory.allocPage allocator with
  | (none, _) => .error .panicked
  | (some page, memory) => do
      let page ← memory.kaddr page
      pure (page, memory)

/-- The loop of `boot_map_segment`. -/
def bootMapLoop (allocator : PageAllocator) (pgdir perm : Nat) :
    Nat → Memory → Nat → Nat → Except Stop Memory
  | 0, memory, _, _ => .ok memory
  | n + 1, memory, la, pa => do
      match ← memory.getPte allocator pgdir la true with
      | (none, _) => Except.error .assertFailed
      | (some (pt, index), memory) =>
          bootMapLoop allocator pgdir perm n
            (memory.setEntry pt index (pteCreate (pa / pgSize) (pteV ||| perm)))
            ((la + pgSize) % 2 ^ 64) ((pa + pgSize) % 2 ^ 64)

def bootMapSegment (allocator : PageAllocator) (pgdir la size pa perm : Nat) :
    Except Stop Memory :=
  if la % pgSize = pa % pgSize then
    bootMapLoop allocator pgdir perm (roundUp64 ((size + la % pgSize) % 2 ^ 64) pgSize / pgSize)
      memory (roundDown la pgSize) (roundDown pa pgSize)
  else .error .assertFailed

/-- The new directory, and the memory with its tables. -/
def switchKernelMemorylayout (allocator : PageAllocator) (etext : Nat) :
    Except Stop (Nat × Memory) := do
  let (pgdir, memory) ← memory.bootAllocPage allocator
  let retext := roundUp64 etext pgSize
  let first ← paddr kernBase
  let memory ← (memory.clearPage pgdir).bootMapSegment allocator pgdir kernBase
    ((retext + 2 ^ 64 - kernBase) % 2 ^ 64) first (pteR ||| pteX)
  let second ← paddr retext
  let memory ← memory.bootMapSegment allocator pgdir retext
    ((kernTop + 2 ^ 64 - retext) % 2 ^ 64) second (pteR ||| pteW)
  pure (pgdir, memory)

end Memory

/-! ## The tree -/

/-- Three levels of tables, all of them used. -/
@[reducible] def kernelRadix : Radix Nat Nat where
  child := pteTarget
  absent := 0
  childless := pteTarget_zero
  depth := 3
  uses := fun _ index => index < nPteEntry

theorem pteAt_kernel (memory : Memory) (pgdir la : Nat) :
    memory.pteAt pgdir la = kernelRadix.lookup memory.entry pgdir (pagePath la) := by
  unfold Memory.pteAt pagePath
  simp only [Radix.lookup]

theorem usesAll_kernel (la : Nat) : kernelRadix.UsesAll [] (pagePath la) :=
  ⟨pdx1_lt la, pdx0_lt la, ptx_lt la, trivial⟩

/-- Addresses of 39 bits with one path are in one page. -/
theorem pagePath_kernel {la other : Nat} :
    pagePath la = pagePath other ↔ la / pgSize % 2 ^ 27 = other / pgSize % 2 ^ 27 := by
  unfold pagePath pdx1 pdx0 ptx pgSize
  simp only [List.cons.injEq, and_true]
  omega

/-- The tables of the directory have the `places`, and together with the free pages they are
`total` pages. -/
structure Rooted (memory : Memory) (pgdir : Nat) (owner : Nat → Option (Unit × List Nat))
    (places : Finset (List Nat)) (total : Nat) : Prop where
  owned : kernelRadix.Owned memory.entry owner
  root : owner pgdir = some ((), [])
  listed : ∀ place, place ∈ places ↔ ∃ frame, owner frame = some ((), place)
  small : memory.npage ≤ 2 ^ 52
  spare : ∀ page ∈ memory.free, page < memory.npage ∧ owner page = none
  inside : ∀ frame place, owner frame = some place → frame < memory.npage
  counted : places.card + memory.free.card = total

/-- The memory after `alloc_page` answered `page`. -/
def Memory.taken (memory : Memory) (page : Nat) : Memory :=
  { memory with
    free := memory.free.erase page
    allocs := memory.allocs + 1 }

def freshOwner (pgdir frame : Nat) : Option (Unit × List Nat) :=
  if frame = pgdir then some ((), []) else none

theorem freshOwner_some {pgdir frame : Nat} {root : Unit} {place : List Nat}
    (here : freshOwner pgdir frame = some (root, place)) : frame = pgdir ∧ place = [] := by
  unfold freshOwner at here
  split_ifs at here with same
  exact ⟨same, (Prod.mk.inj (Option.some.inj here)).2.symm⟩

theorem Memory.cleared_entry (memory : Memory) (page index : Nat) :
    (memory.clearPage page).entry page index = 0 := by
  rw [Memory.clearPage_entry, Function.update_self]

/-- A fresh directory leads nowhere. -/
theorem rooted_fresh {memory : Memory} {pgdir : Nat} (small : memory.npage ≤ 2 ^ 52)
    (spare : ∀ page ∈ memory.free, page < memory.npage) (isFree : pgdir ∈ memory.free) :
    Rooted ((memory.taken pgdir).clearPage pgdir) pgdir (freshOwner pgdir) {[]}
      memory.free.card := by
  constructor
  · constructor
    · intro frame other place here there
      exact (freshOwner_some here).1.trans (freshOwner_some there).1.symm
    · intro frame root place index down here _ _ leads
      obtain ⟨rfl, _⟩ := freshOwner_some here
      rw [Memory.cleared_entry] at leads
      cases pteTarget_zero.symm.trans leads
    · intro frame root place index here
      exact absurd (freshOwner_some here).2
        (List.append_ne_nil_of_right_ne_nil _ (List.cons_ne_nil _ _))
    · intro frame root place index here _ _
      obtain ⟨rfl, _⟩ := freshOwner_some here
      exact Memory.cleared_entry _ _ _
  · exact if_pos rfl
  · intro place
    rw [Finset.mem_singleton]
    constructor
    · rintro rfl
      exact ⟨pgdir, if_pos rfl⟩
    · rintro ⟨frame, here⟩
      exact (freshOwner_some here).2
  · exact small
  · intro page still
    obtain ⟨apart, wasFree⟩ := Finset.mem_erase.mp still
    exact ⟨spare page wasFree, if_neg apart⟩
  · intro frame place here
    obtain ⟨rfl, _⟩ := freshOwner_some here
    exact spare frame isFree
  · have positive := Finset.card_pos.mpr ⟨pgdir, isFree⟩
    have card : (memory.free.erase pgdir).card = memory.free.card - 1 :=
      Finset.card_erase_of_mem isFree
    change 1 + (memory.free.erase pgdir).card = memory.free.card
    omega

theorem pteAt_fresh (memory : Memory) (pgdir la : Nat) :
    (memory.clearPage pgdir).pteAt pgdir la = 0 := by
  rw [pteAt_kernel]
  exact Radix.lookup_absent (memory.cleared_entry pgdir)

/-! ## Making tables -/

section

variable {memory : Memory} {pgdir frame index page total : Nat} {place : List Nat}
  {owner : Nat → Option (Unit × List Nat)} {places : Finset (List Nat)}

theorem Rooted.place_mem (rooted : Rooted memory pgdir owner places total)
    (here : owner frame = some ((), place)) : place ∈ places :=
  (rooted.listed place).mpr ⟨frame, here⟩

/-- A free page becomes the table of a place that has none. -/
theorem Rooted.linked (rooted : Rooted memory pgdir owner places total)
    (here : owner frame = some ((), place)) (inner : place.length + 1 < kernelRadix.depth)
    (inTable : index < nPteEntry) (missing : pteTarget (memory.entry frame index) = none)
    (isFree : page ∈ memory.free) :
    Rooted (memory.linked frame index page) pgdir
      (Function.update owner page (some ((), place ++ [index])))
      (insert (place ++ [index]) places) total ∧
    ∀ la, (memory.linked frame index page).pteAt pgdir la = memory.pteAt pgdir la := by
  obtain ⟨inRange, unowned⟩ := rooted.spare page isFree
  have smallPage : page < 2 ^ 52 := Nat.lt_of_lt_of_le inRange rooted.small
  have entries : (memory.linked frame index page).entry = kernelRadix.link memory.entry frame index
      page (pteCreate page (pteU ||| pteV)) := Memory.linked_entry smallPage
  have leads : kernelRadix.child (pteCreate page (pteU ||| pteV)) = some page :=
    child_table smallPage
  have apart : page ≠ frame := by
    rintro rfl
    rw [unowned] at here
    cases here
  have old : ∀ other, other ≠ page →
      Function.update owner page (some ((), place ++ [index])) other = owner other :=
    fun other notFresh => Function.update_of_ne notFresh _ _
  have linked := rooted.owned.link here inner inTable missing unowned leads
  have vacant : place ++ [index] ∉ places := by
    rw [rooted.listed]
    rintro ⟨other, isOwned⟩
    obtain ⟨_, _, up, isUp, isLinked⟩ := rooted.owned.above _ _ _ _ isOwned
    rw [rooted.owned.unique _ _ _ isUp here] at isLinked
    cases missing.symm.trans isLinked
  refine ⟨⟨?_, ?_, ?_, rooted.small, ?_, ?_, ?_⟩, fun la => ?_⟩
  · rw [entries]
    exact linked
  · rw [old pgdir]
    · exact rooted.root
    · rintro rfl
      cases unowned.symm.trans rooted.root
  · intro other
    rw [Finset.mem_insert, rooted.listed]
    constructor
    · rintro (rfl | ⟨table, isOwned⟩)
      · exact ⟨page, Function.update_self ..⟩
      · refine ⟨table, (old table ?_).trans isOwned⟩
        rintro rfl
        cases unowned.symm.trans isOwned
    · rintro ⟨table, isOwned⟩
      by_cases isFresh : table = page
      · subst isFresh
        rw [Function.update_self] at isOwned
        exact Or.inl (Prod.mk.inj (Option.some.inj isOwned)).2.symm
      · exact Or.inr ⟨table, (old table isFresh).symm.trans isOwned⟩
  · intro other still
    obtain ⟨notFresh, wasFree⟩ := Finset.mem_erase.mp still
    rw [old other notFresh]
    exact rooted.spare other wasFree
  · intro table other isOwned
    by_cases isFresh : table = page
    · exact isFresh ▸ inRange
    · exact rooted.inside table other ((old table isFresh).symm.trans isOwned)
  · have positive := Finset.card_pos.mpr ⟨page, isFree⟩
    have card : (memory.free.erase page).card = memory.free.card - 1 :=
      Finset.card_erase_of_mem isFree
    have counted := rooted.counted
    rw [Finset.card_insert_of_notMem vacant]
    change places.card + 1 + (memory.free.erase page).card = total
    omega
  · rw [pteAt_kernel, pteAt_kernel, entries]
    refine rooted.owned.lookup_link missing unowned apart leads rooted.root (by decide) rfl
      (usesAll_kernel la) fun other isOther => ?_
    obtain rfl := Option.some.inj (isOther.symm.trans here)
    exact inner

/-- One of the two steps of `get_pte` finds a table, makes it, or has no page for it. -/
theorem Rooted.nextTable (rooted : Rooted memory pgdir owner places total)
    (allocator : PageAllocator) (here : owner frame = some ((), place))
    (inner : place.length + 1 < kernelRadix.depth) (inTable : index < nPteEntry) :
    (∃ below after owner',
      memory.nextTable allocator true frame index = .ok (some below, after) ∧
      Rooted after pgdir owner' (insert (place ++ [index]) places) total ∧
      (∀ la, after.pteAt pgdir la = memory.pteAt pgdir la) ∧
      owner' below = some ((), place ++ [index])) ∨
    (∃ after, memory.nextTable allocator true frame index = .ok (none, after)) ∧
      allocator.pick memory = none ∧ place ++ [index] ∉ places := by
  unfold Memory.nextTable
  by_cases valid : pteValid (memory.entry frame index)
  · have leads := pteTarget_some.mpr ⟨valid, rfl⟩
    have isBelow := rooted.owned.below _ _ _ _ _ here inner inTable leads
    have inRange := rooted.inside _ _ isBelow
    refine Or.inl ⟨ptePpn (memory.entry frame index), memory, owner, ?_, ?_, fun _ => rfl, isBelow⟩
    · rw [if_pos valid]
      unfold Memory.kaddr
      rw [if_pos inRange]
      rfl
    · rw [Finset.insert_eq_of_mem (rooted.place_mem isBelow)]
      exact rooted
  · rw [if_neg valid, if_neg (by decide)]
    have missing := pteTarget_none.mpr valid
    unfold Memory.allocPage
    cases picked : allocator.pick memory with
    | none =>
        refine Or.inr ⟨⟨_, rfl⟩, rfl, ?_⟩
        rw [rooted.listed]
        rintro ⟨other, isOwned⟩
        obtain ⟨_, _, up, isUp, isLinked⟩ := rooted.owned.above _ _ _ _ isOwned
        rw [rooted.owned.unique _ _ _ isUp here] at isLinked
        cases missing.symm.trans isLinked
    | some page =>
        have isFree := allocator.pick_free memory page picked
        obtain ⟨inRange, _⟩ := rooted.spare page isFree
        have small : page < 2 ^ 52 := Nat.lt_of_lt_of_le inRange rooted.small
        obtain ⟨linked, same⟩ := rooted.linked here inner inTable missing isFree
        refine Or.inl ⟨page, memory.linked frame index page, _, ?_, linked, same,
          Function.update_self ..⟩
        have leads : pteTarget ((memory.linked frame index page).entry frame index) = some page := by
          rw [Memory.linked_entry small, Radix.link_self]
          exact child_table small
        have first : (memory.taken page).kaddr page = .ok page := if_pos inRange
        have second : (memory.linked frame index page).kaddr
            (ptePpn ((memory.linked frame index page).entry frame index)) = .ok page := by
          rw [(pteTarget_some.mp leads).2]
          exact if_pos inRange
        change ((memory.taken page).kaddr page >>= fun page' => _) = _
        rw [first]
        change ((memory.linked frame index page).kaddr
          (ptePpn ((memory.linked frame index page).entry frame index)) >>= fun below => _) = _
        rw [second]
        rfl

/-- The places of the tables for the page of an address. -/
def tablePlaces (la : Nat) : Finset (List Nat) := {[pdx1 la], [pdx1 la, pdx0 la]}

theorem union_tablePlaces {la : Nat} :
    insert ([pdx1 la] ++ [pdx0 la]) (insert ([] ++ [pdx1 la]) places) =
      places ∪ tablePlaces la := by
  rw [tablePlaces, Finset.union_comm, Finset.insert_union, Finset.singleton_union]
  exact Finset.insert_comm _ _ _

/-- No page is left for one of the tables that the addresses need. -/
def Refused (allocator : PageAllocator) (pgdir total : Nat) (needed : Finset (List Nat)) : Prop :=
  ∃ memory owner places, Rooted memory pgdir owner places total ∧ allocator.pick memory = none ∧
    places ⊆ needed ∧ ¬ needed ⊆ places

theorem Rooted.getPte (rooted : Rooted memory pgdir owner places total) (allocator : PageAllocator)
    (la : Nat) :
    (∃ pt after owner', memory.getPte allocator pgdir la true = .ok (some (pt, ptx la), after) ∧
      Rooted after pgdir owner' (places ∪ tablePlaces la) total ∧
      (∀ other, after.pteAt pgdir other = memory.pteAt pgdir other) ∧
      owner' pt = some ((), [pdx1 la, pdx0 la])) ∨
    (∃ after, memory.getPte allocator pgdir la true = .ok (none, after)) ∧
      Refused allocator pgdir total (places ∪ tablePlaces la) := by
  have first : [pdx1 la] ∈ places ∪ tablePlaces la :=
    Finset.mem_union_right _ (Finset.mem_insert_self _ _)
  have second : [pdx1 la, pdx0 la] ∈ places ∪ tablePlaces la :=
    Finset.mem_union_right _ (Finset.mem_insert_of_mem (Finset.mem_singleton_self _))
  unfold Memory.getPte
  rcases rooted.nextTable allocator rooted.root (by decide) (pdx1_lt la) with
    ⟨pd0, middle, owner₁, ran, rooted₁, same₁, isPd0⟩ | ⟨⟨after, ran⟩, picked, vacant⟩
  · rw [ran]
    rcases rooted₁.nextTable allocator isPd0 (Nat.lt_succ_self 2) (pdx0_lt la) with
      ⟨pt, last, owner₂, ran', rooted₂, same₂, isPt⟩ | ⟨⟨after, ran'⟩, picked, vacant⟩
    · refine Or.inl ⟨pt, last, owner₂, ?_, ?_, fun other => (same₂ other).trans (same₁ other), isPt⟩
      · simp only [bind, Except.bind, ran']
        rfl
      · rw [← union_tablePlaces]
        exact rooted₂
    · refine Or.inr ⟨⟨after, ?_⟩, middle, owner₁, _, rooted₁, picked, ?_, fun all => ?_⟩
      · simp only [bind, Except.bind, ran']
        rfl
      · exact Finset.insert_subset first Finset.subset_union_left
      · exact vacant (all second)
  · refine Or.inr ⟨⟨after, ?_⟩, memory, owner, places, rooted, picked, Finset.subset_union_left,
      fun all => vacant (all first)⟩
    simp only [bind, Except.bind, ran]
    rfl

/-- An entry of a lowest table is written. -/
theorem Rooted.setEntry (rooted : Rooted memory pgdir owner places total) {la ppn type : Nat}
    (here : owner frame = some ((), [pdx1 la, pdx0 la])) (small : ppn < 2 ^ 52)
    (flags : type < 2 ^ 10) :
    Rooted (memory.setEntry frame (ptx la) (pteCreate ppn type)) pgdir owner places total ∧
    pteTarget ((memory.setEntry frame (ptx la) (pteCreate ppn type)).pteAt pgdir la) = some ppn ∧
    ∀ other, pagePath other ≠ pagePath la →
      (memory.setEntry frame (ptx la) (pteCreate ppn type)).pteAt pgdir other =
        memory.pteAt pgdir other := by
  have leads : pteTarget (pteCreate ppn type) = some ppn := pteTarget_create small flags
  have entries : (memory.setEntry frame (ptx la) (pteCreate ppn type)).entry =
      Radix.write memory.entry frame (ptx la) (pteCreate ppn type) :=
    Memory.setEntry_entry (pteCreate_lt small flags)
  have proper : kernelRadix.child (pteCreate ppn type) = none →
      pteCreate ppn type = kernelRadix.absent := fun none => by cases leads.symm.trans none
  refine ⟨⟨?_, rooted.root, rooted.listed, rooted.small, rooted.spare, rooted.inside,
    rooted.counted⟩, ?_, fun other apart => ?_⟩
  · rw [entries]
    exact rooted.owned.write here rfl proper
  · rw [pteAt_kernel, entries]
    have found : kernelRadix.lookup (Radix.write memory.entry frame (ptx la) (pteCreate ppn type))
        pgdir ([pdx1 la, pdx0 la] ++ [ptx la]) = pteCreate ppn type :=
      rooted.owned.lookup_write_self here rfl proper rooted.root
    exact (congrArg pteTarget found).trans leads
  · rw [pteAt_kernel, pteAt_kernel, entries]
    exact rooted.owned.lookup_write here rfl rooted.root rfl (usesAll_kernel other)
      fun both => apart both.2

/-! ## Segments -/

/-- The places of the tables for `n` pages from an address on. -/
def segmentPlaces (la n : Nat) : Finset (List Nat) :=
  (Finset.range n).biUnion fun i => tablePlaces (la + i * pgSize)

theorem segmentPlaces_succ {la next n : Nat}
    (follows : ∀ i < n, next + i * pgSize = la + (i + 1) * pgSize) :
    segmentPlaces la (n + 1) = tablePlaces la ∪ segmentPlaces next n := by
  ext place
  simp only [segmentPlaces, Finset.mem_biUnion, Finset.mem_union, Finset.mem_range]
  constructor
  · rintro ⟨i, inside, member⟩
    cases i with
    | zero =>
        rw [Nat.zero_mul, Nat.add_zero] at member
        exact Or.inl member
    | succ i =>
        rw [← follows i (by omega)] at member
        exact Or.inr ⟨i, by omega, member⟩
  · rintro (member | ⟨i, inside, member⟩)
    · refine ⟨0, Nat.succ_pos n, ?_⟩
      rw [Nat.zero_mul, Nat.add_zero]
      exact member
    · rw [follows i inside] at member
      exact ⟨i + 1, by omega, member⟩

theorem Refused.mono {allocator : PageAllocator} {needed more : Finset (List Nat)}
    (refused : Refused allocator pgdir total needed) (fewer : needed ⊆ more) :
    Refused allocator pgdir total more := by
  obtain ⟨memory, owner, places, rooted, picked, inside, missing⟩ := refused
  exact ⟨memory, owner, places, rooted, picked, inside.trans fewer,
    fun all => missing (fewer.trans all)⟩

/-- The loop maps its pages and no others, or it stops for want of a page. -/
theorem Rooted.bootMapLoop {perm n la pa : Nat} (rooted : Rooted memory pgdir owner places total)
    (allocator : PageAllocator) (flags : perm < 2 ^ 10) (inLa : la + n * pgSize ≤ 2 ^ 64)
    (inPa : pa + n * pgSize ≤ 2 ^ 64) (short : n ≤ 2 ^ 27) :
    (∃ final owner', Memory.bootMapLoop allocator pgdir perm n memory la pa = .ok final ∧
      Rooted final pgdir owner' (places ∪ segmentPlaces la n) total ∧
      (∀ i < n, pteTarget (final.pteAt pgdir (la + i * pgSize)) = some (pa / pgSize + i)) ∧
      ∀ other, (∀ i < n, pagePath other ≠ pagePath (la + i * pgSize)) →
        final.pteAt pgdir other = memory.pteAt pgdir other) ∨
    (∃ stop, Memory.bootMapLoop allocator pgdir perm n memory la pa = .error stop) ∧
      Refused allocator pgdir total (places ∪ segmentPlaces la n) := by
  induction n generalizing memory owner places la pa with
  | zero =>
      refine Or.inl ⟨memory, owner, rfl, ?_, ?_, fun _ _ => rfl⟩
      · exact (Finset.union_empty places).symm ▸ rooted
      · exact fun i inside => absurd inside (Nat.not_lt_zero i)
  | succ n inductionHypothesis =>
      unfold pgSize at inLa inPa
      have nextLa : ∀ i < n, (la + pgSize) % 2 ^ 64 + i * pgSize = la + (i + 1) * pgSize := by
        intro i inside
        unfold pgSize
        omega
      have split := segmentPlaces_succ nextLa
      rw [split, ← Finset.union_assoc]
      rcases rooted.getPte allocator la with
        ⟨pt, found, owner₁, ran, rooted₁, same, isPt⟩ | ⟨⟨after, ran⟩, refused⟩
      · have small : pa / pgSize < 2 ^ 52 := by
          unfold pgSize
          omega
        have flags' : pteV ||| perm < 2 ^ 10 := Nat.or_lt_two_pow (by decide) flags
        obtain ⟨rooted₂, target, others⟩ := rooted₁.setEntry isPt small flags'
        have unfolded : Memory.bootMapLoop allocator pgdir perm (n + 1) memory la pa =
            Memory.bootMapLoop allocator pgdir perm n
              (found.setEntry pt (ptx la) (pteCreate (pa / pgSize) (pteV ||| perm)))
              ((la + pgSize) % 2 ^ 64) ((pa + pgSize) % 2 ^ 64) := by
          rw [Memory.bootMapLoop, ran]
          rfl
        rw [unfolded]
        have inLa' : (la + pgSize) % 2 ^ 64 + n * pgSize ≤ 2 ^ 64 := by
          unfold pgSize
          omega
        have inPa' : (pa + pgSize) % 2 ^ 64 + n * pgSize ≤ 2 ^ 64 := by
          unfold pgSize
          omega
        rcases inductionHypothesis rooted₂ inLa' inPa' (by omega) with
          ⟨final, owner', done, rooted', hits, misses⟩ | stopped
        · refine Or.inl ⟨final, owner', done, rooted', fun i inside => ?_, fun other apart => ?_⟩
          · cases i with
            | zero =>
                rw [Nat.zero_mul, Nat.add_zero, Nat.add_zero, misses la]
                · exact target
                · intro i inside
                  rw [nextLa i inside, ne_eq, pagePath_kernel]
                  unfold pgSize
                  omega
            | succ i =>
                have hit := hits i (by omega)
                rw [nextLa i (by omega)] at hit
                have pages : (pa + pgSize) % 2 ^ 64 / pgSize + i = pa / pgSize + (i + 1) := by
                  unfold pgSize
                  omega
                exact hit.trans (congrArg some pages)
          · have first := apart 0 (Nat.succ_pos n)
            rw [Nat.zero_mul, Nat.add_zero] at first
            rw [misses other, others other first, same other]
            intro i inside
            rw [nextLa i inside]
            exact apart (i + 1) (by omega)
        · exact Or.inr stopped
      · refine Or.inr ⟨⟨.assertFailed, ?_⟩, refused.mono Finset.subset_union_left⟩
        rw [Memory.bootMapLoop, ran]
        rfl

/-- A loop that returns has mapped its pages. -/
theorem Rooted.bootMapLoop_ok {perm n la pa : Nat} {allocator : PageAllocator} {final : Memory}
    (rooted : Rooted memory pgdir owner places total)
    (ran : Memory.bootMapLoop allocator pgdir perm n memory la pa = .ok final)
    (flags : perm < 2 ^ 10) (inLa : la + n * pgSize ≤ 2 ^ 64)
    (inPa : pa + n * pgSize ≤ 2 ^ 64) (short : n ≤ 2 ^ 27) :
    ∃ owner', Rooted final pgdir owner' (places ∪ segmentPlaces la n) total ∧
      (∀ i < n, pteTarget (final.pteAt pgdir (la + i * pgSize)) = some (pa / pgSize + i)) ∧
      ∀ other, (∀ i < n, pagePath other ≠ pagePath (la + i * pgSize)) →
        final.pteAt pgdir other = memory.pteAt pgdir other := by
  rcases rooted.bootMapLoop allocator flags inLa inPa short with
    ⟨last, owner', ran', mapped⟩ | ⟨⟨stop, stops⟩, _⟩
  · cases ran.symm.trans ran'
    exact ⟨owner', mapped⟩
  · cases ran.symm.trans stops

end

theorem bootMapSegment_eq {memory : Memory} {allocator : PageAllocator} {pgdir la n pa perm : Nat}
    (alignedLa : la % pgSize = 0) (alignedPa : pa % pgSize = 0) (fits : n * pgSize + pgSize ≤ 2 ^ 64) :
    memory.bootMapSegment allocator pgdir la (n * pgSize) pa perm =
      Memory.bootMapLoop allocator pgdir perm n memory la pa := by
  have rounds : roundUp64 ((n * pgSize + la % pgSize) % 2 ^ 64) pgSize / pgSize = n := by
    rw [alignedLa]
    unfold roundUp64 roundDown
    unfold pgSize at fits ⊢
    omega
  have same : ∀ address, address % pgSize = 0 → roundDown address pgSize = address := by
    intro address aligned
    rw [roundDown, aligned, Nat.sub_zero]
  unfold Memory.bootMapSegment
  rw [if_pos (alignedLa.trans alignedPa.symm), rounds, same la alignedLa, same pa alignedPa]

/-! ## The window of the kernel -/

/-- The number of pages from `KERNBASE` to `KERNTOP`. -/
def windowPages : Nat := kmemSize / pgSize

/-- The places of the directory and of the tables for the window. -/
def windowPlaces : Finset (List Nat) :=
  insert [] (insert [511] ((Finset.Ico 1 64).image fun index => [511, index]))

theorem card_windowPlaces : windowPlaces.card = 65 := by
  decide +kernel

theorem mem_windowPlaces {place : List Nat} : place ∈ windowPlaces ↔
    place = [] ∨ place = [511] ∨ ∃ index, 1 ≤ index ∧ index < 64 ∧ place = [511, index] := by
  simp only [windowPlaces, Finset.mem_insert, Finset.mem_image, Finset.mem_Ico, and_assoc, eq_comm]

theorem pdx_window {i : Nat} (inside : i < windowPages) :
    pdx1 (kernBase + i * pgSize) = 511 ∧ pdx0 (kernBase + i * pgSize) = 1 + i / 512 := by
  unfold windowPages kmemSize pgSize at inside
  unfold pdx1 pdx0 kernBase pgSize
  omega

/-- Part of the window needs tables of the window only. -/
theorem segmentPlaces_window {first n : Nat} (inside : first + n ≤ windowPages) :
    segmentPlaces (kernBase + first * pgSize) n ⊆ windowPlaces := by
  intro place member
  obtain ⟨i, isPage, needed⟩ := Finset.mem_biUnion.mp member
  have small := Finset.mem_range.mp isPage
  have address : kernBase + first * pgSize + i * pgSize = kernBase + (first + i) * pgSize := by
    rw [Nat.add_mul, Nat.add_assoc]
  obtain ⟨top, next⟩ := @pdx_window (first + i) (by omega)
  rw [address, tablePlaces, top, next, Finset.mem_insert, Finset.mem_singleton] at needed
  rw [mem_windowPlaces]
  rcases needed with rfl | rfl
  · exact Or.inr (Or.inl rfl)
  · refine Or.inr (Or.inr ⟨_, Nat.le_add_right 1 _, ?_, rfl⟩)
    unfold windowPages kmemSize pgSize at inside
    omega

/-- Two parts that cover the window need all its tables. -/
theorem windowPlaces_covered {places : Finset (List Nat)} (root : [] ∈ places)
    (covers : ∀ i < windowPages, tablePlaces (kernBase + i * pgSize) ⊆ places) :
    windowPlaces ⊆ places := by
  intro place member
  rcases mem_windowPlaces.mp member with rfl | rfl | ⟨index, low, high, rfl⟩
  · exact root
  · have first : (0 : Nat) < windowPages := by decide
    apply covers 0 first
    rw [tablePlaces, (pdx_window first).1]
    exact Finset.mem_insert_self _ _
  · have inside : (index - 1) * 512 < windowPages := by
      unfold windowPages kmemSize pgSize
      omega
    apply covers _ inside
    obtain ⟨top, next⟩ := pdx_window inside
    have isIndex : 1 + (index - 1) * 512 / 512 = index := by omega
    rw [tablePlaces, top, next, isIndex]
    exact Finset.mem_insert_of_mem (Finset.mem_singleton_self _)

theorem mem_segmentPlaces {la n i : Nat} (inside : i < n) :
    tablePlaces (la + i * pgSize) ⊆ segmentPlaces la n :=
  fun _ member => Finset.mem_biUnion.mpr ⟨i, Finset.mem_range.mpr inside, member⟩

/-! ## The switch -/

/-- The first page behind the text of the kernel. -/
def retext (etext : Nat) : Nat := roundUp64 etext pgSize

/-- The number of pages of the first segment. -/
def textPages (etext : Nat) : Nat := (retext etext + 2 ^ 64 - kernBase) % 2 ^ 64 / pgSize

theorem textPages_eq {etext : Nat} :
    (retext etext + 2 ^ 64 - kernBase) % 2 ^ 64 = textPages etext * pgSize := by
  unfold textPages retext roundUp64 roundDown kernBase pgSize
  omega

/-- The second segment goes on where the first one ends, up to the end of the window. -/
theorem restPages_eq {etext : Nat} (above : kernBase ≤ retext etext)
    (inWindow : retext etext ≤ kernTop) :
    retext etext = kernBase + textPages etext * pgSize ∧
    (kernTop + 2 ^ 64 - retext etext) % 2 ^ 64 = (windowPages - textPages etext) * pgSize ∧
    textPages etext ≤ windowPages := by
  have aligned : retext etext % pgSize = 0 := by
    unfold retext roundUp64 roundDown pgSize
    omega
  unfold textPages windowPages
  unfold kernTop kmemSize at inWindow ⊢
  unfold kernBase at above inWindow ⊢
  unfold pgSize at aligned ⊢
  omega

theorem textPages_beyond {etext : Nat} (beyond : kernTop < retext etext) :
    windowPages ≤ textPages etext := by
  have top : retext etext < 2 ^ 64 := by
    unfold retext roundUp64 roundDown pgSize
    omega
  unfold textPages windowPages
  unfold kernTop kmemSize at beyond
  unfold kmemSize kernBase pgSize
  unfold kernBase at beyond
  omega

/-- The first segment does not go past the last address. -/
theorem textPages_bounds {etext : Nat} (low : kernBase ≤ etext) (high : etext < 2 ^ 64) :
    kernBase + textPages etext * pgSize ≤ 2 ^ 64 ∧
    kernBase - physicalMemoryOffset + textPages etext * pgSize ≤ 2 ^ 64 ∧
    textPages etext ≤ 2 ^ 27 := by
  unfold textPages retext roundUp64 roundDown physicalMemoryOffset
  unfold kernBase at low ⊢
  unfold pgSize
  omega

/-- The second segment is the loop for the pages that the first one left. -/
theorem secondSegment_eq {middle : Memory} {allocator : PageAllocator} {page etext : Nat}
    (above : kernBase ≤ retext etext) (inWindow : retext etext ≤ kernTop) :
    middle.bootMapSegment allocator page (retext etext)
      ((kernTop + 2 ^ 64 - retext etext) % 2 ^ 64) (retext etext - physicalMemoryOffset)
      (pteR ||| pteW) = Memory.bootMapLoop allocator page (pteR ||| pteW)
        (windowPages - textPages etext) middle (retext etext)
        (retext etext - physicalMemoryOffset) := by
  obtain ⟨position, rest, _⟩ := restPages_eq above inWindow
  rw [rest]
  apply bootMapSegment_eq
  · rw [position]
    unfold kernBase pgSize
    omega
  · rw [position]
    unfold kernBase physicalMemoryOffset pgSize
    omega
  · unfold windowPages kmemSize pgSize
    omega

theorem secondSegment_bounds {etext : Nat} (above : kernBase ≤ retext etext)
    (inWindow : retext etext ≤ kernTop) :
    retext etext + (windowPages - textPages etext) * pgSize ≤ 2 ^ 64 ∧
    retext etext - physicalMemoryOffset + (windowPages - textPages etext) * pgSize ≤ 2 ^ 64 ∧
    windowPages - textPages etext ≤ 2 ^ 27 := by
  obtain ⟨position, _, fewer⟩ := restPages_eq above inWindow
  rw [position]
  unfold windowPages kmemSize at fewer ⊢
  unfold kernBase physicalMemoryOffset
  unfold pgSize at fewer ⊢
  omega

section

variable {memory : Memory} {allocator : PageAllocator} {etext pgdir : Nat}

/-- The two segments, once there is a page for the directory. -/
theorem switch_eq (picked : allocator.pick memory = some pgdir) (inRange : pgdir < memory.npage) :
    memory.switchKernelMemorylayout allocator etext =
      (Memory.bootMapLoop allocator pgdir (pteR ||| pteX) (textPages etext)
        ((memory.taken pgdir).clearPage pgdir) kernBase (kernBase - physicalMemoryOffset)).bind
      fun middle => (paddr (retext etext)).bind fun second =>
        (middle.bootMapSegment allocator pgdir (retext etext)
          ((kernTop + 2 ^ 64 - retext etext) % 2 ^ 64) second (pteR ||| pteW)).bind
        fun final => .ok (pgdir, final) := by
  have alloc : memory.bootAllocPage allocator = .ok (pgdir, memory.taken pgdir) := by
    have known : (memory.taken pgdir).kaddr pgdir = .ok pgdir := if_pos inRange
    unfold Memory.bootAllocPage Memory.allocPage
    rw [picked]
    change ((memory.taken pgdir).kaddr pgdir).bind _ = _
    rw [known]
    rfl
  have base : paddr kernBase = .ok (kernBase - physicalMemoryOffset) := if_neg (Nat.lt_irrefl _)
  have fits : textPages etext * pgSize + pgSize ≤ 2 ^ 64 := by
    rw [← textPages_eq]
    unfold retext roundUp64 roundDown kernBase pgSize
    omega
  have first := @bootMapSegment_eq ((memory.taken pgdir).clearPage pgdir) allocator pgdir kernBase
    (textPages etext) (kernBase - physicalMemoryOffset) (pteR ||| pteX) (by decide) (by decide) fits
  rw [← textPages_eq] at first
  change (memory.bootAllocPage allocator).bind _ = _
  rw [alloc, ok_bind]
  change (paddr kernBase).bind _ = _
  rw [base, ok_bind]
  change (((memory.taken pgdir).clearPage pgdir).bootMapSegment allocator pgdir kernBase
    ((retext etext + 2 ^ 64 - kernBase) % 2 ^ 64) (kernBase - physicalMemoryOffset)
    (pteR ||| pteX)).bind _ = _
  rw [first]
  rfl

variable (small : memory.npage ≤ 2 ^ 52) (spare : ∀ page ∈ memory.free, page < memory.npage)

include small spare

/-- A run that returns has taken a page for each table of the window. Where the text ends inside the
window, it has mapped the window. -/
theorem switch_maps {final : Memory} (low : kernBase ≤ etext) (high : etext < 2 ^ 64)
    (ran : memory.switchKernelMemorylayout allocator etext = .ok (pgdir, final)) :
    windowPlaces.card ≤ memory.free.card ∧
    (retext etext ≤ kernTop → ∀ i < windowPages,
      pteTarget (final.pteAt pgdir (kernBase + i * pgSize)) =
        some ((kernBase - physicalMemoryOffset) / pgSize + i)) := by
  obtain ⟨page, picked⟩ : ∃ page, allocator.pick memory = some page := by
    cases picked : allocator.pick memory with
    | some page => exact ⟨page, rfl⟩
    | none =>
        unfold Memory.switchKernelMemorylayout Memory.bootAllocPage Memory.allocPage at ran
        rw [picked] at ran
        cases ran
  have isFree := allocator.pick_free memory page picked
  rw [switch_eq picked (spare page isFree)] at ran
  have rooted := rooted_fresh small spare isFree
  have bounds := textPages_bounds low high
  obtain ⟨middle, first, ran⟩ := bind_eq_ok ran
  obtain ⟨physical, second, ran⟩ := bind_eq_ok ran
  obtain ⟨last, third, ran⟩ := bind_eq_ok ran
  obtain ⟨rfl, rfl⟩ := Prod.mk.inj (Except.ok.inj ran)
  obtain ⟨owner₁, rooted₁, hits₁, _⟩ := rooted.bootMapLoop_ok first (by decide) bounds.1 bounds.2.1
    bounds.2.2
  have root : [] ∈ ({[]} : Finset (List Nat)) ∪ segmentPlaces kernBase (textPages etext) :=
    Finset.mem_union_left _ (Finset.mem_singleton_self _)
  have total : ∀ {memory' owner places}, Rooted memory' page owner places memory.free.card →
      windowPlaces ⊆ places → windowPlaces.card ≤ memory.free.card := by
    intro memory' owner places rooted all
    exact (Finset.card_le_card all).trans (rooted.counted ▸ Nat.le_add_right _ _)
  by_cases inWindow : retext etext ≤ kernTop
  · by_cases below : retext etext < kernBase
    · have panics : paddr (retext etext) = .error .panicked := if_pos below
      cases second.symm.trans panics
    have address : paddr (retext etext) = .ok (retext etext - physicalMemoryOffset) := if_neg below
    have isPhysical := Except.ok.inj (second.symm.trans address)
    obtain ⟨position, _, fewer⟩ := restPages_eq (not_lt.mp below) inWindow
    rw [isPhysical, secondSegment_eq (not_lt.mp below) inWindow] at third
    have bounds' := secondSegment_bounds (not_lt.mp below) inWindow
    obtain ⟨owner₂, rooted₂, hits₂, misses₂⟩ := rooted₁.bootMapLoop_ok third (by decide) bounds'.1
      bounds'.2.1 bounds'.2.2
    have later : ∀ i, textPages etext ≤ i →
        kernBase + i * pgSize = retext etext + (i - textPages etext) * pgSize := by
      intro i after
      rw [position, Nat.add_assoc, ← Nat.add_mul, Nat.add_sub_cancel' after]
    refine ⟨total rooted₂ (windowPlaces_covered (Finset.mem_union_left _ root) fun i inside => ?_),
      fun _ i inside => ?_⟩
    · by_cases early : i < textPages etext
      · exact (mem_segmentPlaces early).trans
          (Finset.subset_union_right.trans Finset.subset_union_left)
      · rw [later i (not_lt.mp early)]
        exact (mem_segmentPlaces (by omega)).trans Finset.subset_union_right
    · by_cases early : i < textPages etext
      · rw [misses₂ (kernBase + i * pgSize)]
        · exact hits₁ i early
        · intro j isLater
          rw [position, ne_eq, pagePath_kernel]
          unfold windowPages kmemSize pgSize at isLater
          unfold kernBase pgSize
          omega
      · have pages : (retext etext - physicalMemoryOffset) / pgSize + (i - textPages etext) =
            (kernBase - physicalMemoryOffset) / pgSize + i := by
          rw [position]
          unfold kernBase physicalMemoryOffset pgSize
          omega
        rw [later i (not_lt.mp early), hits₂ _ (by omega), pages]
  · refine ⟨total rooted₁ (windowPlaces_covered root fun i inside => ?_), fun impossible =>
      absurd impossible inWindow⟩
    have beyond := textPages_beyond (not_le.mp inWindow)
    exact (mem_segmentPlaces (Nat.lt_of_lt_of_le inside beyond)).trans Finset.subset_union_right

end

/-! ## A run of the switch -/

/-- The allocator that answers the free page with the least number. -/
def lowestPage : PageAllocator where
  pick memory := if left : memory.free.Nonempty then some (memory.free.min' left) else none
  pick_free memory page picked := by
    split_ifs at picked with left
    rw [← Option.some.inj picked]
    exact memory.free.min'_mem left

theorem lowestPage_none {memory : Memory} (picked : lowestPage.pick memory = none) :
    memory.free = ∅ := by
  by_contra nonempty
  have left := Finset.nonempty_iff_ne_empty.mpr nonempty
  have isSome : lowestPage.pick memory = some (memory.free.min' left) := dif_pos left
  cases picked.symm.trans isSome

/-- It runs out of pages only if there are fewer than tables. -/
theorem lowestPage_refused {pgdir total : Nat} {needed : Finset (List Nat)}
    (refused : Refused lowestPage pgdir total needed) : total < needed.card := by
  obtain ⟨memory, owner, places, rooted, picked, inside, missing⟩ := refused
  have counted := rooted.counted
  rw [lowestPage_none picked, Finset.card_empty, Nat.add_zero] at counted
  rw [← counted]
  exact Finset.card_lt_card ⟨inside, missing⟩

/-- With a page for each table the switch returns, and it maps nothing outside of the window. -/
theorem switch_returns {memory : Memory} (small : memory.npage ≤ 2 ^ 52)
    (spare : ∀ page ∈ memory.free, page < memory.npage)
    (enough : windowPlaces.card ≤ memory.free.card) :
    ∃ pgdir final, memory.switchKernelMemorylayout lowestPage kernBase = .ok (pgdir, final) ∧
      ∀ other, (∀ i < windowPages, pagePath other ≠ pagePath (kernBase + i * pgSize)) →
        final.pteAt pgdir other = 0 := by
  have left : memory.free.Nonempty := by
    rw [card_windowPlaces] at enough
    exact Finset.card_pos.mp (by omega)
  obtain ⟨page, picked⟩ : ∃ page, lowestPage.pick memory = some page := ⟨_, dif_pos left⟩
  have isFree := lowestPage.pick_free memory page picked
  have rooted := rooted_fresh small spare isFree
  have none : textPages kernBase = 0 := by decide +kernel
  have start : retext kernBase = kernBase := by decide +kernel
  have bounds := @secondSegment_bounds kernBase (by rw [start]) (by rw [start]; decide)
  have second := @secondSegment_eq ((memory.taken page).clearPage page) lowestPage
    page kernBase (by rw [start]) (by rw [start]; decide)
  rw [none, start, Nat.sub_zero] at bounds second
  have run := @switch_eq memory lowestPage kernBase _ picked (spare _ isFree)
  have address : paddr kernBase = .ok (kernBase - physicalMemoryOffset) := if_neg (Nat.lt_irrefl _)
  rcases rooted.bootMapLoop lowestPage (show pteR ||| pteW < 2 ^ 10 by decide) bounds.1 bounds.2.1
    bounds.2.2 with ⟨final, owner, ran, _, _, misses⟩ | ⟨_, refused⟩
  · refine ⟨page, final, ?_, fun other apart => ?_⟩
    · rw [run, none, start, Memory.bootMapLoop, ok_bind, address, ok_bind, second, ran]
      rfl
    · exact (misses other apart).trans (pteAt_fresh _ _ _)
  · have inWindow : {[]} ∪ segmentPlaces kernBase windowPages ⊆ windowPlaces := by
      refine Finset.union_subset ?_ ?_
      · exact Finset.singleton_subset_iff.mpr (mem_windowPlaces.mpr (Or.inl rfl))
      · have part := @segmentPlaces_window 0 windowPages (Nat.le_of_eq (Nat.zero_add _))
        rw [Nat.zero_mul, Nat.add_zero] at part
        exact part
    have fewer := lowestPage_refused (refused.mono inWindow)
    omega

end UCore.Mm
