import UCore.Lib.Tally
import UCore.Mm.PageTableWalk

/-!
Contract: the reference count of a page is the number of entries that lead to it.

Owns:
- the count of the entries of user addresses that lead to a page;
- `remap`, which is what `page_remove_pte` and `page_insert` do to an entry, to the reference
  counts and to the free pages;
- what `page_insert`, `page_remove` and `pgdir_alloc_page` do to the tables.

Does not own: ranges of addresses.
-/

set_option autoImplicit false

namespace UCore.Mm

open UCore.Lib

variable {memory after : Memory} {dirs : Finset Nat} {tables tables' : TableMap}
  {dir la page table index value : Nat} {place : List Nat} {allocator : PageAllocator}

/-! ## Addresses of entries -/

/-- The address of an entry. -/
def pathAddress (first second third : Nat) : Nat := first * 2 ^ 30 + second * 2 ^ 21 + third * 2 ^ 12

theorem pathAddress_spec {first second third : Nat} (low : first < 2) (next : second < nPteEntry)
    (last : third < nPteEntry) :
    pathAddress first second third < userTop ∧
      pagePath (pathAddress first second third) = [first, second, third] := by
  unfold nPteEntry at next last
  unfold pathAddress userTop pagePath pdx1 pdx0 ptx
  refine ⟨by omega, ?_⟩
  simp only [List.cons.injEq, and_true]
  omega

/-- The page of an address, as a member of the count. -/
theorem pagePath_page {la : Nat} (user : la < userTop) :
    pagePath (la / pgSize * pgSize) = pagePath la := by
  have low : la / pgSize * pgSize ≤ la := Nat.div_mul_le_self la pgSize
  rw [pagePath_eq (lt_of_le_of_lt low user) user, Nat.mul_div_cancel _ (by decide)]

theorem Memory.pteAt_congr {other : Nat} (same : pagePath other = pagePath la) :
    memory.pteAt dir other = memory.pteAt dir la := by
  unfold Memory.pteAt
  rw [same]

/-- Each entry of a lowest table is the entry of a user address. -/
theorem Paged.entry_address (paged : Paged memory dirs tables)
    (here : tables.owner table = some (dir, place)) (lowest : place.length = 2)
    (inTable : index < nPteEntry) :
    ∃ la, la < userTop ∧ dir ∈ dirs ∧ place = [pdx1 la, pdx0 la] ∧ index = ptx la := by
  obtain ⟨first, second, rfl⟩ := List.length_eq_two.mp lowest
  have whole : tables.owner table = some (dir, [first] ++ [second]) := here
  obtain ⟨_, usesSecond, up, isUp, _⟩ := paged.owned.above _ _ _ _ whole
  have upper : tables.owner up = some (dir, [] ++ [first]) := isUp
  obtain ⟨_, usesFirst, top, isTop, _⟩ := paged.owned.above _ _ _ _ upper
  have known := ((paged.root top dir).mp isTop).2
  obtain ⟨user, path⟩ := pathAddress_spec (usesFirst.2 rfl) usesSecond.1 inTable
  unfold pagePath at path
  simp only [List.cons.injEq, and_true] at path
  obtain ⟨isFirst, isSecond, isThird⟩ := path
  refine ⟨pathAddress first second index, user, known, ?_, isThird.symm⟩
  rw [isFirst, isSecond]

/-! ## Pages that entries lead to -/

/-- An entry of a user address leads to the page. -/
def Memory.Maps (memory : Memory) (dirs : Finset Nat) (page : Nat) : Prop :=
  ∃ dir ∈ dirs, ∃ la < userTop, pteTarget (memory.pteAt dir la) = some page

/-- How many valid entries of user addresses lead to the page, over all directories. -/
def Memory.mappings (memory : Memory) (dirs : Finset Nat) (page : Nat) : Int :=
  tally (dirs ×ˢ Finset.range (userTop / pgSize))
    (fun slot => pteTarget (memory.pteAt slot.1 (slot.2 * pgSize)))
    fun target => decide (target = some page)

theorem Memory.maps_iff : memory.Maps dirs page ↔ 0 < memory.mappings dirs page := by
  unfold Memory.mappings
  constructor
  · rintro ⟨dir, known, la, user, leads⟩
    have within : (dir, la / pgSize) ∈ dirs ×ˢ Finset.range (userTop / pgSize) := by
      rw [Finset.mem_product, Finset.mem_range]
      refine ⟨known, ?_⟩
      unfold userTop at user
      unfold userTop pgSize
      omega
    have same : memory.pteAt dir (la / pgSize * pgSize) = memory.pteAt dir la :=
      Memory.pteAt_congr (pagePath_page user)
    by_contra positive
    have none := tally_eq_zero (le_antisymm (not_lt.mp positive) tally_nonneg) within
    simp only [same, leads, decide_true] at none
    cases none
  · intro positive
    obtain ⟨⟨dir, number⟩, within, leads⟩ := tally_pos positive
    rw [Finset.mem_product, Finset.mem_range] at within
    refine ⟨dir, within.1, number * pgSize, ?_, of_decide_eq_true leads⟩
    have small : number < userTop / pgSize := within.2
    unfold userTop pgSize at small
    unfold userTop pgSize
    omega

theorem Memory.mappings_eq_zero (unmapped : ¬ memory.Maps dirs page) :
    memory.mappings dirs page = 0 :=
  le_antisymm (not_lt.mp fun positive => unmapped (Memory.maps_iff.mpr positive)) tally_nonneg

theorem Memory.mappings_congr
    (same : ∀ dir ∈ dirs, ∀ la < userTop, after.pteAt dir la = memory.pteAt dir la) :
    after.mappings dirs page = memory.mappings dirs page := by
  apply tally_eq_of_mem
  intro slot within
  rw [Finset.mem_product, Finset.mem_range] at within
  have small : slot.2 < userTop / pgSize := within.2
  rw [same slot.1 within.1]
  unfold userTop pgSize at small
  unfold userTop pgSize
  omega

/-- A page that an entry leads to can be mapped. -/
theorem Paged.maps_data (paged : Paged memory dirs tables) (maps : memory.Maps dirs page) :
    DataPage memory tables page := by
  obtain ⟨dir, known, la, user, leads⟩ := maps
  exact paged.dataPage known (pdx1_lt_two user) leads

/-- The entry of one page of addresses changes. -/
theorem Memory.mappings_update (known : dir ∈ dirs) (user : la < userTop)
    (written : ∀ root ∈ dirs, ∀ other, after.pteAt root other =
      if root = dir ∧ pagePath other = pagePath la then value else memory.pteAt root other) :
    after.mappings dirs page = memory.mappings dirs page -
      (if pteTarget (memory.pteAt dir la) = some page then 1 else 0) +
      (if pteTarget value = some page then 1 else 0) := by
  have within : (dir, la / pgSize) ∈ dirs ×ˢ Finset.range (userTop / pgSize) := by
    rw [Finset.mem_product, Finset.mem_range]
    refine ⟨known, ?_⟩
    unfold userTop at user
    unfold userTop pgSize
    omega
  have updated : after.mappings dirs page =
      tally (dirs ×ˢ Finset.range (userTop / pgSize))
        (Function.update (fun slot : Nat × Nat =>
          pteTarget (memory.pteAt slot.1 (slot.2 * pgSize))) (dir, la / pgSize) (pteTarget value))
        fun target => decide (target = some page) := by
    apply tally_eq_of_mem
    rintro ⟨root, number⟩ inside
    rw [Finset.mem_product, Finset.mem_range] at inside
    have small : number < userTop / pgSize := inside.2
    have userNumber : number * pgSize < userTop := by
      unfold userTop pgSize at small
      unfold userTop pgSize
      omega
    have samePage : pagePath (number * pgSize) = pagePath la ↔ number = la / pgSize := by
      rw [pagePath_eq userNumber user, Nat.mul_div_cancel _ (by decide)]
    simp only [written root inside.1, samePage]
    by_cases here : root = dir ∧ number = la / pgSize
    · obtain ⟨rfl, rfl⟩ := here
      rw [if_pos ⟨rfl, rfl⟩, Function.update_self]
    · rw [if_neg here, Function.update_of_ne fun same => here (Prod.mk.inj same)]
  rw [updated, tally_update within]
  unfold share Memory.mappings
  simp only [decide_eq_true_eq, Memory.pteAt_congr (pagePath_page user)]

/-! ## Writing an entry -/

section Write

variable (paged : Paged memory dirs tables) (known : dir ∈ dirs) (user : la < userTop)
  (here : tables.owner table = some (dir, [pdx1 la, pdx0 la])) (small : value < 256 ^ 8)
  (proper : pteTarget value = none → value = 0)

include paged here small

theorem Paged.write (proper : pteTarget value = none → value = 0)
    (leads : ∀ page, pteTarget value = some page → DataPage memory tables page) :
    Paged (memory.setEntry table (ptx la) value) dirs tables := by
  have entries : (memory.setEntry table (ptx la) value).entry =
      Radix.write memory.entry table (ptx la) value := Memory.setEntry_entry small
  have elsewhere : ∀ other position, other ≠ table →
      (memory.setEntry table (ptx la) value).entry other position = memory.entry other position := by
    intro other position apart
    rw [entries]
    exact Radix.write_of_ne fun both => apart both.1
  constructor
  · rw [entries]
    exact paged.owned.write here rfl proper
  · exact paged.root
  · exact paged.small
  · exact paged.spare
  · exact paged.inside
  · intro frame root place position target isOwned lowest inTable isTarget
    have data : DataPage memory tables target := by
      rw [entries] at isTarget
      by_cases written : frame = table ∧ position = ptx la
      · obtain ⟨rfl, rfl⟩ := written
        rw [Radix.write_self] at isTarget
        exact leads target isTarget
      · rw [Radix.write_of_ne written] at isTarget
        exact paged.mapped _ _ _ _ _ isOwned lowest inTable isTarget
    exact ⟨data.inRange, data.unowned, data.unwindowed, data.used⟩
  · intro root isRoot position high inTable below isTarget
    have apart : root ≠ table := by
      rintro rfl
      rw [paged.owner_dir isRoot] at here
      cases here
    rw [elsewhere root position apart] at isTarget
    exact paged.windowTop root isRoot position high inTable below isTarget
  · intro frame isWindow position inTable below isTarget
    have apart : frame ≠ table := by
      rintro rfl
      exact Option.some_ne_none _ (isWindow.symm.trans (paged.inside _ _ here).2)
    rw [elsewhere frame position apart] at isTarget
    exact paged.windowNext frame isWindow position inTable below isTarget

include known

theorem Paged.write_pteAt (proper : pteTarget value = none → value = 0) (root : Nat)
    (isRoot : root ∈ dirs) (other : Nat) :
    (memory.setEntry table (ptx la) value).pteAt root other =
      if root = dir ∧ pagePath other = pagePath la then value else memory.pteAt root other := by
  have entries : (memory.setEntry table (ptx la) value).entry =
      Radix.write memory.entry table (ptx la) value := Memory.setEntry_entry small
  have rootHere := paged.owner_dir isRoot
  by_cases same : root = dir ∧ pagePath other = pagePath la
  · obtain ⟨rfl, path⟩ := same
    rw [if_pos ⟨rfl, path⟩]
    unfold Memory.pteAt
    rw [path, entries]
    exact paged.owned.lookup_write_self here rfl proper rootHere
  · rw [if_neg same]
    by_cases low : pdx1 other < 2
    · unfold Memory.pteAt
      rw [entries]
      exact paged.owned.lookup_write here rfl rootHere rfl (usesAll_pagePath low) same
    · apply paged.pteAt_window isRoot (not_lt.mp low)
      · rw [entries]
        apply Radix.write_of_ne
        rintro ⟨rfl, _⟩
        rw [rootHere] at here
        cases here
      · intro frame isWindow
        funext position
        rw [entries]
        apply Radix.write_of_ne
        rintro ⟨rfl, _⟩
        exact isWindow (paged.inside _ _ here).2

end Write

/-- A page that nothing leads to becomes free. -/
theorem Paged.release (paged : Paged memory dirs tables) (data : DataPage memory tables page)
    (unmapped : ¬ memory.Maps dirs page) (ref : Nat → Int) :
    Paged { memory with free := insert page memory.free, ref := ref } dirs tables where
  owned := paged.owned
  root := paged.root
  small := paged.small
  spare other isFree := by
    rcases Finset.mem_insert.mp isFree with rfl | wasFree
    · exact ⟨data.inRange, data.unowned, data.unwindowed⟩
    · exact paged.spare other wasFree
  inside := paged.inside
  mapped frame root place position target isOwned lowest inTable leads := by
    have used := paged.mapped _ _ _ _ _ isOwned lowest inTable leads
    refine ⟨used.inRange, used.unowned, used.unwindowed, ?_⟩
    intro isFree
    rcases Finset.mem_insert.mp isFree with rfl | wasFree
    · obtain ⟨la, user, known, rfl, rfl⟩ := paged.entry_address isOwned lowest inTable
      refine unmapped ⟨root, known, la, user, ?_⟩
      rw [paged.pteAt_eq known isOwned]
      exact leads
    · exact used.used wasFree
  windowTop := paged.windowTop
  windowNext := paged.windowNext

/-! ## Counts -/

/-- The reference count of each page that can be mapped is exact. -/
structure Counted (memory : Memory) (dirs : Finset Nat) (tables : TableMap) : Prop where
  paged : Paged memory dirs tables
  exact : ∀ page, DataPage memory tables page → memory.ref page = memory.mappings dirs page
  idle : ∀ page ∈ memory.free, memory.ref page = 0

/-- Making tables moves no count. -/
theorem Counted.grown (counted : Counted memory dirs tables) (paged : Paged after dirs tables')
    (grown : Grown memory after dirs tables tables') : Counted after dirs tables' := by
  refine ⟨paged, ?_, ?_⟩
  · intro page data
    have used : page ∉ memory.free := fun isFree => grown.taken page isFree data.used data.unowned
    have before : DataPage memory tables page :=
      ⟨grown.npage ▸ data.inRange, (grown.kept page (Or.inl used)).symm.trans data.unowned,
        grown.window ▸ data.unwindowed, used⟩
    rw [grown.ref page data.unowned, counted.exact page before]
    exact (Memory.mappings_congr fun dir known la _ => grown.pte dir known la).symm
  · intro page isFree
    have unowned : tables'.owner page = none := (paged.spare page isFree).2.1
    rw [grown.ref page unowned]
    exact counted.idle page (grown.free isFree)

/-- The entry is replaced: the page that it led to loses a reference, with the last one the page
becomes free, and the page that it leads to gets one. -/
def Memory.remap (memory : Memory) (table index value : Nat) : Memory :=
  { memory.setEntry table index value with
    ref := fun page => memory.ref page -
      (if pteTarget (memory.entry table index) = some page then 1 else 0) +
      (if pteTarget value = some page then 1 else 0)
    free := match pteTarget (memory.entry table index) with
      | none => memory.free
      | some old =>
          if memory.ref old = 1 ∧ pteTarget value ≠ some old then insert old memory.free
          else memory.free }

theorem Memory.remap_free_none (nowhere : pteTarget (memory.entry table index) = none) :
    (memory.remap table index value).free = memory.free := by
  unfold Memory.remap
  rw [nowhere]

theorem Memory.remap_free_some {old : Nat}
    (leads : pteTarget (memory.entry table index) = some old) :
    (memory.remap table index value).free =
      if memory.ref old = 1 ∧ pteTarget value ≠ some old then insert old memory.free
      else memory.free := by
  unfold Memory.remap
  rw [leads]

theorem Memory.remap_free_mem : page ∈ (memory.remap table index value).free ↔
    page ∈ memory.free ∨ pteTarget (memory.entry table index) = some page ∧
      memory.ref page = 1 ∧ pteTarget value ≠ some page := by
  cases leads : pteTarget (memory.entry table index) with
  | none =>
      rw [Memory.remap_free_none leads]
      exact (or_iff_left fun impossible => nomatch impossible.1).symm
  | some old =>
      rw [Memory.remap_free_some leads]
      by_cases freed : memory.ref old = 1 ∧ pteTarget value ≠ some old
      · rw [if_pos freed, Finset.mem_insert, Option.some.injEq]
        constructor
        · rintro (rfl | isFree)
          · exact Or.inr ⟨rfl, freed⟩
          · exact Or.inl isFree
        · rintro (isFree | ⟨rfl, _⟩)
          · exact Or.inr isFree
          · exact Or.inl rfl
      · rw [if_neg freed, Option.some.injEq]
        refine (or_iff_left ?_).symm
        rintro ⟨rfl, last⟩
        exact freed last

section Remap

variable (counted : Counted memory dirs tables) (known : dir ∈ dirs) (user : la < userTop)
  (here : tables.owner table = some (dir, [pdx1 la, pdx0 la])) (small : value < 256 ^ 8)
  (proper : pteTarget value = none → value = 0)

include counted known user here small proper

omit user in
theorem Counted.remap_pteAt (root : Nat) (isRoot : root ∈ dirs) (other : Nat) :
    (memory.remap table (ptx la) value).pteAt root other =
      if root = dir ∧ pagePath other = pagePath la then value else memory.pteAt root other :=
  counted.paged.write_pteAt known here small proper root isRoot other

theorem Counted.remap_mappings (page : Nat) :
    (memory.remap table (ptx la) value).mappings dirs page = memory.mappings dirs page -
      (if pteTarget (memory.entry table (ptx la)) = some page then 1 else 0) +
      (if pteTarget value = some page then 1 else 0) := by
  rw [Memory.mappings_update known user (counted.remap_pteAt known here small proper),
    counted.paged.pteAt_eq known here]

theorem Counted.remap (leads : ∀ page, pteTarget value = some page → DataPage memory tables page) :
    Counted (memory.remap table (ptx la) value) dirs tables := by
  have paged := counted.paged
  have written := paged.write here small proper leads
  have count := counted.remap_mappings known user here small proper
  have old : ∀ page, pteTarget (memory.entry table (ptx la)) = some page →
      DataPage memory tables page :=
    fun page isOld => paged.mapped _ _ _ _ _ here rfl (ptx_lt la) isOld
  refine ⟨?_, ?_, ?_⟩
  · cases isOld : pteTarget (memory.entry table (ptx la)) with
    | none =>
        have same := @Memory.remap_free_none memory table (ptx la) value isOld
        exact ⟨written.owned, written.root, written.small, same ▸ written.spare, written.inside,
          fun frame root place position target isOwned lowest inTable isTarget =>
            have data := written.mapped _ _ _ _ _ isOwned lowest inTable isTarget
            ⟨data.inRange, data.unowned, data.unwindowed, same ▸ data.used⟩,
          written.windowTop, written.windowNext⟩
    | some page =>
        have free := @Memory.remap_free_some memory table (ptx la) value page isOld
        by_cases freed : memory.ref page = 1 ∧ pteTarget value ≠ some page
        · rw [if_pos freed] at free
          have unmapped : ¬ (memory.setEntry table (ptx la) value).Maps dirs page := by
            intro maps
            have positive := Memory.maps_iff.mp maps
            have now := count page
            rw [isOld, if_pos rfl, if_neg freed.2, ← counted.exact page (old page isOld),
              freed.1] at now
            have same : (memory.remap table (ptx la) value).mappings dirs page =
                (memory.setEntry table (ptx la) value).mappings dirs page := rfl
            omega
          have data : DataPage (memory.setEntry table (ptx la) value) tables page :=
            ⟨(old page isOld).inRange, (old page isOld).unowned, (old page isOld).unwindowed,
              (old page isOld).used⟩
          have released := written.release data unmapped
            (memory.remap table (ptx la) value).ref
          exact ⟨released.owned, released.root, released.small, free ▸ released.spare,
            released.inside,
            fun frame root place position target isOwned lowest inTable isTarget =>
              have data := released.mapped _ _ _ _ _ isOwned lowest inTable isTarget
              ⟨data.inRange, data.unowned, data.unwindowed, free ▸ data.used⟩,
            released.windowTop, released.windowNext⟩
        · rw [if_neg freed] at free
          exact ⟨written.owned, written.root, written.small, free ▸ written.spare, written.inside,
            fun frame root place position target isOwned lowest inTable isTarget =>
              have data := written.mapped _ _ _ _ _ isOwned lowest inTable isTarget
              ⟨data.inRange, data.unowned, data.unwindowed, free ▸ data.used⟩,
            written.windowTop, written.windowNext⟩
  · intro page data
    have used : page ∉ memory.free := fun isFree => data.used (Memory.remap_free_mem.mpr (Or.inl isFree))
    have exact := counted.exact page ⟨data.inRange, data.unowned, data.unwindowed, used⟩
    rw [count page, ← exact]
    rfl
  · intro page isFree
    show memory.ref page - (if pteTarget (memory.entry table (ptx la)) = some page then 1 else 0) +
      (if pteTarget value = some page then 1 else 0) = 0
    rcases Memory.remap_free_mem.mp isFree with wasFree | ⟨isOld, last, isNew⟩
    · have notOld : pteTarget (memory.entry table (ptx la)) ≠ some page :=
        fun isOld => (old page isOld).used wasFree
      have notNew : pteTarget value ≠ some page := fun isNew => (leads page isNew).used wasFree
      rw [if_neg notOld, if_neg notNew, counted.idle page wasFree]
      rfl
    · rw [if_pos isOld, if_neg isNew, last]
      rfl

end Remap

/-! ## What the source does to an entry -/

attribute [ext] Memory

theorem Memory.remap_ref_some {old : Nat}
    (leads : pteTarget (memory.entry table index) = some old) (nowhere : pteTarget value = none) :
    (memory.remap table index value).ref =
      Function.update memory.ref old (memory.ref old - 1) := by
  funext page
  show memory.ref page - (if pteTarget (memory.entry table index) = some page then 1 else 0) +
    (if pteTarget value = some page then 1 else 0) = _
  have notNew : ¬ pteTarget value = some page := nowhere ▸ nofun
  rw [leads, if_neg notNew, Int.add_zero]
  by_cases same : page = old
  · subst same
    rw [Function.update_self, if_pos rfl]
  · rw [Function.update_of_ne same, if_neg fun equal => same (Option.some.inj equal).symm,
      Int.sub_zero]

theorem Memory.pageRemovePte_eq {old : Nat}
    (leads : pteTarget (memory.entry table index) = some old) (inRange : old < memory.npage)
    (used : old ∉ memory.free) :
    memory.pageRemovePte table index = .ok (memory.remap table index 0) := by
  have free := @Memory.remap_free_some memory table index 0 _ leads
  have refs := @Memory.remap_ref_some memory table index 0 _ leads pteTarget_zero
  obtain ⟨valid, rfl⟩ := pteTarget_some.mp leads
  have found : memory.kaddr (ptePpn (memory.entry table index)) =
      .ok (ptePpn (memory.entry table index)) := if_pos inRange
  have gone : pteTarget 0 ≠ some (ptePpn (memory.entry table index)) := pteTarget_zero ▸ nofun
  unfold Memory.pageRemovePte
  rw [if_pos valid, found]
  simp only [Except.bind, bind, Memory.setPageRef, Function.update_self]
  by_cases last : memory.ref (ptePpn (memory.entry table index)) = 1
  · have zero : memory.ref (ptePpn (memory.entry table index)) - 1 = 0 := by
      rw [last]
      rfl
    rw [if_pos ⟨last, gone⟩] at free
    rw [if_pos zero]
    unfold Memory.freePage
    rw [if_neg used]
    refine congrArg Except.ok (Memory.ext rfl rfl ?_ free.symm rfl)
    refine (Function.update_idem _ _ _).trans (Eq.trans ?_ refs.symm)
    rw [zero]
  · have positive : memory.ref (ptePpn (memory.entry table index)) - 1 ≠ 0 := by omega
    rw [if_neg fun both => last both.1] at free
    rw [if_neg positive]
    exact congrArg Except.ok (Memory.ext rfl rfl refs.symm free.symm rfl)

/-- The entry of `page_insert`. -/
theorem Memory.mapPage_eq {perm : Nat} (flags : perm < 2 ^ 10) (fits : page < 2 ^ 52)
    (old : ∀ old, pteTarget (memory.entry table index) = some old →
      old < memory.npage ∧ old ∉ memory.free) :
    memory.mapPage table index page perm =
      .ok (memory.remap table index (pteCreate page (pteV ||| perm))) := by
  have flagsV : pteV ||| perm < 2 ^ 10 := Nat.or_lt_two_pow (by decide) flags
  have leadsNew : pteTarget (pteCreate page (pteV ||| perm)) = some page :=
    pteTarget_create fits flagsV
  have refs : (memory.remap table index (pteCreate page (pteV ||| perm))).ref = fun other =>
      memory.ref other - (if pteTarget (memory.entry table index) = some other then 1 else 0) +
      (if some page = some other then 1 else 0) := by
    rw [← leadsNew]
    rfl
  have same : (memory.setPageRef page (memory.ref page + 1)).entry table index =
      memory.entry table index := rfl
  unfold Memory.mapPage
  simp only [same]
  cases leads : pteTarget (memory.entry table index) with
  | none =>
      have free := @Memory.remap_free_none memory table index (pteCreate page (pteV ||| perm)) leads
      rw [if_neg (pteTarget_none.mp leads)]
      refine congrArg Except.ok (Memory.ext rfl rfl ?_ free.symm rfl)
      rw [refs, leads]
      funext other
      show Function.update memory.ref page (memory.ref page + 1) other = _
      rw [if_neg (Option.some_ne_none other).symm, Int.sub_zero]
      by_cases isPage : other = page
      · subst isPage
        rw [Function.update_self, if_pos rfl]
      · rw [Function.update_of_ne isPage, if_neg fun equal => isPage (Option.some.inj equal).symm,
          Int.add_zero]
  | some previous =>
      obtain ⟨valid, isPrevious⟩ := pteTarget_some.mp leads
      obtain ⟨inRange, used⟩ := old previous leads
      have found : (memory.setPageRef page (memory.ref page + 1)).kaddr previous = .ok previous :=
        if_pos inRange
      have free := @Memory.remap_free_some memory table index (pteCreate page (pteV ||| perm))
        previous leads
      rw [leads] at refs
      rw [leadsNew] at free
      rw [if_pos valid, isPrevious, found]
      simp only [Except.bind, bind]
      by_cases isPage : previous = page
      · subst isPage
        rw [if_neg fun both => both.2 rfl] at free
        rw [if_pos rfl]
        refine congrArg Except.ok (Memory.ext rfl rfl ?_ free.symm rfl)
        rw [refs]
        funext other
        show Function.update (Function.update memory.ref previous (memory.ref previous + 1)) previous
          (Function.update memory.ref previous (memory.ref previous + 1) previous - 1) other = _
        rw [Function.update_idem, Function.update_self]
        by_cases isOther : other = previous
        · subst isOther
          rw [Function.update_self]
          omega
        · rw [Function.update_of_ne isOther]
          omega
      · rw [if_neg isPage]
        have apart : page ≠ previous := fun equal => isPage equal.symm
        have moreRef : (memory.setPageRef page (memory.ref page + 1)).ref previous =
            memory.ref previous := Function.update_of_ne isPage _ _
        have removed : (memory.setPageRef page (memory.ref page + 1)).pageRemovePte table index =
            .ok ((memory.setPageRef page (memory.ref page + 1)).remap table index 0) :=
          Memory.pageRemovePte_eq leads inRange used
        have removedFree := @Memory.remap_free_some (memory.setPageRef page (memory.ref page + 1))
          table index 0 _ leads
        have removedRef := @Memory.remap_ref_some (memory.setPageRef page (memory.ref page + 1))
          table index 0 _ leads pteTarget_zero
        have gone : pteTarget 0 ≠ some previous := pteTarget_zero ▸ nofun
        have notNew : some page ≠ some previous := fun equal => apart (Option.some.inj equal)
        rw [removed]
        refine congrArg Except.ok (Memory.ext rfl ?_ ?_ ?_ rfl)
        · show Function.update (Function.update memory.bytes table _) table
            (Bytes.overlay (Function.update memory.bytes table _ table) _ _ _) = _
          rw [Function.update_idem, Function.update_self, Bytes.overlay_idem]
          rfl
        · refine removedRef.trans ?_
          rw [moreRef, refs]
          funext other
          show Function.update (Function.update memory.ref page (memory.ref page + 1)) previous
            (memory.ref previous - 1) other = _
          by_cases isPrevious : other = previous
          · subst isPrevious
            rw [Function.update_self, if_pos rfl, if_neg fun equal => notNew equal, Int.add_zero]
          · rw [Function.update_of_ne isPrevious,
              if_neg fun equal => isPrevious (Option.some.inj equal).symm, Int.sub_zero]
            by_cases isNew : other = page
            · subst isNew
              rw [Function.update_self, if_pos rfl]
            · rw [Function.update_of_ne isNew, if_neg fun equal => isNew (Option.some.inj equal).symm,
                Int.add_zero]
        · refine removedFree.trans ?_
          rw [free, moreRef]
          simp only [gone, notNew, ne_eq, not_false_eq_true, and_true]
          rfl

/-! ## Steps -/

/-- What a step does that makes tables and then replaces the entry of `la`. -/
structure Remapped (memory after : Memory) (dirs : Finset Nat) (tables tables' : TableMap)
    (dir la value : Nat) : Prop where
  counted : Counted after dirs tables'
  pte : ∀ root ∈ dirs, ∀ other, after.pteAt root other =
    if root = dir ∧ pagePath other = pagePath la then value else memory.pteAt root other
  top : ∀ root ∈ dirs, ∀ index, 2 ≤ index → after.entry root index = memory.entry root index
  npage : after.npage = memory.npage
  window : tables'.window = tables.window
  kept : ∀ page, page ∉ memory.free → tables'.owner page = tables.owner page
  taken : ∀ page ∈ memory.free, page ∉ after.free → tables'.owner page ≠ none
  /-- a page is freed with the last entry that leads to it -/
  freed : ∀ page, page ∉ memory.free → (page ∈ after.free ↔
    pteTarget (memory.pteAt dir la) = some page ∧ memory.ref page = 1 ∧
      pteTarget value ≠ some page)
  bytes : ∀ page, tables.owner page = none → page ∉ memory.free →
    after.bytes page = memory.bytes page

section Step

variable (counted : Counted memory dirs tables) (known : dir ∈ dirs) (user : la < userTop)

include counted known user

omit counted in
/-- Tables are made, and then the entry is replaced. -/
theorem Counted.remapped {middle : Memory} (grown : Grown memory middle dirs tables tables')
    (middleCounted : Counted middle dirs tables')
    (here : tables'.owner table = some (dir, [pdx1 la, pdx0 la])) (small : value < 256 ^ 8)
    (proper : pteTarget value = none → value = 0)
    (leads : ∀ page, pteTarget value = some page → DataPage middle tables' page) :
    Remapped memory (middle.remap table (ptx la) value) dirs tables tables' dir la value := by
  have old : middle.entry table (ptx la) = memory.pteAt dir la := by
    rw [← grown.pte dir known la, middleCounted.paged.pteAt_eq known here]
  constructor
  · exact middleCounted.remap known user here small proper leads
  · intro root isRoot other
    rw [middleCounted.remap_pteAt known here small proper root isRoot other,
      grown.pte root isRoot other]
  · intro root isRoot index high
    rw [← grown.top root isRoot index high]
    have entries : (middle.remap table (ptx la) value).entry =
        Radix.write middle.entry table (ptx la) value := Memory.setEntry_entry small
    rw [entries]
    apply Radix.write_of_ne
    rintro ⟨rfl, _⟩
    rw [middleCounted.paged.owner_dir isRoot] at here
    cases here
  · exact grown.npage
  · exact grown.window
  · exact fun page used => grown.kept page (Or.inl used)
  · exact fun page isFree used =>
      grown.taken page isFree fun still => used (Memory.remap_free_mem.mpr (Or.inl still))
  · intro page used
    have usedMiddle : page ∉ middle.free := fun isFree => used (grown.free isFree)
    rw [Memory.remap_free_mem, old, or_iff_right usedMiddle]
    have sameRef : pteTarget (memory.pteAt dir la) = some page →
        middle.ref page = memory.ref page := by
      intro isOld
      rw [← grown.pte dir known la] at isOld
      exact grown.ref page (middleCounted.paged.dataPage known (pdx1_lt_two user) isOld).unowned
    constructor
    · rintro ⟨isOld, last, isNew⟩
      exact ⟨isOld, sameRef isOld ▸ last, isNew⟩
    · rintro ⟨isOld, last, isNew⟩
      exact ⟨isOld, (sameRef isOld).symm ▸ last, isNew⟩
  · intro page unowned used
    have apart : page ≠ table := by
      rintro rfl
      rw [grown.kept page (Or.inl used), unowned] at here
      cases here
    exact (Function.update_of_ne apart _ _).trans (grown.bytes page unowned used)

omit user in
/-- There is no entry to remove. -/
theorem Counted.remapped_absent (absent : memory.pteAt dir la = 0) :
    Remapped memory memory dirs tables tables dir la 0 := by
  refine ⟨counted, ?_, fun _ _ _ _ => rfl, rfl, rfl, fun _ _ => rfl,
    fun _ isFree used => absurd isFree used, ?_, fun _ _ _ => rfl⟩
  · intro root isRoot other
    by_cases same : root = dir ∧ pagePath other = pagePath la
    · obtain ⟨rfl, path⟩ := same
      rw [if_pos ⟨rfl, path⟩, Memory.pteAt_congr path, absent]
    · rw [if_neg same]
  · intro page used
    rw [absent, pteTarget_zero]
    exact iff_of_false used fun impossible => nomatch impossible.1

theorem Counted.pageRemovePte (here : tables.owner table = some (dir, [pdx1 la, pdx0 la])) :
    ∃ after, memory.pageRemovePte table (ptx la) = .ok after ∧
      Remapped memory after dirs tables tables dir la 0 := by
  cases leads : pteTarget (memory.entry table (ptx la)) with
  | none =>
      have absent : memory.pteAt dir la = 0 := by
        rw [counted.paged.pteAt_eq known here]
        exact counted.paged.owned.clean _ _ _ _ here ⟨ptx_lt la, nofun⟩ leads
      refine ⟨memory, ?_, counted.remapped_absent known absent⟩
      unfold Memory.pageRemovePte
      rw [if_neg (pteTarget_none.mp leads)]
  | some old =>
      have data := counted.paged.mapped _ _ _ _ _ here rfl (ptx_lt la) leads
      refine ⟨_, Memory.pageRemovePte_eq leads data.inRange data.used,
        Counted.remapped known user .refl counted here (by decide) (fun _ => rfl) ?_⟩
      intro page isPage
      rw [pteTarget_zero] at isPage
      cases isPage

theorem Counted.pageRemove (allocator : PageAllocator) : ∃ after,
    memory.pageRemove allocator dir la = .ok after ∧
      Remapped memory after dirs tables tables dir la 0 := by
  unfold Memory.pageRemove
  rw [counted.paged.getPte_find known (pdx1_lt_two user) allocator]
  cases found : memory.findPte dir la with
  | none =>
      exact ⟨memory, rfl, counted.remapped_absent known (Memory.findPte_none found)⟩
  | some slot =>
      obtain ⟨pt, index⟩ := slot
      obtain ⟨position, _⟩ := Memory.findPte_some found
      obtain rfl : index = ptx la := position
      have here : tables.owner pt = some (dir, [pdx1 la, pdx0 la]) :=
        counted.paged.findPte_owner known (pdx1_lt_two user) found
      obtain ⟨after, removed, remapped⟩ := counted.pageRemovePte known user here
      refine ⟨after, ?_, remapped⟩
      simp only [Except.bind, bind]
      exact removed

theorem Counted.pageInsert {perm : Nat} (data : DataPage memory tables page)
    (flags : perm < 2 ^ 10) (allocator : PageAllocator) : ∃ ret after tables',
    memory.pageInsert allocator dir page la perm = .ok (ret, after) ∧
      (ret = Memory.noMem ∧ Counted after dirs tables' ∧ Grown memory after dirs tables tables' ∨
        ret = 0 ∧ Remapped memory after dirs tables tables' dir la
          (pteCreate page (pteV ||| perm))) := by
  obtain ⟨slot, middle, tables', found, paged, grown, isSlot⟩ :=
    counted.paged.getPte allocator true known (pdx1_lt_two user)
  have middleCounted := counted.grown paged grown
  unfold Memory.pageInsert
  rw [found]
  cases slot with
  | none => exact ⟨Memory.noMem, middle, tables', rfl, Or.inl ⟨rfl, middleCounted, grown⟩⟩
  | some slot =>
      obtain ⟨pt, index⟩ := slot
      obtain ⟨rfl, here⟩ := isSlot pt index rfl
      have dataMiddle := grown.dataPage data
      have fits : page < 2 ^ 52 := lt_of_lt_of_le dataMiddle.inRange paged.small
      have flagsV : pteV ||| perm < 2 ^ 10 := Nat.or_lt_two_pow (by decide) flags
      have leads : pteTarget (pteCreate page (pteV ||| perm)) = some page :=
        pteTarget_create fits flagsV
      have mapped : middle.mapPage pt (ptx la) page perm =
          .ok (middle.remap pt (ptx la) (pteCreate page (pteV ||| perm))) := by
        apply Memory.mapPage_eq flags fits
        intro old isOld
        have used := paged.mapped _ _ _ _ _ here rfl (ptx_lt la) isOld
        exact ⟨used.inRange, used.used⟩
      refine ⟨0, middle.remap pt (ptx la) (pteCreate page (pteV ||| perm)), tables', ?_,
        Or.inr ⟨rfl, Counted.remapped known user grown middleCounted here
          (pteCreate_lt fits flagsV) ?_ ?_⟩⟩
      · simp only [Except.bind, bind]
        rw [mapped]
        rfl
      · intro nowhere
        rw [leads] at nowhere
        cases nowhere
      · intro other isOther
        rw [leads] at isOther
        rwa [← Option.some.inj isOther]

end Step

end UCore.Mm
