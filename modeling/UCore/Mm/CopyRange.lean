import UCore.Mm.PageCounts

/-!
Contract: copying a range of addresses from one directory to another, `copy_range`.

Owns:
- what the copy of one page does, and what a whole range does;
- the copies: which pages they are, what they hold and how they are mapped;
- where a copy stops the kernel.

A copy that runs out of pages for tables answers `-E_NO_MEM`; one that runs out of pages for the
contents stops the kernel, and nothing else does.

Does not own: the areas of a process.
-/

set_option autoImplicit false

namespace UCore.Mm

open UCore.Lib

variable {memory middle after : Memory} {dirs : Finset Nat} {tables tables' : TableMap}
  {target source start stop la page pte : Nat} {allocator : PageAllocator}

/-- The entry of a copy at `npage` of what `pte` leads to. -/
def copiedPte (npage pte : Nat) : Nat := pteCreate npage (pteV ||| (pte &&& pteUser))

theorem user_flags (pte : Nat) : pte &&& pteUser < 2 ^ 10 :=
  lt_of_le_of_lt Nat.and_le_right (by decide)

/-- The page that `pte` leads to has a copy at `npage`, mapped at `start`. -/
structure Copied (memory after : Memory) (dirs : Finset Nat) (tables tables' : TableMap)
    (target start pte npage : Nat) : Prop where
  moved : PagesMoved memory after dirs tables tables' fun _ => False
  fresh : npage ∈ memory.free
  entry : ∀ root ∈ dirs, ∀ la, after.pteAt root la =
    if root = target ∧ pagePath la = pagePath start then copiedPte npage pte
    else memory.pteAt root la
  leads : pteTarget (copiedPte npage pte) = some npage
  contents : after.bytes npage = memory.bytes (ptePpn pte)
  bytes : ∀ page, tables.owner page = none → page ∉ memory.free →
    after.bytes page = memory.bytes page
  kept : ∀ page, page ∉ memory.free → tables'.owner page = tables.owner page
  free : pteTarget (memory.pteAt target start) = none → after.free ⊆ memory.free

/-- `page_insert` fails only where there is no table. -/
theorem Memory.pageInsert_found {slot : Nat × Nat} {perm : Nat} {ret : Int}
    (found : memory.getPte allocator target la true = .ok (some slot, middle))
    (ran : memory.pageInsert allocator target page la perm = .ok (ret, after)) : ret = 0 := by
  unfold Memory.pageInsert at ran
  simp only [found, bind, Except.bind] at ran
  cases mapped : middle.mapPage slot.1 slot.2 page perm with
  | error reason =>
      rw [mapped] at ran
      cases ran
  | ok last =>
      rw [mapped] at ran
      exact (Prod.mk.inj (Except.ok.inj ran)).1.symm

section Page

variable (counted : Counted memory dirs tables) (known : target ∈ dirs) (user : start < userTop)
  (data : DataPage memory tables (ptePpn pte))

include counted known user data

/-- The contents are copied to a page that was handed out, and the page is mapped. -/
theorem Counted.copied {npage : Nat} (isFree : npage ∈ memory.free)
    (remapped : Remapped ((memory.handOut npage).copyPage npage (ptePpn pte)) after dirs tables tables'
      target start (copiedPte npage pte)) :
    Copied memory after dirs tables tables' target start pte npage := by
  have handed : Counted (memory.handOut npage) dirs tables := counted.handOut isFree
  have fresh : DataPage (memory.handOut npage) tables npage := counted.handOut_data isFree
  have nowhere : ¬ memory.Maps dirs npage := counted.free_unmapped isFree
  have filled := handed.setBytes fresh ((memory.handOut npage).bytes (ptePpn pte))
  have moved := handed.setBytes_moved fresh ((memory.handOut npage).bytes (ptePpn pte))
  have flags := user_flags pte
  have leads : pteTarget (copiedPte npage pte) = some npage :=
    pteTarget_mapped fresh flags handed.paged
  have samePte := handed.setBytes_pteAt fresh ((memory.handOut npage).bytes (ptePpn pte))
  have stillFresh : DataPage ((memory.handOut npage).copyPage npage (ptePpn pte)) tables npage :=
    ⟨fresh.inRange, fresh.unowned, fresh.unwindowed, fresh.used⟩
  have stillNowhere : ¬ ((memory.handOut npage).copyPage npage (ptePpn pte)).Maps dirs npage :=
    fun maps => nowhere (maps.of_pte fun root isRoot la => (samePte root isRoot la).symm)
  obtain ⟨_, maps⟩ := remapped.ref_one filled known user stillFresh stillNowhere flags
  have apart : ptePpn pte ≠ npage := fun same => data.used (same ▸ isFree)
  refine ⟨?_, isFree, ?_, leads, ?_, ?_, ?_, ?_⟩
  · apply PagesMoved.handedOut isFree _ (Or.inr maps)
    apply moved.trans
    apply (remapped.moved filled known user).weaken
    intro other isOther
    rw [leads] at isOther
    exact (Option.some.inj isOther).symm
  · intro root isRoot la
    have before : ((memory.handOut npage).copyPage npage (ptePpn pte)).pteAt root la =
        memory.pteAt root la := samePte root isRoot la
    rw [remapped.pte root isRoot la, before]
  · rw [remapped.bytes npage fresh.unowned fresh.used]
    show Function.update memory.bytes npage (memory.bytes (ptePpn pte)) npage = _
    rw [Function.update_self]
  · intro page unowned used
    have notFresh : page ≠ npage := by
      rintro rfl
      exact used isFree
    have stillUsed : page ∉ (memory.handOut npage).free :=
      fun isFree => used (Finset.mem_of_mem_erase isFree)
    rw [remapped.bytes page unowned stillUsed]
    exact Function.update_of_ne notFresh _ _
  · exact fun page used =>
      remapped.kept page fun isFree => used (Finset.mem_of_mem_erase isFree)
  · intro nothing page nowFree
    by_contra used
    have stillUsed : page ∉ (memory.handOut npage).free :=
      fun isFree => used (Finset.mem_of_mem_erase isFree)
    obtain ⟨old, _⟩ := (remapped.freed page stillUsed).mp nowFree
    have before : ((memory.handOut npage).copyPage npage (ptePpn pte)).pteAt target start =
        memory.pteAt target start := samePte target known start
    rw [before, nothing] at old
    cases old

omit user in
/-- Tables are made before the copy. -/
theorem Copied.grown {npage : Nat} {tables'' : TableMap}
    (grown : Grown memory middle dirs tables tables') (paged : Paged middle dirs tables')
    (copied : Copied middle after dirs tables' tables'' target start pte npage) :
    Copied memory after dirs tables tables'' target start pte npage where
  moved := (grown.moved counted paged).trans copied.moved
  fresh := grown.free copied.fresh
  entry root isRoot la := by rw [copied.entry root isRoot la, grown.pte root isRoot la]
  leads := copied.leads
  contents := copied.contents.trans (grown.bytes _ data.unowned data.used)
  bytes page unowned used := by
    have stillUnowned := (grown.kept page (Or.inl used)).trans unowned
    have stillUsed : page ∉ middle.free := fun isFree => used (grown.free isFree)
    exact (copied.bytes page stillUnowned stillUsed).trans (grown.bytes page unowned used)
  kept page used :=
    (copied.kept page fun isFree => used (grown.free isFree)).trans (grown.kept page (Or.inl used))
  free nothing :=
    (copied.free (by rw [grown.pte target known start, nothing])).trans grown.free

theorem Counted.copyMapped {result : Option Nat}
    (ran : memory.copyMapped allocator target start pte = .ok (result, after)) :
    ∃ tables', (result = none ∧ Paged after dirs tables' ∧ Grown memory after dirs tables tables') ∨
      result = some (start + pgSize) ∧
        ∃ npage, Copied memory after dirs tables tables' target start pte npage := by
  obtain ⟨slot, middle, tables', found, paged, grown, _⟩ :=
    counted.paged.getPte allocator true known (pdx1_lt_two user)
  have moved := grown.moved counted paged
  have dataMiddle := grown.dataPage data
  unfold Memory.copyMapped at ran
  simp only [found, bind, Except.bind] at ran
  cases slot with
  | none =>
      obtain ⟨rfl, rfl⟩ := Prod.mk.inj (Except.ok.inj ran)
      exact ⟨tables', Or.inl ⟨rfl, paged, grown⟩⟩
  | some slot =>
      have inside : middle.kaddr (ptePpn pte) = .ok (ptePpn pte) := if_pos dataMiddle.inRange
      simp only [inside] at ran
      cases picked : allocator.pick middle with
      | none =>
          rw [Memory.allocPage_none picked] at ran
          cases ran
      | some npage =>
          have isFree := allocator.pick_free middle npage picked
          have handed : Counted (middle.handOut npage) dirs tables' := moved.counted.handOut isFree
          have fresh : DataPage (middle.handOut npage) tables' npage :=
            moved.counted.handOut_data isFree
          have filled := handed.setBytes fresh ((middle.handOut npage).bytes (ptePpn pte))
          have stillFresh : DataPage ((middle.handOut npage).copyPage npage (ptePpn pte)) tables'
              npage := ⟨fresh.inRange, fresh.unowned, fresh.unwindowed, fresh.used⟩
          obtain ⟨ret, inserted, tables'', insert, outcome⟩ :=
            Counted.pageInsert filled known user stillFresh (user_flags pte) allocator
          have same : ((middle.handOut npage).copyPage npage (ptePpn pte)).pageInsert allocator target
              npage start (pte &&& pteUser) = .ok (ret, inserted) := insert
          rw [Memory.allocPage_pick picked] at ran
          simp only [same] at ran
          rcases outcome with ⟨rfl, _⟩ | ⟨rfl, remapped⟩
          · rw [if_neg (by decide)] at ran
            cases ran
          · obtain ⟨rfl, rfl⟩ := Prod.mk.inj (Except.ok.inj ran)
            have copied := moved.counted.copied known user dataMiddle isFree remapped
            exact ⟨tables'', Or.inr ⟨rfl, npage, copied.grown counted known data grown paged⟩⟩

/-- The table for a copy at `start` is there, and `alloc_page` has no page for the contents. -/
def Memory.NoContents (memory : Memory) (allocator : PageAllocator) (target start : Nat) : Prop :=
  ∃ slot middle, memory.getPte allocator target start true = .ok (some slot, middle) ∧
    allocator.pick middle = none

omit counted known user data in
theorem Memory.noContents_iff {slot : Option (Nat × Nat)} {middle : Memory}
    (found : memory.getPte allocator target start true = .ok (slot, middle)) :
    memory.NoContents allocator target start ↔ slot ≠ none ∧ allocator.pick middle = none := by
  constructor
  · rintro ⟨entry, reached, again, missing⟩
    rw [found] at again
    obtain ⟨rfl, rfl⟩ := Prod.mk.inj (Except.ok.inj again)
    exact ⟨Option.some_ne_none entry, missing⟩
  · rintro ⟨isSlot, missing⟩
    obtain ⟨entry, rfl⟩ := Option.ne_none_iff_exists'.mp isSlot
    exact ⟨entry, middle, found, missing⟩

/-- The copy of a page stops only at `assert(npage != NULL)`. -/
theorem Counted.copyMapped_returns :
    (memory.NoContents allocator target start ∧
      memory.copyMapped allocator target start pte = .error .assertFailed) ∨
    (¬ memory.NoContents allocator target start ∧
      ∃ result after, memory.copyMapped allocator target start pte = .ok (result, after)) := by
  obtain ⟨slot, middle, tables', found, paged, grown, isOwner⟩ :=
    counted.paged.getPte allocator true known (pdx1_lt_two user)
  have moved := grown.moved counted paged
  have dataMiddle := grown.dataPage data
  rw [Memory.noContents_iff found]
  unfold Memory.copyMapped
  simp only [found, bind, Except.bind]
  cases slot with
  | none => exact Or.inr ⟨fun missing => missing.1 rfl, none, middle, rfl⟩
  | some slot =>
      have inside : middle.kaddr (ptePpn pte) = .ok (ptePpn pte) := if_pos dataMiddle.inRange
      simp only [inside]
      cases picked : allocator.pick middle with
      | none =>
          rw [Memory.allocPage_none picked]
          exact Or.inl ⟨⟨Option.some_ne_none slot, rfl⟩, rfl⟩
      | some npage =>
          have isFree := allocator.pick_free middle npage picked
          have handed : Counted (middle.handOut npage) dirs tables' := moved.counted.handOut isFree
          have fresh : DataPage (middle.handOut npage) tables' npage :=
            moved.counted.handOut_data isFree
          have filled := handed.setBytes fresh ((middle.handOut npage).bytes (ptePpn pte))
          have stillFresh : DataPage ((middle.handOut npage).copyPage npage (ptePpn pte)) tables'
              npage := ⟨fresh.inRange, fresh.unowned, fresh.unwindowed, fresh.used⟩
          obtain ⟨pt, index⟩ := slot
          obtain ⟨_, owner⟩ := isOwner pt index rfl
          -- the table is there, so that `page_insert` needs no page of its own
          have again : ((middle.handOut npage).copyPage npage (ptePpn pte)).getPte allocator target
              start true = .ok (some (pt, ptx start), (middle.handOut npage).copyPage npage
                (ptePpn pte)) :=
            filled.paged.getPte_owned allocator true known (pdx1_lt_two user) owner
          obtain ⟨ret, inserted, _, insert, _⟩ :=
            Counted.pageInsert filled known user stillFresh (user_flags pte) allocator
          have same : ((middle.handOut npage).copyPage npage (ptePpn pte)).pageInsert allocator target
              npage start (pte &&& pteUser) = .ok (ret, inserted) := insert
          have zero : ret = 0 := Memory.pageInsert_found again same
          rw [Memory.allocPage_pick picked]
          simp only [same]
          rw [if_pos zero]
          exact Or.inr ⟨fun missing => Option.some_ne_none npage missing.2, _, _, rfl⟩

end Page

/-! ## Sets of addresses -/

/-- No address of the set has an entry in the directory. -/
def Vacant (memory : Memory) (dir : Nat) (within : Nat → Prop) : Prop :=
  ∀ la < userTop, within la → memory.pteAt dir la = 0

/-- What the source maps in a set of addresses is copied to the target, each page to one of its
own. -/
structure RangeCopied (memory after : Memory) (dirs : Finset Nat) (tables : TableMap)
    (target source : Nat) (within : Nat → Prop) : Prop where
  free : after.free ⊆ memory.free
  kept : ∀ root ∈ dirs, ∀ la < userTop, ¬ (root = target ∧ within la) →
    after.pteAt root la = memory.pteAt root la
  absent : ∀ la < userTop, within la → pteTarget (memory.pteAt source la) = none →
    after.pteAt target la = 0
  copy : ∀ la < userTop, within la → ∀ page, pteTarget (memory.pteAt source la) = some page →
    ∃ npage ∈ memory.free, after.pteAt target la = copiedPte npage (memory.pteAt source la) ∧
      pteTarget (after.pteAt target la) = some npage ∧ after.bytes npage = memory.bytes page
  apart : ∀ la < userTop, within la → ∀ other < userTop, within other →
    pagePath other ≠ pagePath la → ∀ npage, pteTarget (after.pteAt target la) = some npage →
      pteTarget (after.pteAt target other) ≠ some npage
  bytes : ∀ page, tables.owner page = none → page ∉ memory.free →
    after.bytes page = memory.bytes page

namespace RangeCopied

variable {within others : Nat → Prop}

theorem congr (copied : RangeCopied memory after dirs tables target source within)
    (same : ∀ la < userTop, within la ↔ others la) :
    RangeCopied memory after dirs tables target source others where
  free := copied.free
  kept root isRoot la user outside :=
    copied.kept root isRoot la user fun here => outside ⟨here.1, (same la user).mp here.2⟩
  absent la user here := copied.absent la user ((same la user).mpr here)
  copy la user here := copied.copy la user ((same la user).mpr here)
  apart la user here other otherUser otherHere :=
    copied.apart la user ((same la user).mpr here) other otherUser
      ((same other otherUser).mpr otherHere)
  bytes := copied.bytes

/-- The source maps nothing there. -/
theorem nothing (vacant : Vacant memory target within)
    (unmapped : ∀ la < userTop, within la → pteTarget (memory.pteAt source la) = none) :
    RangeCopied memory memory dirs tables target source within where
  free := Finset.Subset.refl _
  kept _ _ _ _ _ := rfl
  absent la user here _ := vacant la user here
  copy la user here page leads := by
    rw [unmapped la user here] at leads
    cases leads
  apart la user here _ _ _ _ npage leads := by
    rw [vacant la user here, pteTarget_zero] at leads
    cases leads
  bytes _ _ _ := rfl

theorem vacant_rest (known : target ∈ dirs)
    (first : RangeCopied memory middle dirs tables target source within)
    (disjoint : ∀ la < userTop, others la → ¬ within la) (vacant : Vacant memory target others) :
    Vacant middle target others := by
  intro la user here
  rw [first.kept target known la user fun inFirst => disjoint la user here inFirst.2]
  exact vacant la user here

theorem trans (counted : Counted memory dirs tables) (later : Counted middle dirs tables')
    (known : target ∈ dirs) (knownSource : source ∈ dirs) (distinct : source ≠ target)
    (kept : ∀ page, tables.owner page = none → page ∉ memory.free → tables'.owner page = none)
    (disjoint : ∀ la < userTop, others la → ¬ within la)
    (first : RangeCopied memory middle dirs tables target source within)
    (second : RangeCopied middle after dirs tables' target source others) :
    RangeCopied memory after dirs tables target source fun la => within la ∨ others la := by
  have sameSource : ∀ la < userTop, middle.pteAt source la = memory.pteAt source la :=
    fun la user => first.kept source knownSource la user fun here => distinct here.1
  have early : ∀ la < userTop, within la → after.pteAt target la = middle.pteAt target la :=
    fun la user here => second.kept target known la user fun inSecond =>
      disjoint la user inSecond.2 here
  -- what the first part mapped is in use, what the second part maps was free
  have crossed : ∀ la < userTop, within la → ∀ other < userTop, others other → ∀ npage,
      pteTarget (after.pteAt target la) = some npage →
      pteTarget (after.pteAt target other) ≠ some npage := by
    intro la user here other otherUser otherHere npage leads same
    rw [early la user here] at leads
    have used := later.maps_used ⟨target, known, la, user, leads⟩
    cases isSource : pteTarget (middle.pteAt source other) with
    | none =>
        rw [second.absent other otherUser otherHere isSource, pteTarget_zero] at same
        cases same
    | some page =>
        obtain ⟨fresh, isFree, _, isFresh, _⟩ := second.copy other otherUser otherHere page isSource
        rw [isFresh] at same
        exact used (Option.some.inj same ▸ isFree)
  constructor
  · exact second.free.trans first.free
  · intro root isRoot la user outside
    rw [second.kept root isRoot la user fun here => outside ⟨here.1, Or.inr here.2⟩,
      first.kept root isRoot la user fun here => outside ⟨here.1, Or.inl here.2⟩]
  · intro la user here none
    rcases here with inFirst | inSecond
    · rw [early la user inFirst, first.absent la user inFirst none]
    · exact second.absent la user inSecond (by rw [sameSource la user, none])
  · intro la user here page leads
    rcases here with inFirst | inSecond
    · obtain ⟨npage, isFree, entry, isCopy, contents⟩ := first.copy la user inFirst page leads
      have data := later.paged.dataPage known (pdx1_lt_two user) isCopy
      exact ⟨npage, isFree, by rw [early la user inFirst, entry],
        by rw [early la user inFirst, isCopy],
        (second.bytes npage data.unowned data.used).trans contents⟩
    · have data := counted.paged.dataPage knownSource (pdx1_lt_two user) leads
      rw [← sameSource la user] at leads ⊢
      obtain ⟨npage, isFree, entry, isCopy, contents⟩ := second.copy la user inSecond page leads
      exact ⟨npage, first.free isFree, entry, isCopy,
        contents.trans (first.bytes page data.unowned data.used)⟩
  · intro la user here other otherUser otherHere differ npage leads
    rcases here with inFirst | inSecond <;> rcases otherHere with otherFirst | otherSecond
    · rw [early la user inFirst] at leads
      rw [early other otherUser otherFirst]
      exact first.apart la user inFirst other otherUser otherFirst differ npage leads
    · exact crossed la user inFirst other otherUser otherSecond npage leads
    · exact fun same => crossed other otherUser otherFirst la user inSecond npage same leads
    · exact second.apart la user inSecond other otherUser otherSecond differ npage leads
  · intro page unowned used
    rw [second.bytes page (kept page unowned used) fun isFree => used (first.free isFree),
      first.bytes page unowned used]

end RangeCopied

/-! ## A range -/

/-- The addresses from `start` to `stop`. -/
def Within (start stop la : Nat) : Prop := start ≤ la ∧ la < stop

/-- What a part of the loop leaves: the pages in use are the tables they were. -/
structure PartCopied (memory after : Memory) (dirs : Finset Nat) (tables tables' : TableMap)
    (target source : Nat) (within : Nat → Prop) : Prop where
  kept : ∀ page, page ∉ memory.free → tables'.owner page = tables.owner page
  range : RangeCopied memory after dirs tables target source within

theorem PartCopied.trans {tables'' : TableMap} {within others : Nat → Prop}
    (counted : Counted memory dirs tables) (later : Counted middle dirs tables')
    (known : target ∈ dirs) (knownSource : source ∈ dirs) (distinct : source ≠ target)
    (disjoint : ∀ la < userTop, others la → ¬ within la)
    (first : PartCopied memory middle dirs tables tables' target source within)
    (second : PartCopied middle after dirs tables' tables'' target source others) :
    PartCopied memory after dirs tables tables'' target source fun la => within la ∨ others la where
  kept page used := by
    rw [second.kept page fun isFree => used (first.range.free isFree), first.kept page used]
  range := first.range.trans counted later known knownSource distinct
    (fun page unowned used => (first.kept page used).trans unowned) disjoint second.range

/-- Tables are made, and nothing is copied. -/
theorem Grown.part (grown : Grown memory after dirs tables tables') :
    PartCopied memory after dirs tables tables' target source (Within start start) where
  kept page used := grown.kept page (Or.inl used)
  range :=
    { free := grown.free
      kept := fun root isRoot la _ _ => grown.pte root isRoot la
      absent := fun _ _ here => absurd here.2 (not_lt.mpr here.1)
      copy := fun _ _ here => absurd here.2 (not_lt.mpr here.1)
      apart := fun _ _ here => absurd here.2 (not_lt.mpr here.1)
      bytes := grown.bytes }

/-- The loop of `copy_range` comes to a page of the source for whose contents there is no page. -/
inductive Memory.CopyStops (allocator : PageAllocator) (target source stop : Nat) : Memory → Nat → Prop
  | here {memory : Memory} {start : Nat} : pteValid (memory.pteAt source start) →
      memory.NoContents allocator target start → CopyStops allocator target source stop memory start
  | next {memory middle : Memory} {start next : Nat} :
      memory.copyStep allocator target source start = .ok (some next, middle) → next < stop →
      CopyStops allocator target source stop middle next →
      CopyStops allocator target source stop memory start

/-- Where the copy of the page at `start` does not stop, what follows it decides. -/
theorem Memory.copyStops_iff {result : Option Nat} {copied : Memory}
    (step : memory.copyStep allocator target source start = .ok (result, copied))
    (notHere : ¬ (pteValid (memory.pteAt source start) ∧ memory.NoContents allocator target start)) :
    Memory.CopyStops allocator target source stop memory start ↔
      ∃ next, result = some next ∧ next < stop ∧
        Memory.CopyStops allocator target source stop copied next := by
  constructor
  · intro stops
    cases stops with
    | here valid missing => exact absurd ⟨valid, missing⟩ notHere
    | next other inside stops =>
        rw [step] at other
        obtain ⟨rfl, rfl⟩ := Prod.mk.inj (Except.ok.inj other)
        exact ⟨_, rfl, inside, stops⟩
  · rintro ⟨next, rfl, inside, stops⟩
    exact .next step inside stops

section Range

variable (counted : Counted memory dirs tables) (known : target ∈ dirs) (knownSource : source ∈ dirs)
  (aligned : start % pgSize = 0) (alignedStop : stop % pgSize = 0) (below : start < stop)
  (user : stop ≤ userTop)

include counted known knownSource aligned alignedStop below user

omit counted knownSource in
/-- The copy of the page at `start` is the first part of the range. -/
theorem Copied.part {npage : Nat} (distinct : source ≠ target) (vacant : Vacant memory target (Within start stop))
    (valid : pteValid (memory.pteAt source start))
    (copied : Copied memory after dirs tables tables' target start (memory.pteAt source start) npage) :
    PartCopied memory after dirs tables tables' target source (Within start (start + pgSize)) := by
  have low : start < userTop := lt_of_lt_of_le below user
  have pageEnd : start + pgSize ≤ stop := by
    unfold pgSize at aligned alignedStop ⊢
    omega
  have inPage : ∀ la < userTop, Within start (start + pgSize) la → pagePath la = pagePath start :=
    fun la inUser here => (pagePath_aligned aligned inUser low).mpr here
  have sameSource : ∀ la < userTop, Within start (start + pgSize) la →
      memory.pteAt source la = memory.pteAt source start :=
    fun la inUser here => Memory.pteAt_congr (inPage la inUser here)
  have leads : pteTarget (memory.pteAt source start) = some (ptePpn (memory.pteAt source start)) :=
    pteTarget_some.mpr ⟨valid, rfl⟩
  have entry : ∀ la < userTop, Within start (start + pgSize) la →
      after.pteAt target la = copiedPte npage (memory.pteAt source start) := by
    intro la inUser here
    rw [copied.entry target known la, if_pos ⟨rfl, inPage la inUser here⟩]
  refine ⟨copied.kept, ?_, ?_, ?_, ?_, ?_, copied.bytes⟩
  · apply copied.free
    rw [vacant start low ⟨le_rfl, below⟩, pteTarget_zero]
  · intro root isRoot la inUser outside
    rw [copied.entry root isRoot la, if_neg]
    rintro ⟨rfl, path⟩
    exact outside ⟨rfl, (pagePath_aligned aligned inUser low).mp path⟩
  · intro la inUser here none
    rw [sameSource la inUser here, leads] at none
    cases none
  · intro la inUser here page isPage
    rw [sameSource la inUser here, leads] at isPage
    obtain rfl := Option.some.inj isPage
    refine ⟨npage, copied.fresh, ?_, ?_, copied.contents⟩
    · rw [entry la inUser here, sameSource la inUser here]
    · rw [entry la inUser here, copied.leads]
  · intro la inUser here other otherUser otherHere differ
    exact absurd ((inPage other otherUser otherHere).trans (inPage la inUser here).symm) differ

theorem Counted.copyStep {result : Option Nat}
    (ran : memory.copyStep allocator target source start = .ok (result, after)) :
    ∃ tables' reached, PagesMoved memory after dirs tables tables' (fun _ => False) ∧
      (start ≤ reached ∧ reached ≤ stop) ∧
      (∀ next, result = some next →
        start + pgSize ≤ next ∧ next % pgSize = 0 ∧ reached = min next stop) ∧
      (source ≠ target → Vacant memory target (Within start stop) →
        PartCopied memory after dirs tables tables' target source (Within start reached)) := by
  have low : start < userTop := lt_of_lt_of_le below user
  have pageEnd : start + pgSize ≤ stop := by
    unfold pgSize at aligned alignedStop ⊢
    omega
  have alignedNext : (start + pgSize) % pgSize = 0 := by
    unfold pgSize at aligned ⊢
    omega
  unfold Memory.copyStep at ran
  simp only [counted.paged.getPte_find knownSource (pdx1_lt_two low) allocator, bind,
    Except.bind] at ran
  cases found : memory.findPte source start with
  | none =>
      rw [found] at ran
      obtain ⟨rfl, rfl⟩ := Prod.mk.inj (Except.ok.inj ran)
      obtain ⟨further, alignedBlock⟩ := roundDown_next aligned
      have notBefore : start ≤ min (roundDown (start + ptSize) ptSize) stop :=
        le_min (le_trans (Nat.le_add_right _ _) further) below.le
      refine ⟨tables, _, .refl counted, ⟨notBefore, min_le_right _ _⟩, fun next isNext => ?_,
        fun _ vacant => ⟨fun _ _ => rfl, ?_⟩⟩
      · obtain rfl := Option.some.inj isNext
        exact ⟨further, alignedBlock, rfl⟩
      apply RangeCopied.nothing
      · exact fun la inUser here =>
          vacant la inUser ⟨here.1, lt_of_lt_of_le here.2 (min_le_right _ _)⟩
      · intro la _ here
        obtain ⟨first, second⟩ := sameBlock here.1 (lt_of_lt_of_le here.2 (min_le_left _ _))
        rw [Memory.findPte_none (Memory.findPte_block first second found), pteTarget_zero]
  | some slot =>
      obtain ⟨pt, index⟩ := slot
      obtain ⟨rfl, value⟩ := Memory.findPte_some found
      have isEntry : memory.entry pt (ptx start) = memory.pteAt source start := value.symm
      simp only [found, isEntry] at ran
      by_cases valid : pteValid (memory.pteAt source start)
      · rw [if_pos valid] at ran
        have data := counted.paged.dataPage knownSource (pdx1_lt_two low)
          (pteTarget_some.mpr ⟨valid, rfl⟩)
        obtain ⟨tables', outcome⟩ := counted.copyMapped known low data ran
        rcases outcome with ⟨rfl, paged, grown⟩ | ⟨rfl, npage, copied⟩
        · refine ⟨tables', start, grown.moved counted paged, ⟨le_rfl, below.le⟩, ?_,
            fun _ _ => grown.part⟩
          intro next impossible
          cases impossible
        · refine ⟨tables', start + pgSize, copied.moved, ⟨Nat.le_add_right _ _, pageEnd⟩,
            fun next isNext => ?_, fun distinct vacant =>
              copied.part known aligned alignedStop below user distinct vacant valid⟩
          obtain rfl := Option.some.inj isNext
          exact ⟨le_rfl, alignedNext, (min_eq_left pageEnd).symm⟩
      · rw [if_neg valid] at ran
        obtain ⟨rfl, rfl⟩ := Prod.mk.inj (Except.ok.inj ran)
        refine ⟨tables, start + pgSize, .refl counted, ⟨Nat.le_add_right _ _, pageEnd⟩,
          fun next isNext => ?_, fun _ vacant => ⟨fun _ _ => rfl, ?_⟩⟩
        · obtain rfl := Option.some.inj isNext
          exact ⟨le_rfl, alignedNext, (min_eq_left pageEnd).symm⟩
        apply RangeCopied.nothing
        · exact fun la inUser here =>
            vacant la inUser ⟨here.1, lt_of_lt_of_le here.2 pageEnd⟩
        · intro la inUser here
          rw [Memory.pteAt_congr ((pagePath_aligned aligned inUser low).mpr here)]
          exact pteTarget_none.mpr valid

theorem Counted.copyLoop {fuel : Nat} {ret : Int} (enough : stop - start ≤ fuel * pgSize)
    (ran : Memory.copyLoop allocator target source stop fuel memory start = .ok (ret, after)) :
    ∃ tables' reached, PagesMoved memory after dirs tables tables' (fun _ => False) ∧
      (start ≤ reached ∧ reached ≤ stop) ∧ (ret = 0 → reached = stop) ∧
      (source ≠ target → Vacant memory target (Within start stop) →
        PartCopied memory after dirs tables tables' target source (Within start reached)) := by
  induction fuel generalizing memory tables start with
  | zero => omega
  | succ fuel inductionHypothesis =>
      unfold Memory.copyLoop at ran
      cases step : memory.copyStep allocator target source start with
      | error reason =>
          rw [step] at ran
          cases ran
      | ok pair =>
          obtain ⟨result, copied⟩ := pair
          obtain ⟨tables', reached, moved, inRange, outcome, part⟩ :=
            counted.copyStep known knownSource aligned alignedStop below user step
          simp only [step, bind, Except.bind] at ran
          cases result with
          | none =>
              obtain ⟨rfl, rfl⟩ := Prod.mk.inj (Except.ok.inj ran)
              exact ⟨tables', reached, moved, inRange,
                fun impossible => absurd impossible (by decide), part⟩
          | some next =>
              obtain ⟨further, alignedNext, isReached⟩ := outcome next rfl
              simp only at ran
              by_cases more : next ≠ 0 ∧ next < stop
              · rw [if_pos more] at ran
                rw [min_eq_left more.2.le] at isReached
                subst isReached
                have size : (fuel + 1) * pgSize = fuel * pgSize + pgSize := by ring
                obtain ⟨tables'', last, rest, lastRange, done, second⟩ :=
                  inductionHypothesis moved.counted alignedNext more.2 (by omega) ran
                refine ⟨tables'', last, moved.trans rest, ⟨by omega, lastRange.2⟩, done,
                  fun distinct vacant => ?_⟩
                have before := part distinct vacant
                have laterVacant : Vacant copied target (Within reached stop) := by
                  apply before.range.vacant_rest known
                  · exact fun la _ here early => absurd early.2 (not_lt.mpr here.1)
                  · exact fun la inUser here =>
                      vacant la inUser ⟨le_trans inRange.1 here.1, here.2⟩
                have disjoint : ∀ la < userTop, Within reached last la → ¬ Within start reached la :=
                  fun la _ here early => absurd early.2 (not_lt.mpr here.1)
                have both := before.trans counted moved.counted known knownSource distinct disjoint
                  (second distinct laterVacant)
                refine ⟨both.kept, both.range.congr fun la _ => ?_⟩
                unfold Within
                omega
              · rw [if_neg more] at ran
                obtain ⟨_, rfl⟩ := Prod.mk.inj (Except.ok.inj ran)
                have atEnd : reached = stop := by
                  rw [isReached, min_eq_right]
                  unfold pgSize at further
                  omega
                exact ⟨tables', reached, moved, inRange, fun _ => atEnd, part⟩

omit aligned alignedStop in
theorem Counted.copyStep_returns :
    (pteValid (memory.pteAt source start) ∧ memory.NoContents allocator target start ∧
      memory.copyStep allocator target source start = .error .assertFailed) ∨
    (¬ (pteValid (memory.pteAt source start) ∧ memory.NoContents allocator target start) ∧
      ∃ result after, memory.copyStep allocator target source start = .ok (result, after)) := by
  have low : start < userTop := lt_of_lt_of_le below user
  unfold Memory.copyStep
  simp only [counted.paged.getPte_find knownSource (pdx1_lt_two low) allocator, bind, Except.bind]
  cases found : memory.findPte source start with
  | none =>
      rw [Memory.findPte_none found]
      exact Or.inr ⟨fun stops => absurd stops.1 (by decide), _, _, rfl⟩
  | some slot =>
      obtain ⟨pt, index⟩ := slot
      obtain ⟨rfl, value⟩ := Memory.findPte_some found
      have isEntry : memory.entry pt (ptx start) = memory.pteAt source start := value.symm
      simp only [isEntry]
      by_cases valid : pteValid (memory.pteAt source start)
      · rw [if_pos valid]
        have data := counted.paged.dataPage knownSource (pdx1_lt_two low)
          (pteTarget_some.mpr ⟨valid, rfl⟩)
        exact (counted.copyMapped_returns known low data).imp (fun stops => ⟨valid, stops⟩)
          fun returns => ⟨fun stops => returns.1 stops.2, returns.2⟩
      · rw [if_neg valid]
        exact Or.inr ⟨fun stops => valid stops.1, _, _, rfl⟩

theorem Counted.copyLoop_returns {fuel : Nat} (enough : stop - start ≤ fuel * pgSize) :
    (Memory.CopyStops allocator target source stop memory start ∧
      Memory.copyLoop allocator target source stop fuel memory start = .error .assertFailed) ∨
    (¬ Memory.CopyStops allocator target source stop memory start ∧ ∃ ret after,
      Memory.copyLoop allocator target source stop fuel memory start = .ok (ret, after)) := by
  induction fuel generalizing memory tables start with
  | zero => omega
  | succ fuel inductionHypothesis =>
      unfold Memory.copyLoop
      rcases counted.copyStep_returns known knownSource below user with
        ⟨valid, missing, stops⟩ | ⟨notHere, result, copied, step⟩
      · rw [stops]
        exact Or.inl ⟨.here valid missing, rfl⟩
      · obtain ⟨tables', reached, moved, _, outcome, _⟩ :=
          counted.copyStep known knownSource aligned alignedStop below user step
        rw [Memory.copyStops_iff step notHere]
        simp only [step, bind, Except.bind]
        cases result with
        | none =>
            refine Or.inr ⟨?_, _, _, rfl⟩
            rintro ⟨_, impossible, _⟩
            cases impossible
        | some next =>
            obtain ⟨further, alignedNext, _⟩ := outcome next rfl
            by_cases more : next ≠ 0 ∧ next < stop
            · have size : (fuel + 1) * pgSize = fuel * pgSize + pgSize := by ring
              simp only [if_pos more]
              rcases inductionHypothesis moved.counted alignedNext more.2 (by omega) with
                stops | ⟨goesOn, returns⟩
              · exact Or.inl ⟨⟨next, rfl, more.2, stops.1⟩, stops.2⟩
              · refine Or.inr ⟨?_, returns⟩
                rintro ⟨_, same, _, stops⟩
                cases same
                exact goesOn stops
            · simp only [if_neg more]
              refine Or.inr ⟨?_, _, _, rfl⟩
              rintro ⟨_, same, inside, _⟩
              cases same
              unfold pgSize at further
              exact more ⟨by omega, inside⟩

end Range

/-- A range of whole pages is copied, an answer is given, or the copy comes to a page whose contents
have no page. -/
theorem Counted.copyRange_returns (counted : Counted memory dirs tables) (known : target ∈ dirs)
    (knownSource : source ∈ dirs)
    (checks : (start % pgSize = 0 ∧ stop % pgSize = 0) ∧ UserAccess start stop) :
    (Memory.CopyStops allocator target source stop memory start ∧
      memory.copyRange allocator target source start stop = .error .assertFailed) ∨
    (¬ Memory.CopyStops allocator target source stop memory start ∧
      ∃ ret after, memory.copyRange allocator target source start stop = .ok (ret, after)) := by
  obtain ⟨⟨aligned, alignedStop⟩, _, below, user⟩ := id checks
  unfold Memory.copyRange
  rw [if_pos checks]
  apply counted.copyLoop_returns known knownSource aligned alignedStop below user
  unfold pgSize at *
  omega

theorem Counted.copyRange {ret : Int} (counted : Counted memory dirs tables) (known : target ∈ dirs)
    (knownSource : source ∈ dirs)
    (ran : memory.copyRange allocator target source start stop = .ok (ret, after)) :
    ∃ tables' reached, PagesMoved memory after dirs tables tables' (fun _ => False) ∧
      (start ≤ reached ∧ reached ≤ stop) ∧ (ret = 0 → reached = stop) ∧
      (source ≠ target → Vacant memory target (Within start stop) →
        PartCopied memory after dirs tables tables' target source (Within start reached)) := by
  unfold Memory.copyRange at ran
  split at ran
  · next checks =>
      obtain ⟨⟨aligned, alignedStop⟩, _, below, user⟩ := checks
      apply counted.copyLoop known knownSource aligned alignedStop below user _ ran
      unfold pgSize at *
      omega
  · cases ran

end UCore.Mm
