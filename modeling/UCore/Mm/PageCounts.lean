import UCore.Lib.Transition
import UCore.Mm.PageRef

/-!
Contract: ranges of addresses and directories, and the reference counts of pages.

Owns:
- what a directory sees, and when a call leaves that alone;
- what a call does to the free pages and to the bytes of the used ones;
- what handing out a page, `pgdir_alloc_page` and `unmap_range` do to entries, counts and free pages.

The kernel's window maps all of memory and has no count: a count is that of the entries of user
addresses, which are all entries of lowest tables.

Does not own: copying a range, making directories, virtual memory areas, and giving up tables.
-/

set_option autoImplicit false

namespace UCore.Mm

open UCore.Lib

variable {memory middle after : Memory} {dirs : Finset Nat} {tables tables' : TableMap}
  {dir la page frame index value : Nat} {place : List Nat} {allocator : PageAllocator}

/-! ## Translation -/

theorem Memory.entry_of_bytes (same : after.bytes frame = memory.bytes frame) :
    after.entry frame = memory.entry frame := by
  funext index
  unfold Memory.entry
  rw [same]

/-- One step of a walk that makes no table. -/
theorem Memory.nextTable_walk : memory.nextTable allocator false frame index =
    if pteValid (memory.entry frame index) then
      if ptePpn (memory.entry frame index) < memory.npage then
        .ok (some (ptePpn (memory.entry frame index)), memory)
      else .error .panicked
    else .ok (none, memory) := by
  unfold Memory.nextTable Memory.kaddr
  by_cases valid : pteValid (memory.entry frame index)
  · rw [if_pos valid, if_pos valid]
    by_cases inside : ptePpn (memory.entry frame index) < memory.npage
    · rw [if_pos inside, if_pos inside]
      rfl
    · rw [if_neg inside, if_neg inside]
      rfl
  · rw [if_neg valid, if_neg valid, if_pos rfl]

/-- The translation of an address in the kernel's half only depends on the window. -/
theorem Paged.getPage_window (paged : Paged memory dirs tables) (known : dir ∈ dirs)
    (high : 2 ≤ pdx1 la) (npage : after.npage = memory.npage)
    (top : after.entry dir (pdx1 la) = memory.entry dir (pdx1 la))
    (same : ∀ frame, tables.window frame ≠ none → after.entry frame = memory.entry frame) :
    after.getPage allocator dir la = memory.getPage allocator dir la := by
  unfold Memory.getPage Memory.getPte
  rw [Memory.nextTable_walk, Memory.nextTable_walk, top, npage]
  by_cases first : pteValid (memory.entry dir (pdx1 la))
  swap
  · rw [if_neg first, if_neg first]
    rfl
  rw [if_pos first, if_pos first]
  by_cases inside : ptePpn (memory.entry dir (pdx1 la)) < memory.npage
  swap
  · rw [if_neg inside, if_neg inside]
  rw [if_pos inside, if_pos inside]
  have firstWindow := paged.windowTop dir known _ high (pdx1_lt la) _
    (pteTarget_some.mpr ⟨first, rfl⟩)
  have sameFirst := same _ (firstWindow ▸ Option.some_ne_none _)
  simp only [bind, Except.bind]
  rw [Memory.nextTable_walk, Memory.nextTable_walk, sameFirst, npage]
  by_cases second : pteValid (memory.entry (ptePpn (memory.entry dir (pdx1 la))) (pdx0 la))
  swap
  · rw [if_neg second, if_neg second]
    rfl
  rw [if_pos second, if_pos second]
  by_cases insideNext : ptePpn (memory.entry (ptePpn (memory.entry dir (pdx1 la))) (pdx0 la)) <
      memory.npage
  swap
  · rw [if_neg insideNext, if_neg insideNext]
  rw [if_pos insideNext, if_pos insideNext]
  have secondWindow := paged.windowNext _ firstWindow _ (pdx0_lt la) _
    (pteTarget_some.mpr ⟨second, rfl⟩)
  have sameSecond := same _ (secondWindow ▸ Option.some_ne_none _)
  simp only [pure, Except.pure]
  rw [sameSecond]
  unfold Memory.kaddr
  rw [npage]

/-- A table of the window is no other table and in use. -/
theorem Paged.window_apart (paged : Paged memory dirs tables) (isWindow : tables.window frame ≠ none) :
    tables.owner frame = none ∧ frame ∉ memory.free := by
  constructor
  · cases isOwned : tables.owner frame with
    | none => rfl
    | some place => exact absurd (paged.inside _ _ isOwned).2 isWindow
  · exact fun isFree => isWindow (paged.spare frame isFree).2.2

/-- Addresses whose entries a step leaves alone are translated as before. -/
theorem Paged.getPage_kept (paged : Paged memory dirs tables) (later : Paged after dirs tables')
    (known : dir ∈ dirs) (npage : after.npage = memory.npage)
    (pte : after.pteAt dir la = memory.pteAt dir la)
    (top : ∀ index, 2 ≤ index → after.entry dir index = memory.entry dir index)
    (bytes : ∀ page, tables.owner page = none → page ∉ memory.free →
      after.bytes page = memory.bytes page) :
    after.getPage allocator dir la = memory.getPage allocator dir la := by
  by_cases user : pdx1 la < 2
  · rw [paged.getPage_eq known user, later.getPage_eq known user, pte]
  · apply paged.getPage_window known (not_lt.mp user) npage (top _ (not_lt.mp user))
    intro frame isWindow
    obtain ⟨unowned, used⟩ := paged.window_apart isWindow
    exact Memory.entry_of_bytes (bytes frame unowned used)

/-- The translation of every address but those of the page of `la` in `dir` is as before. -/
def LeavesOthers (memory after : Memory) (dirs : Finset Nat) (dir la : Nat) : Prop :=
  ∀ allocator root other, root ∈ dirs → ¬ (root = dir ∧ pagePath other = pagePath la) →
    after.getPage allocator root other = memory.getPage allocator root other

theorem LeavesOthers.trans {last : Memory} (first : LeavesOthers memory middle dirs dir la)
    (second : LeavesOthers middle last dirs dir la) : LeavesOthers memory last dirs dir la :=
  fun allocator root other isRoot apart =>
    (second allocator root other isRoot apart).trans (first allocator root other isRoot apart)

theorem Paged.leavesOthers (paged : Paged memory dirs tables) (later : Paged after dirs tables')
    (npage : after.npage = memory.npage) (bytes : after.bytes = memory.bytes) :
    LeavesOthers memory after dirs dir la := by
  have entries : after.entry = memory.entry := by
    funext frame
    exact Memory.entry_of_bytes (congrFun bytes frame)
  intro _ root other isRoot _
  apply paged.getPage_kept later isRoot npage _ (fun index _ => congrFun (congrFun entries root) index)
    fun page _ _ => congrFun bytes page
  unfold Memory.pteAt
  rw [entries]

theorem Grown.leavesOthers (paged : Paged memory dirs tables) (later : Paged after dirs tables')
    (grown : Grown memory after dirs tables tables') : LeavesOthers memory after dirs dir la :=
  fun _ root other isRoot _ => paged.getPage_kept later isRoot grown.npage
    (grown.pte root isRoot other) (grown.top root isRoot) grown.bytes

theorem Remapped.leavesOthers (paged : Paged memory dirs tables)
    (remapped : Remapped memory after dirs tables tables' dir la value) :
    LeavesOthers memory after dirs dir la := by
  intro _ root other isRoot apart
  apply paged.getPage_kept remapped.counted.paged isRoot remapped.npage _
    (remapped.top root isRoot) remapped.bytes
  rw [remapped.pte root isRoot other, if_neg apart]

/-! ## What a directory sees -/

/-- The entry of an address is as before, and leads to a page that holds what it held. -/
structure Kept (memory after : Memory) (root la : Nat) : Prop where
  pte : after.pteAt root la = memory.pteAt root la
  bytes : ∀ page, pteTarget (memory.pteAt root la) = some page → after.bytes page = memory.bytes page

theorem Kept.refl (root : Nat) : Kept memory memory root la := ⟨rfl, fun _ _ => rfl⟩

theorem Kept.trans {last : Memory} {root : Nat} (first : Kept memory middle root la)
    (second : Kept middle last root la) : Kept memory last root la where
  pte := second.pte.trans first.pte
  bytes page leads := by
    have still : pteTarget (middle.pteAt root la) = some page := by rw [first.pte, leads]
    exact (second.bytes page still).trans (first.bytes page leads)

/-- A step that leaves an entry alone, and the pages in use. -/
theorem Paged.kept {root : Nat} (paged : Paged memory dirs tables) (isRoot : root ∈ dirs)
    (user : la < userTop) (pte : after.pteAt root la = memory.pteAt root la)
    (bytes : ∀ page, tables.owner page = none → page ∉ memory.free →
      after.bytes page = memory.bytes page) : Kept memory after root la where
  pte := pte
  bytes page leads := by
    have data := paged.dataPage isRoot (pdx1_lt_two user) leads
    exact bytes page data.unowned data.used

/-- Only entries of `dir` for some addresses change, and a page that is new there was free. -/
structure Confined (memory after : Memory) (dirs : Finset Nat) (dir : Nat) (within : Nat → Prop) :
    Prop where
  kept : ∀ root ∈ dirs, ∀ la < userTop, ¬ (root = dir ∧ within la) → Kept memory after root la
  new : ∀ la < userTop, ∀ page, pteTarget (after.pteAt dir la) = some page →
    pteTarget (memory.pteAt dir la) = some page ∨ page ∈ memory.free
  apart : ∀ la < userTop, ∀ other < userTop, ∀ page ∈ memory.free,
    pteTarget (after.pteAt dir la) = some page → pteTarget (after.pteAt dir other) = some page →
      pagePath la = pagePath other

namespace Confined

variable {within : Nat → Prop}

theorem weaken {more : Nat → Prop} (confined : Confined memory after dirs dir within)
    (wider : ∀ la, within la → more la) : Confined memory after dirs dir more where
  kept root isRoot la user outside :=
    confined.kept root isRoot la user fun here => outside ⟨here.1, wider la here.2⟩
  new := confined.new
  apart := confined.apart

/-- No new page is mapped. -/
theorem of_old (counted : Counted memory dirs tables) (known : dir ∈ dirs)
    (kept : ∀ root ∈ dirs, ∀ la < userTop, ¬ (root = dir ∧ within la) → Kept memory after root la)
    (old : ∀ la < userTop, ∀ page, pteTarget (after.pteAt dir la) = some page →
      pteTarget (memory.pteAt dir la) = some page) : Confined memory after dirs dir within where
  kept := kept
  new la user page leads := Or.inl (old la user page leads)
  apart la user _ _ page isFree leads _ := absurd isFree
    (counted.paged.dataPage known (pdx1_lt_two user) (old la user page leads)).used

end Confined

/-! ## What a call does to pages -/

/-- What a call does to the pages and their counts. Of the pages that can be mapped and are not, it
maps at most those that are `fresh`. -/
structure PagesMoved (memory after : Memory) (dirs : Finset Nat) (tables tables' : TableMap)
    (fresh : Nat → Prop) : Prop where
  counted : Counted after dirs tables'
  npage : after.npage = memory.npage
  window : tables'.window = tables.window
  windowBytes : ∀ frame, tables.window frame ≠ none → after.bytes frame = memory.bytes frame
  tablesKept : ∀ frame, tables.owner frame ≠ none → tables'.owner frame = tables.owner frame
  freed : ∀ page, page ∉ memory.free → page ∈ after.free → memory.Maps dirs page
  placed : ∀ page, page ∈ memory.free ∨ memory.Maps dirs page →
    page ∈ after.free ∨ tables'.owner page ≠ none ∨ after.Maps dirs page
  idle : ∀ page, DataPage memory tables page → ¬ memory.Maps dirs page → ¬ fresh page →
    DataPage after tables' page ∧ ¬ after.Maps dirs page

/-- A page that an entry leads to is in use. -/
theorem Counted.maps_used (counted : Counted memory dirs tables) (maps : memory.Maps dirs page) :
    page ∉ memory.free :=
  (counted.paged.maps_data maps).used

namespace PagesMoved

variable {fresh : Nat → Prop}

theorem refl (counted : Counted memory dirs tables) :
    PagesMoved memory memory dirs tables tables fresh where
  counted := counted
  npage := rfl
  window := rfl
  windowBytes _ _ := rfl
  tablesKept _ _ := rfl
  freed _ used isFree := absurd isFree used
  placed _ here := here.imp_right Or.inr
  idle _ data unmapped _ := ⟨data, unmapped⟩

theorem trans {last : Memory} {tables'' : TableMap}
    (first : PagesMoved memory middle dirs tables tables' fun _ => False)
    (second : PagesMoved middle last dirs tables' tables'' fresh) :
    PagesMoved memory last dirs tables tables'' fresh where
  counted := second.counted
  npage := second.npage.trans first.npage
  window := second.window.trans first.window
  windowBytes frame isWindow :=
    (second.windowBytes frame (first.window.symm ▸ isWindow)).trans (first.windowBytes frame isWindow)
  tablesKept frame isTable := by
    have kept := first.tablesKept frame isTable
    rw [second.tablesKept frame (kept.symm ▸ isTable), kept]
  freed page used isFree := by
    by_cases early : page ∈ middle.free
    · exact first.freed page used early
    have maps := second.freed page early isFree
    by_contra unmapped
    -- an idle page would still be idle, and a table still a table
    have data := first.counted.paged.maps_data maps
    cases isOwned : tables.owner page with
    | none =>
        have before : DataPage memory tables page :=
          ⟨first.npage ▸ data.inRange, isOwned, first.window ▸ data.unwindowed, used⟩
        exact (first.idle page before unmapped not_false).2 maps
    | some place =>
        have kept := first.tablesKept page (isOwned ▸ Option.some_ne_none _)
        rw [data.unowned, isOwned] at kept
        cases kept
  placed page here := by
    rcases first.placed page here with isFree | isTable | maps
    · exact second.placed page (Or.inl isFree)
    · exact Or.inr (Or.inl (second.tablesKept page isTable ▸ isTable))
    · exact second.placed page (Or.inr maps)
  idle page data unmapped notFresh := by
    obtain ⟨dataNext, unmappedNext⟩ := first.idle page data unmapped not_false
    exact second.idle page dataNext unmappedNext notFresh

theorem weaken {fresh' : Nat → Prop} (moved : PagesMoved memory after dirs tables tables' fresh)
    (more : ∀ page, fresh page → fresh' page) : PagesMoved memory after dirs tables tables' fresh' :=
  ⟨moved.counted, moved.npage, moved.window, moved.windowBytes, moved.tablesKept, moved.freed,
    moved.placed, fun page data unmapped notFresh =>
      moved.idle page data unmapped fun isFresh => notFresh (more page isFresh)⟩

end PagesMoved

theorem Memory.Maps.of_pte (maps : memory.Maps dirs page)
    (same : ∀ dir ∈ dirs, ∀ la, after.pteAt dir la = memory.pteAt dir la) : after.Maps dirs page := by
  obtain ⟨dir, known, la, user, leads⟩ := maps
  exact ⟨dir, known, la, user, by rw [same dir known la, leads]⟩

/-- Making tables. -/
theorem Grown.moved (counted : Counted memory dirs tables) (later : Paged after dirs tables')
    (grown : Grown memory after dirs tables tables') :
    PagesMoved memory after dirs tables tables' fun _ => False where
  counted := counted.grown later grown
  npage := grown.npage
  window := grown.window
  windowBytes frame isWindow := by
    obtain ⟨unowned, used⟩ := counted.paged.window_apart isWindow
    exact grown.bytes frame unowned used
  tablesKept frame isTable := by
    apply grown.kept
    exact Or.inl fun isFree => isTable (counted.paged.spare frame isFree).2.1
  freed page used isFree := absurd (grown.free isFree) used
  placed page here := by
    rcases here with isFree | maps
    · by_cases still : page ∈ after.free
      · exact Or.inl still
      · exact Or.inr (Or.inl (grown.taken page isFree still))
    · exact Or.inr (Or.inr (maps.of_pte grown.pte))
  idle page data unmapped _ :=
    ⟨grown.dataPage data, fun maps =>
      unmapped (maps.of_pte fun dir known la => (grown.pte dir known la).symm)⟩

/-- Replacing the entry of an address. -/
theorem Remapped.moved (counted : Counted memory dirs tables) (known : dir ∈ dirs)
    (user : la < userTop) (remapped : Remapped memory after dirs tables tables' dir la value) :
    PagesMoved memory after dirs tables tables' fun page => pteTarget value = some page where
  counted := remapped.counted
  npage := remapped.npage
  window := remapped.window
  windowBytes frame isWindow := by
    obtain ⟨unowned, used⟩ := counted.paged.window_apart isWindow
    exact remapped.bytes frame unowned used
  tablesKept frame isTable := by
    apply remapped.kept
    exact fun isFree => isTable (counted.paged.spare frame isFree).2.1
  freed page used isFree := ⟨dir, known, la, user, ((remapped.freed page used).mp isFree).1⟩
  placed page here := by
    rcases here with isFree | maps
    · by_cases still : page ∈ after.free
      · exact Or.inl still
      · exact Or.inr (Or.inl (remapped.taken page isFree still))
    by_cases still : after.Maps dirs page
    · exact Or.inr (Or.inr still)
    -- the last entry that led to the page was the one that was replaced
    have data := counted.paged.maps_data maps
    have count := @Memory.mappings_update memory after dirs dir la page value known user
      fun root isRoot other => remapped.pte root isRoot other
    have none := Memory.mappings_eq_zero still
    have some := Memory.maps_iff.mp maps
    have exact := counted.exact page data
    refine Or.inl ((remapped.freed page data.used).mpr ?_)
    by_cases old : pteTarget (memory.pteAt dir la) = Option.some page
    · by_cases new : pteTarget value = Option.some page
      · rw [if_pos old, if_pos new] at count
        omega
      · rw [if_pos old, if_neg new] at count
        exact ⟨old, by omega, new⟩
    · rw [if_neg old] at count
      split_ifs at count <;> omega
  idle page data unmapped notNew := by
    have used : page ∉ after.free := fun isFree =>
      unmapped ⟨dir, known, la, user, ((remapped.freed page data.used).mp isFree).1⟩
    refine ⟨⟨remapped.npage ▸ data.inRange, (remapped.kept page data.used).trans data.unowned,
      remapped.window ▸ data.unwindowed, used⟩, ?_⟩
    rintro ⟨root, isRoot, other, low, leads⟩
    rw [remapped.pte root isRoot other] at leads
    split_ifs at leads with same
    · exact notNew leads
    · exact unmapped ⟨root, isRoot, other, low, leads⟩

/-! ## Handing out a page -/

/-- The memory in which a page is handed out. -/
def Memory.handOut (memory : Memory) (page : Nat) : Memory :=
  { memory with free := memory.free.erase page, allocs := memory.allocs + 1 }

theorem Memory.allocPage_pick (picked : allocator.pick memory = some page) :
    memory.allocPage allocator = (some page, memory.handOut page) := by
  unfold Memory.allocPage
  rw [picked]
  rfl

theorem Memory.allocPage_none (picked : allocator.pick memory = none) :
    memory.allocPage allocator = (none, { memory with allocs := memory.allocs + 1 }) := by
  unfold Memory.allocPage
  rw [picked]

theorem Paged.handOut (paged : Paged memory dirs tables) (page : Nat) :
    Paged (memory.handOut page) dirs tables :=
  ⟨paged.owned, paged.root, paged.small,
    fun other isFree => paged.spare other (Finset.mem_of_mem_erase isFree), paged.inside,
    fun _ _ _ _ _ here lowest inTable leads =>
      have data := paged.mapped _ _ _ _ _ here lowest inTable leads
      ⟨data.inRange, data.unowned, data.unwindowed,
        fun isFree => data.used (Finset.mem_of_mem_erase isFree)⟩,
    paged.windowTop, paged.windowNext⟩

section HandOut

variable (isFree : page ∈ memory.free) (counted : Counted memory dirs tables)

include isFree

/-- A page is handed out, and a call that follows maps it or gives it back. -/
theorem PagesMoved.handedOut
    (moved : PagesMoved (memory.handOut page) after dirs tables tables' fun other => other = page)
    (placed : page ∈ after.free ∨ after.Maps dirs page) :
    PagesMoved memory after dirs tables tables' fun _ => False where
  counted := moved.counted
  npage := moved.npage
  window := moved.window
  windowBytes := moved.windowBytes
  tablesKept := moved.tablesKept
  freed other used nowFree :=
    moved.freed other (fun still => used (Finset.mem_of_mem_erase still)) nowFree
  placed other here := by
    by_cases same : other = page
    · subst same
      exact placed.imp_right Or.inr
    · exact moved.placed other (here.imp_left fun wasFree => Finset.mem_erase.mpr ⟨same, wasFree⟩)
  idle other data unmapped _ := by
    have apart : other ≠ page := by
      rintro rfl
      exact data.used isFree
    exact moved.idle other ⟨data.inRange, data.unowned, data.unwindowed,
      fun still => data.used (Finset.mem_of_mem_erase still)⟩ unmapped apart

include counted

/-- The page that was handed out can be mapped. -/
theorem Counted.handOut_data : DataPage (memory.handOut page) tables page := by
  obtain ⟨inRange, unowned, unwindowed⟩ := counted.paged.spare page isFree
  exact ⟨inRange, unowned, unwindowed, Finset.notMem_erase page memory.free⟩

theorem Counted.free_unmapped : ¬ memory.Maps dirs page :=
  fun maps => counted.maps_used maps isFree

theorem Counted.handOut : Counted (memory.handOut page) dirs tables := by
  refine ⟨counted.paged.handOut page, ?_, ?_⟩
  · intro other data
    by_cases same : other = page
    · subst same
      have nowhere := Memory.mappings_eq_zero (counted.free_unmapped isFree)
      exact (counted.idle other isFree).trans nowhere.symm
    · have used : other ∉ memory.free :=
        fun isFree => data.used (Finset.mem_erase.mpr ⟨same, isFree⟩)
      exact counted.exact other ⟨data.inRange, data.unowned, data.unwindowed, used⟩
  · exact fun other isFree => counted.idle other (Finset.mem_of_mem_erase isFree)

end HandOut

/-- The contents of a page that can be mapped change. -/
theorem DataPage.sameTables (data : DataPage memory tables page) (bytes : Bytes) : SameTables memory (memory.setBytes page bytes) tables where
  npage := rfl
  free := rfl
  owned frame place here := by
    apply Memory.setBytes_entry
    rintro rfl
    rw [data.unowned] at here
    cases here
  window frame isWindow := by
    apply Memory.setBytes_entry
    rintro rfl
    exact isWindow data.unwindowed

section SetBytes

variable (counted : Counted memory dirs tables) (data : DataPage memory tables page) (bytes : Bytes)

include counted data

theorem Counted.setBytes_pteAt (root : Nat) (isRoot : root ∈ dirs) (la : Nat) :
    (memory.setBytes page bytes).pteAt root la = memory.pteAt root la :=
  counted.paged.sameTables_pteAt (data.sameTables bytes) isRoot la

theorem Counted.setBytes : Counted (memory.setBytes page bytes) dirs tables where
  paged := counted.paged.sameTables (data.sameTables bytes)
  exact other otherData := by
    refine (counted.exact other ⟨otherData.inRange, otherData.unowned, otherData.unwindowed,
      otherData.used⟩).trans ?_
    refine (Memory.mappings_congr fun root isRoot la _ => ?_).symm
    exact counted.setBytes_pteAt data bytes root isRoot la
  idle := counted.idle

theorem Counted.setBytes_moved : PagesMoved memory (memory.setBytes page bytes) dirs tables tables
    fun _ => False where
  counted := counted.setBytes data bytes
  npage := rfl
  window := rfl
  windowBytes frame isWindow := by
    apply Function.update_of_ne
    rintro rfl
    exact isWindow data.unwindowed
  tablesKept _ _ := rfl
  freed _ used isFree := absurd isFree used
  placed _ here := here.imp_right fun maps =>
    Or.inr (maps.of_pte fun root isRoot la => counted.setBytes_pteAt data bytes root isRoot la)
  idle _ otherData unmapped _ :=
    ⟨⟨otherData.inRange, otherData.unowned, otherData.unwindowed, otherData.used⟩, fun maps =>
      unmapped (maps.of_pte fun root isRoot la =>
        (counted.setBytes_pteAt data bytes root isRoot la).symm)⟩

end SetBytes

/-! ## `pgdir_alloc_page` -/

/-- The entry that `page_insert` writes. -/
theorem pteTarget_mapped {perm : Nat} (data : DataPage memory tables page) (flags : perm < 2 ^ 10)
    (paged : Paged memory dirs tables) :
    pteTarget (pteCreate page (pteV ||| perm)) = some page :=
  pteTarget_create (lt_of_lt_of_le data.inRange paged.small) (Nat.or_lt_two_pow (by decide) flags)

section Alloc

variable (counted : Counted memory dirs tables)

include counted

/-- A page was handed out and is given back, after tables were made at most. -/
theorem PagesMoved.handedBack (isFree : page ∈ memory.free)
    (moved : PagesMoved (memory.handOut page) middle dirs tables tables' fun _ => False) :
    ∃ after, middle.freePage page = .ok after ∧ after.npage = middle.npage ∧
      after.bytes = middle.bytes ∧ PagesMoved memory after dirs tables tables' fun _ => False := by
  have nowhere : ¬ memory.Maps dirs page := counted.free_unmapped isFree
  obtain ⟨data, unmapped⟩ := moved.idle page (counted.handOut_data isFree) nowhere not_false
  have zero : middle.ref page = 0 :=
    (moved.counted.exact page data).trans (Memory.mappings_eq_zero unmapped)
  have sameRef : Function.update middle.ref page 0 = middle.ref := by
    rw [← zero, Function.update_eq_self]
  have freed : middle.freePage page = .ok { middle with free := insert page middle.free } := by
    unfold Memory.freePage
    rw [if_neg data.used, sameRef]
  have released := moved.counted.paged.release data unmapped middle.ref
  refine ⟨_, freed, rfl, rfl, ⟨released, ?_, ?_⟩, moved.npage, moved.window, moved.windowBytes,
    moved.tablesKept, ?_, ?_, ?_⟩
  · exact fun other otherData => moved.counted.exact other ⟨otherData.inRange, otherData.unowned,
      otherData.unwindowed, fun isFree => otherData.used (Finset.mem_insert_of_mem isFree)⟩
  · intro other nowFree
    rcases Finset.mem_insert.mp nowFree with rfl | wasFree
    · exact zero
    · exact moved.counted.idle other wasFree
  · intro other used nowFree
    rcases Finset.mem_insert.mp nowFree with rfl | wasFree
    · exact absurd isFree used
    · exact moved.freed other (fun still => used (Finset.mem_of_mem_erase still)) wasFree
  · intro other here
    by_cases same : other = page
    · exact Or.inl (Finset.mem_insert.mpr (Or.inl same))
    · have before := here.imp_left fun wasFree => Finset.mem_erase.mpr ⟨same, wasFree⟩
      exact (moved.placed other before).imp_left Finset.mem_insert_of_mem
  · intro other otherData otherUnmapped _
    have apart : other ≠ page := by
      rintro rfl
      exact otherData.used isFree
    obtain ⟨still, nowhere⟩ := moved.idle other ⟨otherData.inRange, otherData.unowned,
      otherData.unwindowed, fun nowFree => otherData.used (Finset.mem_of_mem_erase nowFree)⟩
      otherUnmapped not_false
    refine ⟨⟨still.inRange, still.unowned, still.unwindowed, ?_⟩, nowhere⟩
    intro nowFree
    rcases Finset.mem_insert.mp nowFree with rfl | wasFree
    · exact apart rfl
    · exact still.used wasFree

/-- Counting a call of the allocator moves nothing. -/
theorem Counted.asked (count : Nat) :
    PagesMoved memory { memory with allocs := count } dirs tables tables fun _ => False :=
  (Grown.asked count).moved counted (counted.paged.asked count)

variable (known : dir ∈ dirs) (user : la < userTop)

include known user

/-- The count of a page that one entry leads to from now on. -/
theorem Remapped.ref_one {perm : Nat} (data : DataPage memory tables page)
    (unmapped : ¬ memory.Maps dirs page) (flags : perm < 2 ^ 10)
    (remapped : Remapped memory after dirs tables tables' dir la (pteCreate page (pteV ||| perm))) :
    after.ref page = 1 ∧ after.Maps dirs page := by
  have leads := pteTarget_mapped data flags counted.paged
  have maps : after.Maps dirs page := by
    refine ⟨dir, known, la, user, ?_⟩
    rw [remapped.pte dir known la, if_pos ⟨rfl, rfl⟩, leads]
  refine ⟨?_, maps⟩
  have old : ¬ pteTarget (memory.pteAt dir la) = some page :=
    fun leads => unmapped ⟨dir, known, la, user, leads⟩
  rw [remapped.counted.exact page (remapped.counted.paged.maps_data maps),
    Memory.mappings_update known user fun root isRoot other => remapped.pte root isRoot other,
    Memory.mappings_eq_zero unmapped, if_neg old, if_pos leads]
  rfl

omit user in
/-- A page that was handed out is mapped. -/
theorem Remapped.confined (isFree : page ∈ memory.free) (leads : pteTarget value = some page)
    (remapped : Remapped (memory.handOut page) after dirs tables tables' dir la value) :
    Confined memory after dirs dir fun other => pagePath other = pagePath la := by
  have entry : ∀ root ∈ dirs, ∀ other, after.pteAt root other =
      if root = dir ∧ pagePath other = pagePath la then value else memory.pteAt root other :=
    remapped.pte
  have isNew : ∀ other < userTop, ∀ target ∈ memory.free,
      pteTarget (after.pteAt dir other) = some target → pagePath other = pagePath la := by
    intro other inUser target targetFree isTarget
    by_contra apart
    rw [entry dir known other, if_neg fun here => apart here.2] at isTarget
    exact (counted.paged.dataPage known (pdx1_lt_two inUser) isTarget).used targetFree
  constructor
  · intro root isRoot other inUser outside
    refine counted.paged.kept isRoot inUser ?_ fun used unowned inUse => ?_
    · rw [entry root isRoot other, if_neg outside]
    · exact remapped.bytes used unowned fun isFree => inUse (Finset.mem_of_mem_erase isFree)
  · intro other _ target isTarget
    rw [entry dir known other] at isTarget
    split_ifs at isTarget with here
    · rw [leads] at isTarget
      exact Or.inr (Option.some.inj isTarget ▸ isFree)
    · exact Or.inl isTarget
  · intro first firstUser second secondUser target targetFree isFirst isSecond
    exact (isNew first firstUser target targetFree isFirst).trans
      (isNew second secondUser target targetFree isSecond).symm

theorem Counted.pgdirAllocPage {perm : Nat} (flags : perm < 2 ^ 10) (allocator : PageAllocator) :
    ∃ result after tables', memory.pgdirAllocPage allocator dir la perm = .ok (result, after) ∧
      PagesMoved memory after dirs tables tables' (fun _ => False) ∧
      LeavesOthers memory after dirs dir la ∧
      (Confined memory after dirs dir fun other => pagePath other = pagePath la) ∧
      ∀ page, result = some page → after.pteAt dir la = pteCreate page (pteV ||| perm) ∧
        pteTarget (after.pteAt dir la) = some page := by
  unfold Memory.pgdirAllocPage
  cases picked : allocator.pick memory with
  | none =>
      rw [Memory.allocPage_none picked]
      exact ⟨none, _, tables, rfl, counted.asked _,
        (Grown.asked _).leavesOthers counted.paged (counted.paged.asked _),
        .of_old counted known (fun _ _ _ _ _ => ⟨rfl, fun _ _ => rfl⟩) fun _ _ _ leads => leads,
        fun _ impossible => by cases impossible⟩
  | some page =>
      have isFree := allocator.pick_free memory page picked
      have handed : Counted (memory.handOut page) dirs tables := counted.handOut isFree
      have data := counted.handOut_data isFree
      have nowhere : ¬ memory.Maps dirs page := counted.free_unmapped isFree
      have handing : LeavesOthers memory (memory.handOut page) dirs dir la :=
        counted.paged.leavesOthers handed.paged rfl rfl
      obtain ⟨ret, inserted, tables', ran, outcome⟩ :=
        handed.pageInsert known user data flags allocator
      rw [Memory.allocPage_pick picked]
      simp only [ran, bind, Except.bind]
      rcases outcome with ⟨rfl, later, grown⟩ | ⟨rfl, remapped⟩
      · obtain ⟨after, freed, npage, bytes, moved⟩ :=
          PagesMoved.handedBack counted isFree (grown.moved handed later.paged)
        have entries : ∀ root ∈ dirs, ∀ other, after.pteAt root other = memory.pteAt root other := by
          intro root isRoot other
          have sameEntries : after.entry = inserted.entry :=
            funext fun frame => Memory.entry_of_bytes (congrFun bytes frame)
          have same : after.pteAt root other = inserted.pteAt root other :=
            congrArg (fun entry => pageRadix.lookup entry root (pagePath other)) sameEntries
          exact same.trans (grown.pte root isRoot other)
        rw [if_pos (by decide), freed]
        refine ⟨none, after, tables', rfl, moved,
          handing.trans ((grown.leavesOthers handed.paged later.paged).trans
            (later.paged.leavesOthers moved.counted.paged npage bytes)), .of_old counted known ?_ ?_,
          fun _ impossible => by cases impossible⟩
        · intro root isRoot other inUser _
          refine counted.paged.kept isRoot inUser (entries root isRoot other) fun used unowned inUse => ?_
          rw [bytes]
          exact grown.bytes used unowned fun isFree => inUse (Finset.mem_of_mem_erase isFree)
        · intro other _ target leads
          rwa [entries dir known other] at leads
      · obtain ⟨one, maps⟩ := remapped.ref_one handed known user data nowhere flags
        have leads := pteTarget_mapped data flags handed.paged
        rw [if_neg (by decide), if_pos one]
        refine ⟨some page, inserted, tables', rfl, ?_,
          handing.trans (remapped.leavesOthers handed.paged),
          remapped.confined counted known isFree leads, ?_⟩
        · apply PagesMoved.handedOut isFree _ (Or.inr maps)
          apply (remapped.moved handed known user).weaken
          intro other isOther
          rw [leads] at isOther
          exact (Option.some.inj isOther).symm
        · intro target isTarget
          obtain rfl := Option.some.inj isTarget
          have entry := (remapped.pte dir known la).trans (if_pos ⟨rfl, rfl⟩)
          exact ⟨entry, entry ▸ leads⟩

end Alloc

/-! ## `unmap_range` -/

/-- The entries from `start` to `stop` are cleared in one directory. -/
structure Unmapped (memory after : Memory) (dirs : Finset Nat) (dir start stop : Nat) : Prop where
  gone : ∀ la < userTop, start ≤ la → la < stop → after.pteAt dir la = 0
  kept : ∀ root ∈ dirs, ∀ la < userTop, ¬ (root = dir ∧ start ≤ la ∧ la < stop) →
    Kept memory after root la

theorem Unmapped.trans {last : Memory} {start next stop : Nat} (known : dir ∈ dirs)
    (inside : start ≤ next ∧ next ≤ stop) (first : Unmapped memory middle dirs dir start next)
    (second : Unmapped middle last dirs dir next stop) : Unmapped memory last dirs dir start stop where
  gone la user above below := by
    by_cases early : la < next
    · rw [(second.kept dir known la user (by omega)).pte, first.gone la user above early]
    · exact second.gone la user (by omega) below
  kept root isRoot la user outside :=
    (first.kept root isRoot la user fun here => outside ⟨here.1, here.2.1, by omega⟩).trans
      (second.kept root isRoot la user fun here => outside ⟨here.1, by omega, here.2.2⟩)

/-- The addresses of the page at `start`. -/
theorem pagePath_aligned {start : Nat} (aligned : start % pgSize = 0) (here : la < userTop)
    (there : start < userTop) : pagePath la = pagePath start ↔ start ≤ la ∧ la < start + pgSize := by
  rw [pagePath_eq here there]
  unfold pgSize at aligned ⊢
  omega

/-- The addresses up to the end of the block of `start`. -/
theorem sameBlock {start : Nat} (above : start ≤ la)
    (below : la < roundDown (start + ptSize) ptSize) : pdx1 la = pdx1 start ∧ pdx0 la = pdx0 start := by
  unfold roundDown ptSize pgSize nPteEntry at below
  unfold pdx1 pdx0
  omega

theorem roundDown_next {start : Nat} (aligned : start % pgSize = 0) :
    start + pgSize ≤ roundDown (start + ptSize) ptSize ∧
      roundDown (start + ptSize) ptSize % pgSize = 0 := by
  unfold roundDown ptSize nPteEntry
  unfold pgSize at aligned ⊢
  omega

section Ranges

variable {start stop : Nat} (counted : Counted memory dirs tables) (known : dir ∈ dirs)
  (aligned : start % pgSize = 0) (alignedStop : stop % pgSize = 0) (below : start < stop)
  (user : stop ≤ userTop)

include counted known aligned alignedStop below user

theorem Counted.unmapStep (allocator : PageAllocator) : ∃ next after,
    memory.unmapStep allocator dir start = .ok (next, after) ∧
      PagesMoved memory after dirs tables tables (fun _ => False) ∧
      Unmapped memory after dirs dir start (min next stop) ∧ start + pgSize ≤ next ∧
      next % pgSize = 0 := by
  have low : start < userTop := lt_of_lt_of_le below user
  unfold Memory.unmapStep
  rw [counted.paged.getPte_find known (pdx1_lt_two low) allocator]
  cases found : memory.findPte dir start with
  | none =>
      obtain ⟨further, alignedNext⟩ := roundDown_next aligned
      refine ⟨_, memory, rfl, .refl counted, ⟨?_, fun root _ _ _ _ => .refl root⟩, further,
        alignedNext⟩
      intro la _ above beforeEnd
      obtain ⟨first, second⟩ := sameBlock above (lt_of_lt_of_le beforeEnd (min_le_left _ _))
      exact Memory.findPte_none (Memory.findPte_block first second found)
  | some slot =>
      obtain ⟨pt, index⟩ := slot
      obtain ⟨rfl, value⟩ := Memory.findPte_some found
      have here : tables.owner pt = some (dir, [pdx1 start, pdx0 start]) :=
        counted.paged.findPte_owner known (pdx1_lt_two low) found
      have pageEnd : start + pgSize ≤ stop := by
        unfold pgSize at aligned alignedStop ⊢
        omega
      have cleared : ∃ after, (do
          let removed ← if memory.entry pt (ptx start) ≠ 0 then
              memory.pageRemovePte pt (ptx start)
            else pure memory
          pure (start + pgSize, removed) : Except Stop (Nat × Memory)) =
            .ok (start + pgSize, after) ∧ Remapped memory after dirs tables tables dir start 0 := by
        by_cases empty : memory.entry pt (ptx start) = 0
        · rw [if_neg (not_not.mpr empty)]
          exact ⟨memory, rfl, counted.remapped_absent known (value.trans empty)⟩
        · obtain ⟨after, removed, remapped⟩ := counted.pageRemovePte known low here
          rw [if_pos empty, removed]
          exact ⟨after, rfl, remapped⟩
      obtain ⟨after, done, remapped⟩ := cleared
      have moved : PagesMoved memory after dirs tables tables fun _ => False := by
        apply (remapped.moved counted known low).weaken
        intro page leads
        rw [pteTarget_zero] at leads
        cases leads
      refine ⟨start + pgSize, after, ?_, moved, ⟨?_, ?_⟩, le_rfl, ?_⟩
      · simp only [bind, Except.bind] at done ⊢
        exact done
      · intro la inUser above beforeEnd
        rw [remapped.pte dir known la, if_pos]
        exact ⟨rfl, (pagePath_aligned aligned inUser low).mpr ⟨above, by omega⟩⟩
      · intro root isRoot la inUser outside
        refine counted.paged.kept isRoot inUser ?_ remapped.bytes
        rw [remapped.pte root isRoot la, if_neg]
        rintro ⟨rfl, path⟩
        obtain ⟨above, inPage⟩ := (pagePath_aligned aligned inUser low).mp path
        exact outside ⟨rfl, above, by omega⟩
      · unfold pgSize at aligned ⊢
        omega

theorem Counted.unmapLoop (allocator : PageAllocator) {fuel : Nat}
    (enough : stop - start ≤ fuel * pgSize) : ∃ after,
    Memory.unmapLoop allocator dir stop fuel memory start = .ok after ∧
      PagesMoved memory after dirs tables tables (fun _ => False) ∧
      Unmapped memory after dirs dir start stop := by
  induction fuel generalizing memory start with
  | zero => omega
  | succ fuel inductionHypothesis =>
      obtain ⟨next, removed, done, moved, unmapped, further, alignedNext⟩ :=
        counted.unmapStep known aligned alignedStop below user allocator
      unfold Memory.unmapLoop
      simp only [done, bind, Except.bind]
      by_cases more : next ≠ 0 ∧ next < stop
      · rw [if_pos more]
        rw [min_eq_left more.2.le] at unmapped
        have size : (fuel + 1) * pgSize = fuel * pgSize + pgSize := by ring
        obtain ⟨after, ran, rest, cleared⟩ :=
          inductionHypothesis moved.counted alignedNext more.2 (by omega)
        exact ⟨after, ran, moved.trans rest, unmapped.trans known ⟨by omega, more.2.le⟩ cleared⟩
      · rw [if_neg more]
        rw [min_eq_right (by unfold pgSize at further; omega)] at unmapped
        exact ⟨removed, rfl, moved, unmapped⟩

end Ranges

theorem Counted.unmapRange {start stop : Nat} (counted : Counted memory dirs tables)
    (known : dir ∈ dirs) (checks : (start % pgSize = 0 ∧ stop % pgSize = 0) ∧ UserAccess start stop)
    (allocator : PageAllocator) : ∃ after, memory.unmapRange allocator dir start stop = .ok after ∧
      PagesMoved memory after dirs tables tables (fun _ => False) ∧
      Unmapped memory after dirs dir start stop := by
  unfold Memory.unmapRange
  rw [if_pos checks]
  obtain ⟨⟨aligned, alignedStop⟩, _, below, user⟩ := checks
  apply counted.unmapLoop known aligned alignedStop below user allocator
  unfold pgSize at *
  omega

end UCore.Mm
