import UCore.Lib.Radix
import UCore.Mm.PageTable

/-!
Contract: the page tables in memory are the tables of one tree for each page directory.

Owns:
- the tree that the entries make, and the entry that it has for an address;
- the invariant that keeps the tables of the directories apart from each other, from mapped pages
  and from the tables of the kernel's window;
- what `get_pte` finds and makes.

Does not own: reference counts of mapped pages.
-/

set_option autoImplicit false

namespace UCore.Mm

open UCore.Lib

/-! ## Entries -/

theorem pteCreate_eq {ppn type : Nat} (flags : type < 2 ^ 10) :
    pteCreate ppn type = ppn * 2 ^ 10 + (pteV ||| type) := by
  have small : pteV ||| type < 2 ^ 10 := Nat.or_lt_two_pow (by decide) flags
  unfold pteCreate
  rw [Nat.or_assoc, Nat.mul_comm, Nat.two_pow_add_eq_or_of_lt small]

theorem or_pteV_odd (type : Nat) : (pteV ||| type) % 2 = 1 := by
  have bit : (pteV ||| type).testBit 0 = true := by
    rw [Nat.testBit_or]
    rfl
  rw [Nat.testBit_zero] at bit
  exact of_decide_eq_true bit

theorem pteValid_create {ppn type : Nat} (flags : type < 2 ^ 10) : pteValid (pteCreate ppn type) := by
  have odd := or_pteV_odd type
  unfold pteValid
  rw [pteCreate_eq flags]
  omega

theorem ptePpn_create {ppn type : Nat} (small : ppn < 2 ^ 52) (flags : type < 2 ^ 10) :
    ptePpn (pteCreate ppn type) = ppn := by
  have low : pteV ||| type < 2 ^ 10 := Nat.or_lt_two_pow (by decide) flags
  unfold ptePpn
  rw [pteCreate_eq flags]
  omega

theorem pteCreate_lt {ppn type : Nat} (small : ppn < 2 ^ 52) (flags : type < 2 ^ 10) :
    pteCreate ppn type < 256 ^ 8 := by
  have low : pteV ||| type < 2 ^ 10 := Nat.or_lt_two_pow (by decide) flags
  rw [pteCreate_eq flags]
  omega

/-- What an entry leads to: a table, or a mapped page. -/
def pteTarget (pte : Nat) : Option Nat := if pteValid pte then some (ptePpn pte) else none

theorem pteTarget_zero : pteTarget 0 = none := by decide

theorem pteTarget_some {pte page : Nat} : pteTarget pte = some page ↔
    pteValid pte ∧ ptePpn pte = page := by
  unfold pteTarget
  split_ifs with valid
  · rw [Option.some.injEq]
    exact (and_iff_right valid).symm
  · exact iff_of_false nofun fun both => valid both.1

theorem pteTarget_none {pte : Nat} : pteTarget pte = none ↔ ¬ pteValid pte := by
  unfold pteTarget
  split_ifs with valid
  · exact iff_of_false nofun (not_not.mpr valid)
  · exact iff_of_true rfl valid

theorem pteTarget_create {ppn type : Nat} (small : ppn < 2 ^ 52) (flags : type < 2 ^ 10) :
    pteTarget (pteCreate ppn type) = some ppn :=
  pteTarget_some.mpr ⟨pteValid_create flags, ptePpn_create small flags⟩

-- the walk only looks at entries through the lemmas above
attribute [irreducible] pteTarget

/-! ## The tree -/

/-- Three levels of tables; of a directory the user half is used. -/
@[reducible] def pageRadix : Radix Nat Nat where
  child := pteTarget
  absent := 0
  childless := pteTarget_zero
  depth := 3
  uses := fun place index => index < nPteEntry ∧ (place = [] → index < 2)

def pagePath (la : Nat) : List Nat := [pdx1 la, pdx0 la, ptx la]

/-- The entry of an address, or 0 where there is no table for it. -/
def Memory.pteAt (memory : Memory) (pgdir la : Nat) : Nat :=
  pageRadix.lookup memory.entry pgdir (pagePath la)

theorem Memory.pteAt_walk (memory : Memory) (pgdir la : Nat) :
    memory.pteAt pgdir la =
      match pteTarget (memory.entry pgdir (pdx1 la)) with
      | none => 0
      | some pd0 =>
          match pteTarget (memory.entry pd0 (pdx0 la)) with
          | none => 0
          | some pt => memory.entry pt (ptx la) := by
  unfold Memory.pteAt pagePath
  simp only [Radix.lookup]
  cases pteTarget (memory.entry pgdir (pdx1 la)) with
  | none => rfl
  | some pd0 =>
      simp only
      cases pteTarget (memory.entry pd0 (pdx0 la)) with
      | none => rfl
      | some pt => rfl

theorem pdx1_lt (la : Nat) : pdx1 la < nPteEntry := Nat.mod_lt _ (by decide)

theorem pdx0_lt (la : Nat) : pdx0 la < nPteEntry := Nat.mod_lt _ (by decide)

theorem ptx_lt (la : Nat) : ptx la < nPteEntry := Nat.mod_lt _ (by decide)

theorem pdx1_lt_two {la : Nat} (user : la < userTop) : pdx1 la < 2 := by
  unfold pdx1
  unfold userTop at user
  omega

theorem usesAll_pagePath {la : Nat} (user : pdx1 la < 2) : pageRadix.UsesAll [] (pagePath la) :=
  ⟨⟨pdx1_lt la, fun _ => user⟩, ⟨pdx0_lt la, nofun⟩, ⟨ptx_lt la, nofun⟩, trivial⟩

/-- Addresses with one path are in one page. -/
theorem pagePath_eq {la other : Nat} (here : la < userTop) (there : other < userTop) :
    pagePath la = pagePath other ↔ la / pgSize = other / pgSize := by
  unfold pagePath pdx1 pdx0 ptx
  unfold userTop at here there
  unfold pgSize
  simp only [List.cons.injEq, and_true]
  omega

namespace Memory

variable {memory : Memory} {table index value page : Nat}

theorem setEntry_entry (small : value < 256 ^ 8) :
    (memory.setEntry table index value).entry = Radix.write memory.entry table index value := by
  funext other position
  by_cases same : other = table
  · subst same
    by_cases here : position = index
    · subst here
      rw [Radix.write_self]
      unfold entry setEntry setBytes
      simp only [Function.update_self]
      exact Bytes.number_overlay_same small
    · rw [Radix.write_of_ne fun both => here both.2]
      unfold entry setEntry setBytes
      simp only [Function.update_self]
      apply Bytes.number_overlay_apart
      omega
  · rw [Radix.write_of_ne fun both => same both.1]
    unfold entry setEntry setBytes
    simp only [Function.update_of_ne same]

theorem clearPage_entry :
    (memory.clearPage page).entry = Function.update memory.entry page fun _ => 0 := by
  funext other position
  by_cases same : other = page
  · subst same
    unfold entry clearPage setBytes
    simp only [Function.update_self]
    exact Bytes.number_zeros _ _
  · unfold entry clearPage setBytes
    simp only [Function.update_of_ne same]

/-- A page that holds no table does not matter to the entries of the others. -/
theorem setBytes_entry {bytes : Bytes} {other : Nat} (apart : other ≠ page) :
    (memory.setBytes page bytes).entry other = memory.entry other := by
  funext position
  unfold entry setBytes
  simp only [Function.update_of_ne apart]

end Memory

/-! ## The invariant -/

/-- Which page is the table of which directory at which place, and which are the tables of the
kernel's window, with their level. -/
structure TableMap where
  owner : Nat → Option (Nat × List Nat)
  window : Nat → Option Nat

/-- A page in use that holds no table: it can be mapped. -/
structure DataPage (memory : Memory) (tables : TableMap) (page : Nat) : Prop where
  inRange : page < memory.npage
  unowned : tables.owner page = none
  unwindowed : tables.window page = none
  used : page ∉ memory.free

structure Paged (memory : Memory) (dirs : Finset Nat) (tables : TableMap) : Prop where
  owned : pageRadix.Owned memory.entry tables.owner
  root : ∀ frame dir, tables.owner frame = some (dir, []) ↔ frame = dir ∧ dir ∈ dirs
  small : memory.npage ≤ 2 ^ 52
  spare : ∀ page ∈ memory.free,
    page < memory.npage ∧ tables.owner page = none ∧ tables.window page = none
  inside : ∀ frame place, tables.owner frame = some place →
    frame < memory.npage ∧ tables.window frame = none
  /-- the entries of the lowest tables lead to pages that can be mapped -/
  mapped : ∀ frame dir place index page, tables.owner frame = some (dir, place) →
    place.length = 2 → index < nPteEntry → pteTarget (memory.entry frame index) = some page →
    DataPage memory tables page
  /-- the directories share the window of the kernel -/
  windowTop : ∀ dir ∈ dirs, ∀ index, 2 ≤ index → index < nPteEntry → ∀ below,
    pteTarget (memory.entry dir index) = some below → tables.window below = some 1
  windowNext : ∀ frame, tables.window frame = some 1 → ∀ index < nPteEntry, ∀ below,
    pteTarget (memory.entry frame index) = some below → tables.window below = some 2

variable {memory after : Memory} {dirs : Finset Nat} {tables tables' : TableMap}
  {dir la page frame index : Nat} {place : List Nat}

theorem Paged.owner_dir (paged : Paged memory dirs tables) (known : dir ∈ dirs) :
    tables.owner dir = some (dir, []) :=
  (paged.root dir dir).mpr ⟨rfl, known⟩

theorem Paged.place_length (paged : Paged memory dirs tables)
    (here : tables.owner frame = some (dir, place)) : place.length < pageRadix.depth := by
  induction place using List.reverseRecOn with
  | nil => decide
  | append_singleton above index _ =>
      have inner := (paged.owned.above _ _ _ _ here).1
      rw [List.length_append]
      exact inner

/-- The entry that `get_pte` points to is that of the address. -/
theorem Paged.pteAt_eq (paged : Paged memory dirs tables) (known : dir ∈ dirs)
    (here : tables.owner frame = some (dir, [pdx1 la, pdx0 la])) :
    memory.pteAt dir la = memory.entry frame (ptx la) := by
  have reached : pageRadix.lookup memory.entry dir ([pdx1 la, pdx0 la] ++ [ptx la]) =
      memory.entry frame (ptx la) := paged.owned.lookup_eq (paged.owner_dir known) here
  exact reached

/-- The entry of an address in the kernel's half only depends on the window. -/
theorem Paged.pteAt_window (paged : Paged memory dirs tables) (known : dir ∈ dirs)
    (high : 2 ≤ pdx1 la) (top : after.entry dir (pdx1 la) = memory.entry dir (pdx1 la))
    (same : ∀ frame, tables.window frame ≠ none → after.entry frame = memory.entry frame) :
    after.pteAt dir la = memory.pteAt dir la := by
  rw [Memory.pteAt_walk, Memory.pteAt_walk, top]
  cases first : pteTarget (memory.entry dir (pdx1 la)) with
  | none => rfl
  | some pd0 =>
      have firstWindow := paged.windowTop dir known (pdx1 la) high (pdx1_lt la) pd0 first
      have samePd0 : after.entry pd0 = memory.entry pd0 :=
        same pd0 (firstWindow ▸ Option.some_ne_none _)
      simp only
      rw [samePd0]
      cases second : pteTarget (memory.entry pd0 (pdx0 la)) with
      | none => rfl
      | some pt =>
          have secondWindow := paged.windowNext pd0 firstWindow (pdx0 la) (pdx0_lt la) pt second
          have samePt : after.entry pt = memory.entry pt :=
            same pt (secondWindow ▸ Option.some_ne_none _)
          simp only
          rw [samePt]

/-- A step that writes no table and does not change which pages are free. -/
structure SameTables (memory after : Memory) (tables : TableMap) : Prop where
  npage : after.npage = memory.npage
  free : after.free = memory.free
  owned : ∀ frame place, tables.owner frame = some place → after.entry frame = memory.entry frame
  window : ∀ frame, tables.window frame ≠ none → after.entry frame = memory.entry frame

theorem Paged.sameTables (paged : Paged memory dirs tables) (same : SameTables memory after tables) :
    Paged after dirs tables where
  owned := paged.owned.congr same.owned
  root := paged.root
  small := same.npage ▸ paged.small
  spare page isFree := same.npage ▸ paged.spare page (same.free ▸ isFree)
  inside frame place here := same.npage ▸ paged.inside frame place here
  mapped frame root place position target here lowest inTable leads := by
    rw [same.owned _ _ here] at leads
    have data := paged.mapped _ _ _ _ _ here lowest inTable leads
    exact ⟨same.npage ▸ data.inRange, data.unowned, data.unwindowed, same.free ▸ data.used⟩
  windowTop root known position high inTable below leads := by
    rw [same.owned _ _ (paged.owner_dir known)] at leads
    exact paged.windowTop root known position high inTable below leads
  windowNext frame isWindow position inTable below leads := by
    rw [same.window frame (isWindow ▸ Option.some_ne_none _)] at leads
    exact paged.windowNext frame isWindow position inTable below leads

theorem Paged.sameTables_pteAt (paged : Paged memory dirs tables)
    (same : SameTables memory after tables) (known : dir ∈ dirs) (la : Nat) :
    after.pteAt dir la = memory.pteAt dir la := by
  have rootHere := paged.owner_dir known
  by_cases user : pdx1 la < 2
  · exact paged.owned.lookup_congr rootHere rfl (usesAll_pagePath user)
      fun frame before index after here _ _ => congrFun (same.owned frame _ here) index
  · exact paged.pteAt_window known (not_lt.mp user) (congrFun (same.owned _ _ rootHere) _)
      same.window

/-! ## `get_pte` without `create` -/

/-- The table and the index of the entry of an address, where there is a table for it. -/
def Memory.findPte (memory : Memory) (pgdir la : Nat) : Option (Nat × Nat) :=
  (pteTarget (memory.entry pgdir (pdx1 la))).bind fun pd0 =>
    (pteTarget (memory.entry pd0 (pdx0 la))).map fun pt => (pt, ptx la)

theorem Memory.findPte_none (missing : memory.findPte dir la = none) : memory.pteAt dir la = 0 := by
  unfold Memory.findPte at missing
  rw [Memory.pteAt_walk]
  cases first : pteTarget (memory.entry dir (pdx1 la)) with
  | none => rfl
  | some pd0 =>
      rw [first, Option.bind_some, Option.map_eq_none_iff] at missing
      simp only
      rw [missing]

theorem Memory.findPte_some {slot : Nat × Nat} (found : memory.findPte dir la = some slot) :
    slot.2 = ptx la ∧ memory.pteAt dir la = memory.entry slot.1 slot.2 := by
  unfold Memory.findPte at found
  obtain ⟨pd0, first, rest⟩ := Option.bind_eq_some_iff.mp found
  obtain ⟨pt, second, rfl⟩ := Option.map_eq_some_iff.mp rest
  refine ⟨rfl, ?_⟩
  rw [Memory.pteAt_walk, first]
  simp only
  rw [second]

/-- There is a table for every address of a block or for none. -/
theorem Memory.findPte_block {other : Nat} (first : pdx1 other = pdx1 la)
    (second : pdx0 other = pdx0 la) (missing : memory.findPte dir la = none) :
    memory.findPte dir other = none := by
  unfold Memory.findPte at missing ⊢
  rw [first, second]
  rw [Option.bind_eq_none_iff] at missing ⊢
  intro pd0 found
  exact Option.map_eq_none_iff.mpr (Option.map_eq_none_iff.mp (missing pd0 found))

theorem Memory.nextTable_find {allocator : PageAllocator}
    (inside : ∀ below, pteTarget (memory.entry frame index) = some below → below < memory.npage) :
    memory.nextTable allocator false frame index =
      .ok (pteTarget (memory.entry frame index), memory) := by
  unfold Memory.nextTable
  by_cases valid : pteValid (memory.entry frame index)
  · have leads := pteTarget_some.mpr ⟨valid, rfl⟩
    have inRange := inside _ leads
    rw [if_pos valid, leads]
    unfold Memory.kaddr
    rw [if_pos inRange]
    rfl
  · rw [if_neg valid, if_pos rfl, pteTarget_none.mpr valid]

theorem Memory.nextTable_leads {allocator : PageAllocator} {create : Bool} {below : Nat}
    (leads : pteTarget (memory.entry frame index) = some below) (inside : below < memory.npage) :
    memory.nextTable allocator create frame index = .ok (some below, memory) := by
  obtain ⟨valid, rfl⟩ := pteTarget_some.mp leads
  unfold Memory.nextTable Memory.kaddr
  rw [if_pos valid, if_pos inside]
  rfl

section Find

variable (paged : Paged memory dirs tables) (known : dir ∈ dirs) (user : pdx1 la < 2)

include paged known user

theorem Paged.first_table {pd0 : Nat} (first : pteTarget (memory.entry dir (pdx1 la)) = some pd0) :
    tables.owner pd0 = some (dir, [pdx1 la]) :=
  paged.owned.below _ _ _ _ _ (paged.owner_dir known) (by decide) ⟨pdx1_lt la, fun _ => user⟩ first

theorem Paged.second_table {pd0 pt : Nat}
    (first : pteTarget (memory.entry dir (pdx1 la)) = some pd0)
    (second : pteTarget (memory.entry pd0 (pdx0 la)) = some pt) :
    tables.owner pt = some (dir, [pdx1 la, pdx0 la]) :=
  paged.owned.below _ _ _ _ _ (paged.first_table known user first) (Nat.lt_succ_self 2)
    ⟨pdx0_lt la, nofun⟩ second

theorem Paged.findPte_owner {slot : Nat × Nat} (found : memory.findPte dir la = some slot) :
    tables.owner slot.1 = some (dir, [pdx1 la, pdx0 la]) := by
  unfold Memory.findPte at found
  obtain ⟨pd0, first, rest⟩ := Option.bind_eq_some_iff.mp found
  obtain ⟨pt, second, rfl⟩ := Option.map_eq_some_iff.mp rest
  exact paged.second_table known user first second

theorem Paged.getPte_find (allocator : PageAllocator) :
    memory.getPte allocator dir la false = .ok (memory.findPte dir la, memory) := by
  have firstInside : ∀ pd0, pteTarget (memory.entry dir (pdx1 la)) = some pd0 →
      pd0 < memory.npage :=
    fun pd0 first => (paged.inside _ _ (paged.first_table known user first)).1
  unfold Memory.getPte Memory.findPte
  rw [Memory.nextTable_find firstInside]
  cases first : pteTarget (memory.entry dir (pdx1 la)) with
  | none => rfl
  | some pd0 =>
      have secondInside : ∀ pt, pteTarget (memory.entry pd0 (pdx0 la)) = some pt →
          pt < memory.npage :=
        fun pt second => (paged.inside _ _ (paged.second_table known user first second)).1
      have found : memory.nextTable allocator false pd0 (pdx0 la) =
          .ok (pteTarget (memory.entry pd0 (pdx0 la)), memory) := Memory.nextTable_find secondInside
      simp only [Except.bind, bind, Option.bind_some]
      rw [found]
      cases pteTarget (memory.entry pd0 (pdx0 la)) with
      | none => rfl
      | some pt => rfl

/-- The entries of user addresses lead to pages that can be mapped. -/
theorem Paged.dataPage (leads : pteTarget (memory.pteAt dir la) = some page) :
    DataPage memory tables page := by
  cases found : memory.findPte dir la with
  | none =>
      rw [Memory.findPte_none found, pteTarget_zero] at leads
      cases leads
  | some slot =>
      obtain ⟨position, value⟩ := Memory.findPte_some found
      rw [value] at leads
      exact paged.mapped _ _ _ _ _ (paged.findPte_owner known user found) rfl
        (position ▸ ptx_lt la) leads

theorem Paged.getPage_eq (allocator : PageAllocator) :
    memory.getPage allocator dir la = .ok (pteTarget (memory.pteAt dir la)) := by
  unfold Memory.getPage
  rw [paged.getPte_find known user allocator]
  cases found : memory.findPte dir la with
  | none =>
      rw [Memory.findPte_none found, pteTarget_zero]
      rfl
  | some slot =>
      obtain ⟨_, value⟩ := Memory.findPte_some found
      have inRange : ∀ page, pteTarget (memory.pteAt dir la) = some page → page < memory.npage :=
        fun page leads => (paged.dataPage known user leads).inRange
      rw [value] at inRange ⊢
      simp only [Except.bind, bind]
      by_cases valid : pteValid (memory.entry slot.1 slot.2)
      · have leads := pteTarget_some.mpr ⟨valid, rfl⟩
        rw [if_pos valid, leads]
        unfold Memory.kaddr
        rw [if_pos (inRange _ leads)]
        rfl
      · rw [if_neg valid, pteTarget_none.mpr valid]
        rfl

end Find

/-! ## Making tables -/

/-- What a step does that only makes tables. -/
structure Grown (memory after : Memory) (dirs : Finset Nat) (tables tables' : TableMap) : Prop where
  pte : ∀ dir ∈ dirs, ∀ la, after.pteAt dir la = memory.pteAt dir la
  /-- the kernel's half of the directories -/
  top : ∀ dir ∈ dirs, ∀ index, 2 ≤ index → after.entry dir index = memory.entry dir index
  npage : after.npage = memory.npage
  window : tables'.window = tables.window
  free : after.free ⊆ memory.free
  taken : ∀ page ∈ memory.free, page ∉ after.free → tables'.owner page ≠ none
  kept : ∀ page, page ∉ memory.free ∨ page ∈ after.free → tables'.owner page = tables.owner page
  bytes : ∀ page, tables.owner page = none → page ∉ memory.free →
    after.bytes page = memory.bytes page
  ref : ∀ page, tables'.owner page = none → after.ref page = memory.ref page

namespace Grown

theorem refl : Grown memory memory dirs tables tables :=
  ⟨fun _ _ _ => rfl, fun _ _ _ _ => rfl, rfl, rfl, Finset.Subset.refl _, fun _ isFree used => absurd isFree used,
    fun _ _ => rfl, fun _ _ _ => rfl, fun _ _ => rfl⟩

theorem asked (count : Nat) : Grown memory { memory with allocs := count } dirs tables tables :=
  ⟨fun _ _ _ => rfl, fun _ _ _ _ => rfl, rfl, rfl, Finset.Subset.refl _, fun _ isFree used => absurd isFree used,
    fun _ _ => rfl, fun _ _ _ => rfl, fun _ _ => rfl⟩

/-- Pages that can be mapped still can. -/
theorem dataPage (grown : Grown memory after dirs tables tables')
    (data : DataPage memory tables page) : DataPage after tables' page where
  inRange := grown.npage ▸ data.inRange
  unowned := (grown.kept page (Or.inl data.used)).trans data.unowned
  unwindowed := grown.window ▸ data.unwindowed
  used := fun isFree => data.used (grown.free isFree)

theorem trans {last : Memory} {tables'' : TableMap} (first : Grown memory after dirs tables tables')
    (second : Grown after last dirs tables' tables'') : Grown memory last dirs tables tables'' where
  pte dir known la := (second.pte dir known la).trans (first.pte dir known la)
  top dir known index high := (second.top dir known index high).trans (first.top dir known index high)
  npage := second.npage.trans first.npage
  window := second.window.trans first.window
  free := second.free.trans first.free
  taken page isFree used := by
    by_cases still : page ∈ after.free
    · exact second.taken page still used
    · rw [second.kept page (Or.inl still)]
      exact first.taken page isFree still
  kept page unchanged := by
    rcases unchanged with used | isFree
    · rw [second.kept page (Or.inl fun isFree => used (first.free isFree)),
        first.kept page (Or.inl used)]
    · rw [second.kept page (Or.inr isFree), first.kept page (Or.inr (second.free isFree))]
  bytes page unowned used := by
    have stillUnowned := (first.kept page (Or.inl used)).trans unowned
    rw [second.bytes page stillUnowned fun isFree => used (first.free isFree),
      first.bytes page unowned used]
  ref page unowned := by
    have before : tables'.owner page = none := by
      by_cases isFree : page ∈ after.free
      · by_cases still : page ∈ last.free
        · exact (second.kept page (Or.inr still)).symm.trans unowned
        · exact absurd unowned (second.taken page isFree still)
      · exact (second.kept page (Or.inl isFree)).symm.trans unowned
    rw [second.ref page unowned, first.ref page before]

end Grown

/-- An entry for a table leads to it. -/
theorem child_table (small : page < 2 ^ 52) :
    pageRadix.child (pteCreate page (pteU ||| pteV)) = some page := by
  have flags : pteU ||| pteV < 2 ^ 10 := by decide
  exact pteTarget_create small flags

/-- The memory in which a fresh page is linked as a table. -/
def Memory.linked (memory : Memory) (table index page : Nat) : Memory :=
  (({ memory with
    free := memory.free.erase page
    allocs := memory.allocs + 1 }.setPageRef page 1).clearPage page).setEntry table index
    (pteCreate page (pteU ||| pteV))

/-- The fresh page becomes a table. -/
def TableMap.link (tables : TableMap) (page dir : Nat) (place : List Nat) : TableMap :=
  { tables with owner := Function.update tables.owner page (some (dir, place)) }

theorem Memory.linked_entry (small : page < 2 ^ 52) :
    (memory.linked frame index page).entry =
      pageRadix.link memory.entry frame index page (pteCreate page (pteU ||| pteV)) := by
  unfold Memory.linked
  rw [Memory.setEntry_entry (pteCreate_lt small (by decide)), Memory.clearPage_entry]
  rfl

section Linked

variable (paged : Paged memory dirs tables) (here : tables.owner frame = some (dir, place))
  (inner : place.length + 1 < pageRadix.depth) (uses : pageRadix.uses place index)
  (missing : pteTarget (memory.entry frame index) = none) (isFree : page ∈ memory.free)

include paged here inner uses missing isFree

theorem Paged.linked :
    Paged (memory.linked frame index page) dirs (tables.link page dir (place ++ [index])) := by
  obtain ⟨inRange, unowned, unwindowed⟩ := paged.spare page isFree
  have small : page < 2 ^ 52 := lt_of_lt_of_le inRange paged.small
  have entries : (memory.linked frame index page).entry = pageRadix.link memory.entry frame index
      page (pteCreate page (pteU ||| pteV)) := Memory.linked_entry small
  have leads : pageRadix.child (pteCreate page (pteU ||| pteV)) = some page := child_table small
  have apart : page ≠ frame := by
    rintro rfl
    rw [unowned] at here
    cases here
  have old : ∀ other, other ≠ page →
      (tables.link page dir (place ++ [index])).owner other = tables.owner other :=
    fun other notFresh => Function.update_of_ne notFresh _ _
  have new : (tables.link page dir (place ++ [index])).owner page =
      some (dir, place ++ [index]) := Function.update_self _ _ _
  have elsewhere : ∀ other position, other ≠ page → ¬ (other = frame ∧ position = index) →
      (memory.linked frame index page).entry other position = memory.entry other position := by
    intro other position notFresh notHere
    rw [entries]
    exact Radix.link_of_ne notFresh notHere
  constructor
  · rw [entries]
    exact paged.owned.link here inner uses missing unowned leads
  · intro other root
    by_cases isFresh : other = page
    · subst isFresh
      rw [new]
      refine iff_of_false ?_ ?_
      · intro same
        exact List.append_ne_nil_of_right_ne_nil _ (List.cons_ne_nil _ _)
          (Prod.mk.inj (Option.some.inj same)).2
      · rintro ⟨rfl, known⟩
        rw [paged.owner_dir known] at unowned
        cases unowned
    · rw [old other isFresh]
      exact paged.root other root
  · exact paged.small
  · intro other still
    obtain ⟨notFresh, wasFree⟩ := Finset.mem_erase.mp still
    rw [old other notFresh]
    exact paged.spare other wasFree
  · intro other position isOwned
    by_cases isFresh : other = page
    · subst isFresh
      exact ⟨inRange, unwindowed⟩
    · rw [old other isFresh] at isOwned
      exact paged.inside other position isOwned
  · intro other root position slot target isOwned lowest inTable leads
    by_cases isFresh : other = page
    · subst isFresh
      have nowhere : pteTarget 0 = some target := by
        rw [entries, Radix.link_fresh apart] at leads
        exact leads
      rw [pteTarget_zero] at nowhere
      cases nowhere
    · rw [old other isFresh] at isOwned
      have notHere : ¬ (other = frame ∧ slot = index) := by
        rintro ⟨rfl, _⟩
        obtain ⟨_, rfl⟩ := Prod.mk.inj (Option.some.inj (isOwned.symm.trans here))
        rw [lowest] at inner
        exact absurd inner (by decide)
      rw [elsewhere other slot isFresh notHere] at leads
      have data := paged.mapped _ _ _ _ _ isOwned lowest inTable leads
      have notFresh : target ≠ page := by
        rintro rfl
        exact data.used isFree
      exact ⟨data.inRange, (old target notFresh).trans data.unowned, data.unwindowed,
        fun still => data.used (Finset.mem_of_mem_erase still)⟩
  · intro root known slot high inTable below leads
    have notFresh : root ≠ page := by
      rintro rfl
      rw [paged.owner_dir known] at unowned
      cases unowned
    have notHere : ¬ (root = frame ∧ slot = index) := by
      rintro ⟨rfl, rfl⟩
      obtain ⟨rfl, rfl⟩ := Prod.mk.inj (Option.some.inj (here.symm.trans (paged.owner_dir known)))
      have low := uses.2 rfl
      omega
    rw [elsewhere root slot notFresh notHere] at leads
    exact paged.windowTop root known slot high inTable below leads
  · intro other isWindow slot inTable below leads
    have notFresh : other ≠ page := by
      rintro rfl
      exact Option.some_ne_none _ (isWindow.symm.trans unwindowed)
    have notHere : ¬ (other = frame ∧ slot = index) := by
      rintro ⟨rfl, _⟩
      exact Option.some_ne_none _ (isWindow.symm.trans (paged.inside _ _ here).2)
    rw [elsewhere other slot notFresh notHere] at leads
    exact paged.windowNext other isWindow slot inTable below leads

theorem Paged.grown_linked :
    Grown memory (memory.linked frame index page) dirs tables
      (tables.link page dir (place ++ [index])) := by
  obtain ⟨inRange, unowned, unwindowed⟩ := paged.spare page isFree
  have small : page < 2 ^ 52 := lt_of_lt_of_le inRange paged.small
  have entries : (memory.linked frame index page).entry = pageRadix.link memory.entry frame index
      page (pteCreate page (pteU ||| pteV)) := Memory.linked_entry small
  have leads : pageRadix.child (pteCreate page (pteU ||| pteV)) = some page := child_table small
  have apart : page ≠ frame := by
    rintro rfl
    rw [unowned] at here
    cases here
  have upper : ∀ root ∈ dirs, ∀ slot, 2 ≤ slot →
      (memory.linked frame index page).entry root slot = memory.entry root slot := by
    intro root known slot high
    have rootHere := paged.owner_dir known
    rw [entries]
    apply Radix.link_of_ne
    · rintro rfl
      rw [unowned] at rootHere
      cases rootHere
    · rintro ⟨rfl, rfl⟩
      obtain ⟨_, rfl⟩ := Prod.mk.inj (Option.some.inj (here.symm.trans rootHere))
      have low := uses.2 rfl
      omega
  constructor
  · intro root known la
    have rootHere := paged.owner_dir known
    by_cases user : pdx1 la < 2
    · unfold Memory.pteAt
      rw [entries]
      refine paged.owned.lookup_link missing unowned apart leads rootHere (by decide) rfl
        (usesAll_pagePath user) ?_
      intro other isOther
      obtain rfl := Option.some.inj (isOther.symm.trans here)
      exact inner
    · apply paged.pteAt_window known (not_lt.mp user) (upper root known _ (not_lt.mp user))
      · intro other isWindow
        funext slot
        rw [entries]
        apply Radix.link_of_ne
        · rintro rfl
          exact isWindow unwindowed
        · rintro ⟨rfl, _⟩
          exact isWindow (paged.inside _ _ here).2
  · exact upper
  · rfl
  · rfl
  · exact Finset.erase_subset _ _
  · intro other wasFree used
    by_cases isFresh : other = page
    · subst isFresh
      show Function.update tables.owner other (some (dir, place ++ [index])) other ≠ none
      rw [Function.update_self]
      exact nofun
    · exact absurd (Finset.mem_erase.mpr ⟨isFresh, wasFree⟩) used
  · intro other unchanged
    apply Function.update_of_ne
    rintro rfl
    rcases unchanged with used | still
    · exact used isFree
    · exact (Finset.mem_erase.mp still).1 rfl
  · intro other otherUnowned used
    have notFresh : other ≠ page := by
      rintro rfl
      exact used isFree
    have notFrame : other ≠ frame := by
      rintro rfl
      rw [otherUnowned] at here
      cases here
    exact (Function.update_of_ne notFrame _ _).trans (Function.update_of_ne notFresh _ _)
  · intro other otherUnowned
    apply Function.update_of_ne
    rintro rfl
    have isNew : (tables.link other dir (place ++ [index])).owner other =
        some (dir, place ++ [index]) := Function.update_self _ _ _
    rw [isNew] at otherUnowned
    cases otherUnowned

end Linked

/-! ## `get_pte` with `create` -/

section Create

variable (paged : Paged memory dirs tables) (allocator : PageAllocator) (create : Bool)

include paged

/-- Counting a call of the allocator changes nothing. -/
theorem Paged.asked (count : Nat) : Paged { memory with allocs := count } dirs tables :=
  ⟨paged.owned, paged.root, paged.small, paged.spare, paged.inside,
    fun _ _ _ _ _ here lowest inTable leads =>
      have data := paged.mapped _ _ _ _ _ here lowest inTable leads
      ⟨data.inRange, data.unowned, data.unwindowed, data.used⟩,
    paged.windowTop, paged.windowNext⟩

theorem Paged.nextTable (here : tables.owner frame = some (dir, place))
    (inner : place.length + 1 < pageRadix.depth) (uses : pageRadix.uses place index) :
    ∃ below after tables', memory.nextTable allocator create frame index = .ok (below, after) ∧
      Paged after dirs tables' ∧ Grown memory after dirs tables tables' ∧
      ∀ target, below = some target → tables'.owner target = some (dir, place ++ [index]) := by
  unfold Memory.nextTable
  by_cases valid : pteValid (memory.entry frame index)
  · have leads := pteTarget_some.mpr ⟨valid, rfl⟩
    have isBelow := paged.owned.below _ _ _ _ _ here inner uses leads
    have inRange := (paged.inside _ _ isBelow).1
    refine ⟨some (ptePpn (memory.entry frame index)), memory, tables, ?_, paged, .refl, ?_⟩
    · rw [if_pos valid]
      unfold Memory.kaddr
      rw [if_pos inRange]
      rfl
    · intro target isTarget
      rw [← Option.some.inj isTarget]
      exact isBelow
  · rw [if_neg valid]
    cases create with
    | false => exact ⟨none, memory, tables, rfl, paged, .refl, nofun⟩
    | true =>
        unfold Memory.allocPage
        cases picked : allocator.pick memory with
        | none =>
            exact ⟨none, _, tables, rfl, paged.asked _, Grown.asked _, nofun⟩
        | some page =>
            have isFree := allocator.pick_free memory page picked
            have missing := pteTarget_none.mpr valid
            obtain ⟨inRange, _⟩ := paged.spare page isFree
            have small : page < 2 ^ 52 := lt_of_lt_of_le inRange paged.small
            have leads : pteTarget ((memory.linked frame index page).entry frame index) =
                some page := by
              rw [Memory.linked_entry small, Radix.link_self]
              exact child_table small
            have ppn : ptePpn ((memory.linked frame index page).entry frame index) = page :=
              (pteTarget_some.mp leads).2
            refine ⟨some page, memory.linked frame index page,
              tables.link page dir (place ++ [index]), ?_,
              paged.linked here inner uses missing isFree,
              paged.grown_linked here inner uses missing isFree, ?_⟩
            · have first : memory.kaddr page = .ok page := if_pos inRange
              have second : (memory.linked frame index page).kaddr
                  (ptePpn ((memory.linked frame index page).entry frame index)) = .ok page := by
                rw [ppn]
                exact if_pos inRange
              have firstAsked : ({ memory with
                  free := memory.free.erase page
                  allocs := memory.allocs + 1 } : Memory).kaddr page = .ok page := first
              rw [if_neg (by decide)]
              simp only [firstAsked, Except.bind, bind]
              show (do
                let below ← (memory.linked frame index page).kaddr
                  (ptePpn ((memory.linked frame index page).entry frame index))
                pure (some below, memory.linked frame index page)) = Except.ok _
              rw [second]
              rfl
            · intro target isTarget
              rw [← Option.some.inj isTarget]
              exact Function.update_self _ _ _

variable (known : dir ∈ dirs) (user : pdx1 la < 2)

include known user

theorem Paged.getPte : ∃ slot after tables',
    memory.getPte allocator dir la create = .ok (slot, after) ∧
      Paged after dirs tables' ∧ Grown memory after dirs tables tables' ∧
      ∀ pt index, slot = some (pt, index) →
        index = ptx la ∧ tables'.owner pt = some (dir, [pdx1 la, pdx0 la]) := by
  unfold Memory.getPte
  obtain ⟨first, middle, middleTables, firstDone, firstPaged, firstGrown, firstOwner⟩ :=
    paged.nextTable allocator create (paged.owner_dir known) (by decide)
      ⟨pdx1_lt la, fun _ => user⟩
  rw [firstDone]
  cases first with
  | none => exact ⟨none, middle, middleTables, rfl, firstPaged, firstGrown, nofun⟩
  | some pd0 =>
      obtain ⟨second, last, lastTables, secondDone, secondPaged, secondGrown, secondOwner⟩ :=
        firstPaged.nextTable allocator create (firstOwner pd0 rfl) (Nat.lt_succ_self 2)
          ⟨pdx0_lt la, nofun⟩
      simp only [Except.bind, bind]
      rw [secondDone]
      cases second with
      | none =>
          exact ⟨none, last, lastTables, rfl, secondPaged, firstGrown.trans secondGrown, nofun⟩
      | some pt =>
          refine ⟨some (pt, ptx la), last, lastTables, rfl, secondPaged,
            firstGrown.trans secondGrown, ?_⟩
          intro table index isSlot
          obtain ⟨rfl, rfl⟩ := Prod.mk.inj (Option.some.inj isSlot)
          exact ⟨rfl, secondOwner _ rfl⟩

/-- Where the tables are there, `get_pte` makes none. -/
theorem Paged.getPte_owned {pt : Nat} (owner : tables.owner pt = some (dir, [pdx1 la, pdx0 la])) :
    memory.getPte allocator dir la create = .ok (some (pt, ptx la), memory) := by
  have inner : ([] : List Nat).length + [pdx1 la, pdx0 la].length < pageRadix.depth :=
    Nat.lt_succ_self 2
  have uses : pageRadix.UsesAll [] [pdx1 la, pdx0 la] :=
    ⟨⟨pdx1_lt la, fun _ => user⟩, ⟨pdx0_lt la, nofun⟩, trivial⟩
  have path := (paged.owned.walk_iff (paged.owner_dir known) inner uses).mpr owner
  obtain ⟨pd0, first, rest⟩ := Option.bind_eq_some_iff.mp path
  obtain ⟨pt', second, last⟩ := Option.bind_eq_some_iff.mp rest
  obtain rfl := Option.some.inj last
  have firstInside := (paged.inside _ _ (paged.first_table known user first)).1
  have secondInside := (paged.inside _ _ owner).1
  unfold Memory.getPte
  rw [Memory.nextTable_leads first firstInside]
  simp only [bind, Except.bind]
  rw [Memory.nextTable_leads second secondInside]
  rfl

end Create

end UCore.Mm
