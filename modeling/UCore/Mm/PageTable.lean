import Mathlib.Data.Finset.Basic
import UCore.Lib.Bytes
import UCore.Machine

/-!
Contract: page tables, `kern/mm/mmu.h` and the paging functions of `kern/mm/pmm.c`.

Owns:
- physical memory as the kernel sees it: what each page holds, its reference count and whether it
  is free;
- page table entries, and `get_pte` with the functions that map, unmap, copy and tear down.

A `struct Page` is named by its page number. Which free page `alloc_page` answers, and whether it
answers one at all, is up to the allocator. The kernel reaches memory through its own window, so
that a kernel address is a page number and an offset. Flushing the TLB is left out.

Does not own: the lists of free pages, and virtual memory areas.
-/

set_option autoImplicit false

namespace UCore.Mm

open UCore.Lib

def pgSize : Nat := 4096

def nPteEntry : Nat := 512

def ptSize : Nat := pgSize * nPteEntry

def pdSize : Nat := ptSize * nPteEntry

def userBase : Nat := 0x200000

def userTop : Nat := 0x80000000

def UserAccess (start stop : Nat) : Prop := userBase ≤ start ∧ start < stop ∧ stop ≤ userTop

instance (start stop : Nat) : Decidable (UserAccess start stop) :=
  inferInstanceAs (Decidable (_ ∧ _))

def roundDown (address unit : Nat) : Nat := address - address % unit

def roundUp (address unit : Nat) : Nat := roundDown (address + unit - 1) unit

def pdx1 (la : Nat) : Nat := la / 2 ^ 30 % 512

def pdx0 (la : Nat) : Nat := la / 2 ^ 21 % 512

def ptx (la : Nat) : Nat := la / 2 ^ 12 % 512

/-! ## Entries -/

def pteV : Nat := 0x001

def pteR : Nat := 0x002

def pteW : Nat := 0x004

def pteX : Nat := 0x008

def pteU : Nat := 0x010

def pteUser : Nat := 0x01f

/-- `pte & PTE_V` -/
def pteValid (pte : Nat) : Prop := pte % 2 = 1

instance (pte : Nat) : Decidable (pteValid pte) := inferInstanceAs (Decidable (_ = _))

/-- The page number in `PTE_ADDR(pte)`. -/
def ptePpn (pte : Nat) : Nat := pte / 2 ^ 10 * 2 ^ 12 % 2 ^ 64 / 2 ^ 12

def pteCreate (ppn type : Nat) : Nat := ppn * 2 ^ 10 ||| pteV ||| type

/-! ## Memory -/

/-- `bytes` says what the pages hold, of which the first `pgSize` bytes count; `allocs` counts the
calls of `alloc_page`. -/
structure Memory where
  npage : Nat
  bytes : Nat → Bytes
  ref : Nat → Int
  free : Finset Nat
  allocs : Nat

/-- What `alloc_page` answers: a free page, or `NULL`. -/
structure PageAllocator where
  pick : Memory → Option Nat
  pick_free : ∀ memory page, pick memory = some page → page ∈ memory.free

namespace Memory

variable (memory : Memory)

def entry (table index : Nat) : Nat := (memory.bytes table).number (8 * index) 8

def setBytes (page : Nat) (bytes : Bytes) : Memory :=
  { memory with bytes := Function.update memory.bytes page bytes }

def setEntry (table index value : Nat) : Memory :=
  memory.setBytes table ((memory.bytes table).overlay (8 * index) 8 (Bytes.ofNumber value))

/-- `memset(page2kva(page), 0, PGSIZE)` -/
def clearPage (page : Nat) : Memory :=
  memory.setBytes page Bytes.zeros

/-- `memcpy(page2kva(target), page2kva(source), PGSIZE)` -/
def copyPage (target source : Nat) : Memory :=
  memory.setBytes target (memory.bytes source)

def setPageRef (page : Nat) (ref : Int) : Memory :=
  { memory with ref := Function.update memory.ref page ref }

/-- `KADDR` and `pa2page`, which check the page number -/
def kaddr (ppn : Nat) : Except Stop Nat := if ppn < memory.npage then .ok ppn else .error .panicked

def allocPage (allocator : PageAllocator) : Option Nat × Memory :=
  match allocator.pick memory with
  | none => (none, { memory with allocs := memory.allocs + 1 })
  | some page =>
      (some page, { memory with free := memory.free.erase page, allocs := memory.allocs + 1 })

/-- A page that is free already is the head of a free block or follows one. -/
def freePage (page : Nat) : Except Stop Memory :=
  if page ∈ memory.free then .error .assertFailed
  else
    .ok { memory with
      free := insert page memory.free
      ref := Function.update memory.ref page 0 }

/-- One of the two steps of `get_pte`: the table that an entry leads to, which is made where there
is none and `create` is set. -/
def nextTable (allocator : PageAllocator) (create : Bool) (table index : Nat) :
    Except Stop (Option Nat × Memory) :=
  if pteValid (memory.entry table index) then do
    let below ← memory.kaddr (ptePpn (memory.entry table index))
    pure (some below, memory)
  else if create = false then .ok (none, memory)
  else
    match memory.allocPage allocator with
    | (none, memory) => .ok (none, memory)
    | (some page, memory) => do
        let page ← memory.kaddr page
        let linked := ((memory.setPageRef page 1).clearPage page).setEntry table index
          (pteCreate page (pteU ||| pteV))
        let below ← linked.kaddr (ptePpn (linked.entry table index))
        pure (some below, linked)

/-- The table and the index of the entry of `la`. -/
def getPte (allocator : PageAllocator) (pgdir la : Nat) (create : Bool) :
    Except Stop (Option (Nat × Nat) × Memory) := do
  match ← memory.nextTable allocator create pgdir (pdx1 la) with
  | (none, memory) => pure (none, memory)
  | (some pd0, memory) =>
      match ← memory.nextTable allocator create pd0 (pdx0 la) with
      | (none, memory) => pure (none, memory)
      | (some pt, memory) => pure (some (pt, ptx la), memory)

def getPage (allocator : PageAllocator) (pgdir la : Nat) : Except Stop (Option Nat) := do
  match ← memory.getPte allocator pgdir la false with
  | (none, _) => pure none
  | (some (pt, index), memory) =>
      if pteValid (memory.entry pt index) then do
        let page ← memory.kaddr (ptePpn (memory.entry pt index))
        pure (some page)
      else pure none

def pageRemovePte (pt index : Nat) : Except Stop Memory :=
  if pteValid (memory.entry pt index) then do
    let page ← memory.kaddr (ptePpn (memory.entry pt index))
    let less := memory.setPageRef page (memory.ref page - 1)
    let freed ← if less.ref page = 0 then less.freePage page else pure less
    pure (freed.setEntry pt index 0)
  else .ok memory

/-- `-E_NO_MEM` -/
def noMem : Int := -4

/-- `page_insert` where the entry is there. -/
def mapPage (pt index page perm : Nat) : Except Stop Memory := do
  let more := memory.setPageRef page (memory.ref page + 1)
  let cleared ←
    if pteValid (more.entry pt index) then do
      let old ← more.kaddr (ptePpn (more.entry pt index))
      if old = page then pure (more.setPageRef page (more.ref page - 1))
      else more.pageRemovePte pt index
    else pure more
  pure (cleared.setEntry pt index (pteCreate page (pteV ||| perm)))

def pageInsert (allocator : PageAllocator) (pgdir page la perm : Nat) : Except Stop (Int × Memory) := do
  match ← memory.getPte allocator pgdir la true with
  | (none, memory) => pure (noMem, memory)
  | (some (pt, index), memory) => do
      let mapped ← memory.mapPage pt index page perm
      pure (0, mapped)

def pageRemove (allocator : PageAllocator) (pgdir la : Nat) : Except Stop Memory := do
  match ← memory.getPte allocator pgdir la false with
  | (none, memory) => pure memory
  | (some (pt, index), memory) => memory.pageRemovePte pt index

def pgdirAllocPage (allocator : PageAllocator) (pgdir la perm : Nat) :
    Except Stop (Option Nat × Memory) :=
  match memory.allocPage allocator with
  | (none, memory) => .ok (none, memory)
  | (some page, memory) => do
      let (ret, inserted) ← memory.pageInsert allocator pgdir page la perm
      if ret ≠ 0 then do
        let freed ← inserted.freePage page
        pure (none, freed)
      else if inserted.ref page = 1 then pure (some page, inserted)
      else Except.error .assertFailed

/-! ## Ranges -/

/-- One round of the loop of `unmap_range`, and where the next one starts. -/
def unmapStep (allocator : PageAllocator) (pgdir start : Nat) : Except Stop (Nat × Memory) := do
  match ← memory.getPte allocator pgdir start false with
  | (none, memory) => pure (roundDown (start + ptSize) ptSize, memory)
  | (some (pt, index), memory) => do
      let removed ← if memory.entry pt index ≠ 0 then memory.pageRemovePte pt index else pure memory
      pure (start + pgSize, removed)

def unmapLoop (allocator : PageAllocator) (pgdir stop : Nat) :
    Nat → Memory → Nat → Except Stop Memory
  | 0, _, _ => .error .outOfFuel
  | fuel + 1, memory, start => do
      let (next, removed) ← memory.unmapStep allocator pgdir start
      if next ≠ 0 ∧ next < stop then unmapLoop allocator pgdir stop fuel removed next
      else pure removed

def unmapRange (allocator : PageAllocator) (pgdir start stop : Nat) : Except Stop Memory :=
  if (start % pgSize = 0 ∧ stop % pgSize = 0) ∧ UserAccess start stop then
    unmapLoop allocator pgdir stop ((stop - start) / pgSize) memory start
  else .error .assertFailed

/-- The copy of one page of `copy_range`. -/
def copyMapped (allocator : PageAllocator) (target start pte : Nat) : Except Stop (Option Nat × Memory) := do
  match ← memory.getPte allocator target start true with
  | (none, memory) => pure (none, memory)
  | (some _, memory) => do
      let page ← memory.kaddr (ptePpn pte)
      match memory.allocPage allocator with
      | (none, _) => Except.error .assertFailed
      | (some npage, memory) => do
          let (ret, inserted) ← (memory.copyPage npage page).pageInsert allocator target npage start
            (pte &&& pteUser)
          if ret = 0 then pure (some (start + pgSize), inserted) else Except.error .assertFailed

/-- One round of the loop of `copy_range`, and where the next one starts; none where there is no
memory for a page table. -/
def copyStep (allocator : PageAllocator) (target source start : Nat) :
    Except Stop (Option Nat × Memory) := do
  match ← memory.getPte allocator source start false with
  | (none, memory) => pure (some (roundDown (start + ptSize) ptSize), memory)
  | (some (pt, index), memory) =>
      if pteValid (memory.entry pt index) then
        memory.copyMapped allocator target start (memory.entry pt index)
      else pure (some (start + pgSize), memory)

def copyLoop (allocator : PageAllocator) (target source stop : Nat) :
    Nat → Memory → Nat → Except Stop (Int × Memory)
  | 0, _, _ => .error .outOfFuel
  | fuel + 1, memory, start => do
      match ← memory.copyStep allocator target source start with
      | (none, copied) => pure (noMem, copied)
      | (some next, copied) =>
          if next ≠ 0 ∧ next < stop then copyLoop allocator target source stop fuel copied next
          else pure (0, copied)

def copyRange (allocator : PageAllocator) (target source start stop : Nat) :
    Except Stop (Int × Memory) :=
  if (start % pgSize = 0 ∧ stop % pgSize = 0) ∧ UserAccess start stop then
    copyLoop allocator target source stop ((stop - start) / pgSize) memory start
  else .error .assertFailed

/-- `free_pt` -/
def tableEmpty (pt : Nat) : Prop := ∀ index < nPteEntry, ¬ pteValid (memory.entry pt index)

instance (pt : Nat) : Decidable (memory.tableEmpty pt) :=
  inferInstanceAs (Decidable (∀ index < nPteEntry, ¬ pteValid (memory.entry pt index)))

/-- One round of the inner loop of `exit_range`, with the new `free_pd0`. -/
def exitTable (pd0 d0start : Nat) (freePd0 : Bool) : Except Stop (Bool × Memory) :=
  if pteValid (memory.entry pd0 (pdx0 d0start)) then do
    let pt ← memory.kaddr (ptePpn (memory.entry pd0 (pdx0 d0start)))
    if memory.tableEmpty pt then do
      let freed ← memory.freePage pt
      pure (freePd0, freed.setEntry pd0 (pdx0 d0start) 0)
    else pure (freePd0, memory)
  else .ok (false, memory)

def exitTables (pd0 d1start stop : Nat) : Nat → Memory → Nat → Bool → Except Stop (Bool × Memory)
  | 0, _, _, _ => .error .outOfFuel
  | fuel + 1, memory, d0start, freePd0 => do
      let (freePd0, exited) ← memory.exitTable pd0 d0start freePd0
      let d0start := d0start + ptSize
      if d0start ≠ 0 ∧ d0start < d1start + pdSize ∧ d0start < stop then
        exitTables pd0 d1start stop fuel exited d0start freePd0
      else pure (freePd0, exited)

/-- One round of the outer loop of `exit_range`. -/
def exitDirectory (pgdir d1start d0start stop : Nat) : Except Stop Memory :=
  if pteValid (memory.entry pgdir (pdx1 d1start)) then do
    let pd0 ← memory.kaddr (ptePpn (memory.entry pgdir (pdx1 d1start)))
    let (freePd0, exited) ← exitTables pd0 d1start stop nPteEntry memory d0start true
    if freePd0 = true then do
      let freed ← exited.freePage pd0
      pure (freed.setEntry pgdir (pdx1 d1start) 0)
    else pure exited
  else .ok memory

def exitLoop (pgdir stop : Nat) : Nat → Memory → Nat → Nat → Except Stop Memory
  | 0, _, _, _ => .error .outOfFuel
  | fuel + 1, memory, d1start, d0start => do
      let exited ← memory.exitDirectory pgdir d1start d0start stop
      let d1start := d1start + pdSize
      if d1start ≠ 0 ∧ d1start < stop then exitLoop pgdir stop fuel exited d1start d1start
      else pure exited

def exitRange (pgdir start stop : Nat) : Except Stop Memory :=
  if (start % pgSize = 0 ∧ stop % pgSize = 0) ∧ UserAccess start stop then
    exitLoop pgdir stop nPteEntry memory (roundDown start pdSize) (roundDown start ptSize)
  else .error .assertFailed

/-! ## Directories -/

/-- `setup_pgdir`: the directory that is made. -/
def setupPgdir (allocator : PageAllocator) (bootPgdir : Nat) : Except Stop (Option Nat × Memory) :=
  match memory.allocPage allocator with
  | (none, memory) => .ok (none, memory)
  | (some page, memory) => do
      let pgdir ← memory.kaddr page
      pure (some pgdir, memory.copyPage pgdir bootPgdir)

/-- `put_pgdir` -/
def putPgdir (pgdir : Nat) : Except Stop Memory := memory.freePage pgdir

end Memory

end UCore.Mm
