import Mathlib.Logic.Function.Basic
import UCore.Lib.Extent
import UCore.Lib.Transition
import UCore.Machine
import UCore.Mm.PageTable

/-!
Contract: the allocator of `kern/mm/kmalloc.c`.

Owns:
- `slob_alloc` and `slob_free` on the headers of blocks in memory;
- `kmalloc` and `kfree`, with the list of big blocks;
- the runs of a kernel over them.

Addresses are naturals, and a header is two fields of memory at the address of its block. Blocks
are always allocated with `align` 0, so that the adjustment of addresses is left out, and the list
of big blocks is a list. `alloc_pages` is what it answers: a page for `slob_alloc`, which asks again
only after a page that was too small, and the pages of a big block.

Does not own: the page allocator, and what the owners of blocks keep in them.
-/

set_option autoImplicit false

namespace UCore.Mm

open UCore.Lib

/-! ## Small blocks -/

/-- `sizeof(slob_t)` -/
def slobUnit : Nat := 16

def slobUnits (size : Nat) : Nat := (size + slobUnit - 1) / slobUnit

/-- The headers of blocks, the place where searches start, and the pages that were added. -/
structure Slob where
  units : Nat → Nat
  next : Nat → Nat
  slobfree : Nat
  pages : List Nat

/-- The heap that has only the block `arena`. -/
def Slob.initial (arena : Nat) : Slob where
  units address := if address = arena then 1 else 0
  next _ := arena
  slobfree := arena
  pages := []

/-- The loop of `slob_free`: the block behind which `b` belongs. -/
def slobFreeLoop (slob : Slob) (b : Nat) : Nat → Nat → Except Stop Nat
  | 0, _ => .error .outOfFuel
  | fuel + 1, cur =>
      if b > cur ∧ b < slob.next cur then .ok cur
      else if cur ≥ slob.next cur ∧ (b > cur ∨ b < slob.next cur) then .ok cur
      else slobFreeLoop slob b fuel (slob.next cur)

/-- `slob_free` joins `b` with the block that starts where it ends. -/
def joinNext (slob : Slob) (b cur : Nat) : Slob :=
  if b + slobUnit * slob.units b = slob.next cur then
    { slob with
      units := Function.update slob.units b (slob.units b + slob.units (slob.next cur))
      next := Function.update slob.next b (slob.next (slob.next cur)) }
  else { slob with next := Function.update slob.next b (slob.next cur) }

/-- `slob_free` joins `b` with the block that ends where it starts. -/
def joinPrevious (slob : Slob) (b cur : Nat) : Slob :=
  if cur + slobUnit * slob.units cur = b then
    { slob with
      units := Function.update slob.units cur (slob.units cur + slob.units b)
      next := Function.update slob.next cur (slob.next b) }
  else { slob with next := Function.update slob.next cur b }

def slobFree (fuel : Nat) (slob : Slob) (b size : Nat) : Except Stop Slob :=
  if b = 0 then .ok slob
  else do
    let slob := if size ≠ 0 then
        { slob with units := Function.update slob.units b (slobUnits size) }
      else slob
    let cur ← slobFreeLoop slob b fuel slob.slobfree
    pure { joinPrevious (joinNext slob b cur) b cur with slobfree := cur }

/-- `slob_alloc` takes `units` off the block `cur`, which follows `prev`. -/
def slobTake (slob : Slob) (units prev cur : Nat) : Slob :=
  if slob.units cur = units then
    { slob with
      next := Function.update slob.next prev (slob.next cur)
      slobfree := prev }
  else
    let rest := cur + slobUnit * units
    let next := Function.update slob.next prev rest
    { slob with
      next := Function.update next rest (next cur)
      units := Function.update (Function.update slob.units rest (slob.units cur - units)) cur units
      slobfree := prev }

/-- The loop of `slob_alloc` -/
def slobAllocLoop (size units : Nat) :
    Nat → Slob → Option Nat → Nat → Nat → Except Stop (Option Nat × Slob)
  | 0, _, _, _, _ => .error .outOfFuel
  | fuel + 1, slob, page, prev, cur =>
      if slob.units cur ≥ units then .ok (some cur, slobTake slob units prev cur)
      else if cur = slob.slobfree then
        if size = pgSize then .ok (none, slob)
        else
          match page with
          | none => .ok (none, slob)
          | some page => do
              let slob ← slobFree fuel { slob with pages := page :: slob.pages } page pgSize
              slobAllocLoop size units fuel slob none slob.slobfree (slob.next slob.slobfree)
      else slobAllocLoop size units fuel slob page cur (slob.next cur)

def slobAlloc (fuel : Nat) (slob : Slob) (size : Nat) (page : Option Nat) :
    Except Stop (Option Nat × Slob) :=
  if size + slobUnit < pgSize then
    slobAllocLoop size (slobUnits size) fuel slob page slob.slobfree (slob.next slob.slobfree)
  else .error .assertFailed

/-! ## All blocks -/

structure Bigblock where
  address : Nat
  order : Nat
  pages : Nat
deriving DecidableEq

/-- `sizeof(bigblock_t)` -/
def bigblockSize : Nat := 24

structure Kheap where
  slob : Slob
  bigblocks : List Bigblock

def findOrder (size : Int) : Nat :=
  if 4096 < size then findOrder (size / 2) + 1 else 0
termination_by size.toNat

/-- `__kmalloc`. The order and the pages of a big block stand where a header has its fields. -/
def kmalloc (fuel : Nat) (heap : Kheap) (size : Nat) (page pages : Option Nat) :
    Except Stop (Option Nat × Kheap) :=
  if size < pgSize - slobUnit then do
    let (m, slob) ← slobAlloc fuel heap.slob (size + slobUnit) page
    pure (m.map (· + slobUnit), { heap with slob := slob })
  else do
    let (bb, slob) ← slobAlloc fuel heap.slob bigblockSize page
    match bb with
    | none => pure (none, { heap with slob := slob })
    | some bb =>
        let order := findOrder (int32 size)
        let slob := { slob with units := Function.update slob.units bb order }
        match pages with
        | some pages => pure (some pages, {
            slob := { slob with next := Function.update slob.next bb pages }
            bigblocks := ⟨bb, order, pages⟩ :: heap.bigblocks })
        | none => do
            let slob ← slobFree fuel { slob with next := Function.update slob.next bb 0 } bb bigblockSize
            pure (none, { heap with slob := slob })

def kfree (fuel : Nat) (heap : Kheap) (block : Nat) : Except Stop Kheap :=
  if block = 0 then .ok heap
  else
    let bigblock := if block % pgSize = 0 then
        heap.bigblocks.find? fun bb => bb.pages = block
      else none
    match bigblock with
    | some bb => do
        let slob ← slobFree fuel heap.slob bb.address bigblockSize
        pure { slob := slob, bigblocks := heap.bigblocks.erase bb }
    | none => do
        let slob ← slobFree fuel heap.slob (block - slobUnit) 0
        pure { heap with slob := slob }

/-- The bytes that the owner of a block may use. -/
def Kheap.usable (heap : Kheap) (block : Nat) : Nat :=
  match heap.bigblocks.find? fun bb => bb.pages = block with
  | some bb => pgSize * 2 ^ bb.order
  | none => slobUnit * heap.slob.units (block - slobUnit) - slobUnit

/-! ## Runs -/

/-- The heap, and the small blocks that were handed out and not yet freed. -/
structure KmallocSystem where
  heap : Kheap
  live : List Extent

def KmallocSystem.initial (arena : Nat) : KmallocSystem := ⟨⟨Slob.initial arena, []⟩, []⟩

/-- The pages of a big block. -/
def Bigblock.extent (bb : Bigblock) : Extent := ⟨bb.pages, pgSize * 2 ^ bb.order⟩

/-- `alloc_pages` answers with pages behind the arena that nobody has. -/
def FreshPages (arena : Nat) (heap : Kheap) (order page : Nat) : Prop :=
  page % pgSize = 0 ∧ arena + slobUnit < page ∧
    (∀ other ∈ heap.slob.pages, Extent.Disjoint ⟨page, pgSize * 2 ^ order⟩ ⟨other, pgSize⟩) ∧
    ∀ bb ∈ heap.bigblocks, Extent.Disjoint ⟨page, pgSize * 2 ^ order⟩ bb.extent

instance {arena order page : Nat} {heap : Kheap} : Decidable (FreshPages arena heap order page) :=
  inferInstanceAs (Decidable (_ ∧ _ ∧ _ ∧ _))

/-- What `alloc_pages` may answer to one call of `kmalloc`. -/
def Answers (arena : Nat) (heap : Kheap) (size : Nat) (page pages : Option Nat) : Prop :=
  (∀ page' ∈ page, FreshPages arena heap 0 page') ∧
    (∀ pages' ∈ pages, FreshPages arena heap (findOrder (int32 size)) pages') ∧
    ∀ page' ∈ page, ∀ pages' ∈ pages,
      Extent.Disjoint ⟨page', pgSize⟩ ⟨pages', pgSize * 2 ^ findOrder (int32 size)⟩

inductive KmallocRequest
  | kmalloc (size : Nat) (page pages : Option Nat)
  | kfree (block : Nat)
  /-- The owner of a block writes to it. -/
  | write (address units next : Nat)

/-- The block starts behind a header. -/
def smallBlock (m : Nat) : Nat := m + slobUnit

/-- Requests for one byte or more, and blocks that were handed out. -/
def KmallocSystem.Admits (arena : Nat) (system : KmallocSystem) : KmallocRequest → Prop
  | .kmalloc size page pages => 0 < size ∧ size < 2 ^ 64 ∧ Answers arena system.heap size page pages
  | .kfree block => (∃ extent ∈ system.live, block = smallBlock extent.base) ∨
      ∃ bb ∈ system.heap.bigblocks, block = bb.pages
  | .write address _ _ => ∃ extent ∈ system.live,
      extent.base + slobUnit ≤ address ∧ address < extent.base + extent.size

/-- The small blocks behind a call of `kmalloc`. -/
def KmallocSystem.handOut (system : KmallocSystem) (size : Nat) (block : Option Nat) (heap : Kheap) :
    KmallocSystem :=
  match block with
  | some block =>
      if size < pgSize - slobUnit then
        ⟨heap, ⟨block - slobUnit, slobUnit * heap.slob.units (block - slobUnit)⟩ :: system.live⟩
      else ⟨heap, system.live⟩
  | none => ⟨heap, system.live⟩

/-- One request. -/
inductive KmallocStep (arena : Nat) : KmallocSystem → KmallocRequest → KmallocSystem → Prop
  | kmalloc {system : KmallocSystem} {size : Nat} {page pages block : Option Nat} {heap : Kheap}
      (admitted : system.Admits arena (.kmalloc size page pages))
      (returns : Returns (fun fuel => Mm.kmalloc fuel system.heap size page pages) (block, heap)) :
      KmallocStep arena system (.kmalloc size page pages) (system.handOut size block heap)
  | kfree {system : KmallocSystem} {block : Nat} {heap : Kheap}
      (admitted : system.Admits arena (.kfree block))
      (returns : Returns (fun fuel => Mm.kfree fuel system.heap block) heap) :
      KmallocStep arena system (.kfree block)
        ⟨heap, system.live.filter fun extent => smallBlock extent.base ≠ block⟩
  | write {system : KmallocSystem} {address units next : Nat}
      (admitted : system.Admits arena (.write address units next)) :
      KmallocStep arena system (.write address units next)
        { system with heap := { system.heap with slob := { system.heap.slob with
          units := Function.update system.heap.slob.units address units
          next := Function.update system.heap.slob.next address next } } }

end UCore.Mm
