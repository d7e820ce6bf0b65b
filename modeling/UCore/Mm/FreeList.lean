import UCore.Mm.PmmManager

/-!
Contract: the code that `default_pmm.c` and `best_fit_pmm.c` share.

Owns:
- the loops over the pages of a block, the address-ordered insertion loop, the removal of an
  allocated block, and the two merges;
- `init_memmap` and `free_pages`, which are the same in both managers.

Does not own: the search of `alloc_pages`, in which the managers differ, and any proof.
-/

set_option autoImplicit false

namespace UCore.Mm

open UCore.Lib UCore.Libs

/-- `&free_list` -/
abbrev freeList : ListEntry Unit := .freeList ()

/-- `for (; p != base + n; p ++)` of `init_memmap`: each page is reserved and gets cleared. -/
def clearReserved {ι : Type} (pmm : Pmm ι) (p : Nat) : Nat → Except Stop (Pmm ι)
  | 0 => .ok pmm
  | count + 1 =>
      if pmm.pageReserved p then
        clearReserved (pmm.modifyPage p fun _ => ⟨0, .clear, 0⟩) (p + 1) count
      else .error .assertFailed

/-- `for (; p != base + n; p ++)` of `free_pages`: each page is allocated and gets cleared. -/
def clearAllocated {ι : Type} (pmm : Pmm ι) (p : Nat) : Nat → Except Stop (Pmm ι)
  | 0 => .ok pmm
  | count + 1 =>
      if !pmm.pageReserved p && !pmm.pageProperty p then
        clearAllocated (pmm.modifyPage p fun page => { page with ref := 0, flags := .clear })
          (p + 1) count
      else .error .assertFailed

/-- `while ((le = list_next(le)) != &free_list)` of the insertion. The tail case has no
`break`: the loop goes on from the entry it has just inserted after. -/
def insertLoop (base : Nat) :
    Nat → Links (ListEntry Unit) → ListEntry Unit → Except Stop (Links (ListEntry Unit))
  | 0, _, _ => .error .outOfFuel
  | fuel + 1, links, le =>
      match listNext links le with
      | .freeList _ => .ok links
      | .pageLink page =>
          let le := .pageLink page
          if base < page then
            .ok (listAddBefore links le (.pageLink base))
          else if listNext links le = freeList then
            insertLoop base fuel (listAdd links le (.pageLink base)) le
          else
            insertLoop base fuel links le

/-- The insertion of a block head into the free list. -/
def insertBlock (fuel : Nat) (pmm : Pmm Unit) (base : Nat) : Except Stop (Pmm Unit) :=
  if listEmpty pmm.links freeList then
    .ok (pmm.setLinks (listAdd pmm.links freeList (.pageLink base)))
  else do
    let links ← insertLoop base fuel pmm.links freeList
    pure (pmm.setLinks links)

/-- `base->property = n; SetPageProperty(base); nr_free += n` -/
def markBlock (pmm : Pmm Unit) (base n : Nat) : Pmm Unit :=
  ((pmm.setProperty base n).setPageProperty base).setNrFree () (u32 (pmm.nrFree () + n))

/-- `default_init_memmap` and `best_fit_init_memmap` -/
def initMemmap (fuel : Nat) (pmm : Pmm Unit) (base n : Nat) : Except Stop (Pmm Unit) :=
  if n = 0 then .error .assertFailed
  else do
    let pmm ← clearReserved pmm base n
    insertBlock fuel (markBlock pmm base n) base

/-- The part of `alloc_pages` after the search, for the block `page` it chose. -/
def takeBlock (pmm : Pmm Unit) (page n : Nat) : Pmm Unit :=
  let prev := listPrev pmm.links (.pageLink page)
  let pmm := pmm.setLinks (listDel pmm.links (.pageLink page))
  let pmm :=
    if n < pmm.property page then
      let p := page + n
      let pmm := (pmm.setProperty p (pmm.property page - n)).setPageProperty p
      pmm.setLinks (listAdd pmm.links prev (.pageLink p))
    else pmm
  (pmm.setNrFree () (pmm.nrFree () - n)).clearPageProperty page

/-- The merge with the previous block: the new state and the new `base`. -/
def mergePrevious (pmm : Pmm Unit) (base : Nat) : Pmm Unit × Nat :=
  match listPrev pmm.links (.pageLink base) with
  | .freeList _ => (pmm, base)
  | .pageLink p =>
      if p + pmm.property p = base then
        let pmm := pmm.setProperty p (pmm.property p + pmm.property base)
        let pmm := pmm.clearPageProperty base
        (pmm.setLinks (listDel pmm.links (.pageLink base)), p)
      else (pmm, base)

/-- The merge with the next block. -/
def mergeNext (pmm : Pmm Unit) (base : Nat) : Pmm Unit :=
  match listNext pmm.links (.pageLink base) with
  | .freeList _ => pmm
  | .pageLink p =>
      if base + pmm.property base = p then
        let pmm := pmm.setProperty base (pmm.property base + pmm.property p)
        let pmm := pmm.clearPageProperty p
        pmm.setLinks (listDel pmm.links (.pageLink p))
      else pmm

/-- `default_free_pages` and `best_fit_free_pages` -/
def freePages (fuel : Nat) (pmm : Pmm Unit) (base n : Nat) : Except Stop (Pmm Unit) :=
  if n = 0 then .error .assertFailed
  else do
    let pmm ← clearAllocated pmm base n
    let pmm ← insertBlock fuel (markBlock pmm base n) base
    let (pmm, base) := mergePrevious pmm base
    pure (mergeNext pmm base)

end UCore.Mm
