import UCore.Mm.FreeListSpec
import UCore.Mm.PmmManager

/-!
Contract: the code of `kern/mm/buddysystem_pmm.c`.

Owns:
- frame numbers and physical addresses of pages (`pmm.h`);
- the free area of each order, splitting, merging and the manager itself;
- that more fuel never changes an answer.

`npage` is the number of the first frame beyond physical memory. The loops over orders run at
most `MAX_ORDER` times and are written as such; the loop of `init_memmap` and the two
recursive functions take fuel.
-/

set_option autoImplicit false

namespace UCore.Mm

open UCore.Lib UCore.Libs

/-- `MAX_ORDER` -/
def maxOrder : Nat := 11

/-- `IS_POWER_OF_2`, whose argument is converted to `int` -/
def isPowerOf2 (num : Nat) : Bool :=
  0 < u32 num && u32 num < 2 ^ 31 && u32 num &&& (u32 num - 1) == 0

/-- `init_free_area` -/
def initFreeArea (pmm : Pmm Nat) (order : Nat) : Pmm Nat :=
  (pmm.setLinks (listInit pmm.links (.freeList order))).setNrFree order 0

/-- `buddy_system_init` -/
def buddySystemInit (pmm : Pmm Nat) : Pmm Nat :=
  (List.range maxOrder).foldl initFreeArea pmm

/-- `list_add(&(free_list(order)), &(base->page_link)); nr_free(order) += 1` -/
def addPage (pmm : Pmm Nat) (order base : Nat) : Pmm Nat :=
  (pmm.setLinks (listAdd pmm.links (.freeList order) (.pageLink base))).setNrFree order
    (u32 (pmm.nrFree order + 1))

/-- `list_del(&(page->page_link)); nr_free(order) -= 1` -/
def removePage (pmm : Pmm Nat) (order page : Nat) : Pmm Nat :=
  (pmm.setLinks (listDel pmm.links (.pageLink page))).setNrFree order
    (pred32 (pmm.nrFree order))

/-- `page->property = size; SetPageProperty(page)` -/
def markPage (pmm : Pmm Nat) (page size : Nat) : Pmm Nat :=
  (pmm.setProperty page size).setPageProperty page

/-- `while (test && order < MAX_ORDER) { order += 1; }`, where `remaining` more orders are
below `MAX_ORDER`. -/
def raiseOrder (test : Nat → Bool) (order : Nat) : Nat → Nat
  | 0 => order
  | remaining + 1 => if test order then raiseOrder test (order + 1) remaining else order

/-- The order of the next block that `init_memmap` cuts off `n` remaining pages. -/
def initOrder (n : Nat) : Nat :=
  let order := raiseOrder (fun order => 1 <<< order ≤ n) 0 maxOrder
  if 0 < order then order - 1 else order

/-- `while (n > 0)` of `buddy_system_init_memmap` -/
def initBlocks (base : Nat) : Nat → Pmm Nat → Nat → Nat → Except Stop (Pmm Nat)
  | 0, _, _, _ => .error .outOfFuel
  | fuel + 1, pmm, offset, n =>
      if 0 < n then
        let order := initOrder n
        let p := base + offset
        let pmm := addPage (markPage pmm p (1 <<< order)) order p
        initBlocks base fuel pmm (offset + 1 <<< order) (n - 1 <<< order)
      else .ok pmm

def buddySystemInitMemmap (fuel : Nat) (pmm : Pmm Nat) (base n : Nat) : Except Stop (Pmm Nat) :=
  if n = 0 then .error .assertFailed
  else do
    let pmm ← clearReserved pmm base n
    initBlocks base fuel pmm 0 n

/-- `split_page` from the removal of `page` on -/
def splitBlock (pmm : Pmm Nat) (order page : Nat) : Pmm Nat :=
  let pmm := (pmm.setLinks (listDel pmm.links (.pageLink page))).setNrFree order
    (pred32 (pmm.nrFree order))
  let size := 1 <<< (order - 1)
  let buddy := page + size
  let pmm := (pmm.setProperty page size).setProperty buddy size
  let pmm := (pmm.setPageProperty page).setPageProperty buddy
  let pmm := pmm.setLinks (listAdd pmm.links (.freeList (order - 1)) (.pageLink page))
  let pmm := pmm.setLinks (listAdd pmm.links (.freeList (order - 1)) (.pageLink buddy))
  pmm.setNrFree (order - 1) (u32 (pmm.nrFree (order - 1) + 2))

def splitPage : Nat → Pmm Nat → Nat → Except Stop (Pmm Nat)
  | 0, _, _ => .error .outOfFuel
  | fuel + 1, pmm, order =>
      if 0 < order ∧ order < maxOrder then do
        let pmm ← if listEmpty pmm.links (.freeList order) then splitPage fuel pmm (order + 1)
          else pure pmm
        if listEmpty pmm.links (.freeList order) then pure pmm
        else
          match listNext pmm.links (.freeList order) with
          | .freeList _ => .error .notAPage
          | .pageLink page => pure (splitBlock pmm order page)
      else .error .assertFailed

/-- `while (current_order > order)` of `buddy_system_alloc_pages`, for `count` orders above -/
def splitDown (fuel order : Nat) : Nat → Pmm Nat → Except Stop (Pmm Nat)
  | 0, pmm => .ok pmm
  | count + 1, pmm => do
      let pmm ← splitPage fuel pmm (order + count + 1)
      splitDown fuel order count pmm

/-- The order that `alloc_pages` rounds `n` up to. -/
def allocOrder (n : Nat) : Nat := raiseOrder (fun order => 1 <<< order < n) 0 maxOrder

/-- The first order from `order` on whose free list is not empty. -/
def currentOrder (pmm : Pmm Nat) (order : Nat) : Nat :=
  raiseOrder (fun current => listEmpty pmm.links (.freeList current)) order (maxOrder - order)

def buddySystemAllocPages (fuel : Nat) (pmm : Pmm Nat) (n : Nat) :
    Except Stop (Option Nat × Pmm Nat) :=
  if n = 0 then .error .assertFailed
  else if 1 <<< (maxOrder - 1) < n then .ok (none, pmm)
  else
    let order := allocOrder n
    if maxOrder ≤ order then .ok (none, pmm)
    else
      let current := currentOrder pmm order
      if current = maxOrder then .ok (none, pmm)
      else do
        let pmm ← splitDown fuel order (current - order) pmm
        match listNext pmm.links (.freeList order) with
        | .freeList _ => .error .notAPage
        | .pageLink page => pure (some page, (removePage pmm order page).clearPageProperty page)

def mergePage (npage : Nat) : Nat → Pmm Nat → Nat → Nat → Except Stop (Pmm Nat)
  | 0, _, _, _ => .error .outOfFuel
  | fuel + 1, pmm, order, base =>
      if maxOrder - 1 ≤ order then .ok (addPage pmm order base)
      else do
        let size := 1 <<< order
        let addr := page2pa base
        let buddyAddr := addr ^^^ (size <<< pgShift)
        let buddy ← pa2page npage buddyAddr
        if pmm.property buddy ≠ size ∨ pmm.pageProperty buddy = false then
          pure (addPage pmm order base)
        else
          let pmm := pmm.setLinks (listDel pmm.links (.pageLink buddy))
          let pmm := pmm.clearPageProperty buddy
          let pmm := pmm.setNrFree order (pred32 (pmm.nrFree order))
          let base := if buddy < base then buddy else base
          let pmm := (pmm.setProperty base (size <<< 1)).clearPageProperty base
          mergePage npage fuel pmm (order + 1) base

/-- `while (temp > 1) { temp >>= 1; order++; }` on a 64-bit `temp` -/
def countShifts : Nat → Nat → Nat → Nat
  | 0, _, order => order
  | bits + 1, temp, order => if 1 < temp then countShifts bits (temp >>> 1) (order + 1) else order

def buddySystemFreePages (npage fuel : Nat) (pmm : Pmm Nat) (base n : Nat) :
    Except Stop (Pmm Nat) :=
  if n = 0 then .error .assertFailed
  else if isPowerOf2 n = false then .error .assertFailed
  else if 1 <<< (maxOrder - 1) < n then .error .assertFailed
  else do
    let pmm ← clearAllocated pmm base n
    mergePage npage fuel (markPage pmm base n) (countShifts 64 n 0) base

def buddySystemNrFreePages (pmm : Pmm Nat) : Nat :=
  (List.range maxOrder).foldl (fun num order => num + u32 (pmm.nrFree order * 1 <<< order)) 0

/-! ## More fuel -/

theorem initBlocks_mono {base fuel fuel' offset n : Nat} {pmm pmm' : Pmm Nat}
    (run : initBlocks base fuel pmm offset n = .ok pmm') (more : fuel ≤ fuel') :
    initBlocks base fuel' pmm offset n = .ok pmm' := by
  induction fuel generalizing fuel' pmm offset n with
  | zero => simp [initBlocks] at run
  | succ fuel inductionHypothesis =>
      obtain ⟨fuel', rfl⟩ : ∃ smaller, fuel' = smaller + 1 := ⟨fuel' - 1, by omega⟩
      unfold initBlocks at run ⊢
      split_ifs at run ⊢ with positive
      · exact inductionHypothesis run (by omega)
      · exact run

theorem buddySystemInitMemmap_mono {fuel fuel' base n : Nat} {pmm pmm' : Pmm Nat}
    (run : buddySystemInitMemmap fuel pmm base n = .ok pmm') (more : fuel ≤ fuel') :
    buddySystemInitMemmap fuel' pmm base n = .ok pmm' := by
  unfold buddySystemInitMemmap at run ⊢
  split_ifs at run ⊢ with zero
  cases cleared : clearReserved pmm base n with
  | error stop =>
      rw [cleared] at run
      cases run
  | ok middle =>
      rw [cleared] at run
      exact initBlocks_mono run more

theorem splitPage_mono {fuel fuel' order : Nat} {pmm pmm' : Pmm Nat}
    (run : splitPage fuel pmm order = .ok pmm') (more : fuel ≤ fuel') :
    splitPage fuel' pmm order = .ok pmm' := by
  induction fuel generalizing fuel' pmm pmm' order with
  | zero => simp [splitPage] at run
  | succ fuel inductionHypothesis =>
      obtain ⟨fuel', rfl⟩ : ∃ smaller, fuel' = smaller + 1 := ⟨fuel' - 1, by omega⟩
      unfold splitPage at run ⊢
      by_cases valid : 0 < order ∧ order < maxOrder
      · rw [if_pos valid] at run ⊢
        by_cases empty : listEmpty pmm.links (.freeList order) = true
        · rw [if_pos empty] at run ⊢
          cases inner : splitPage fuel pmm (order + 1) with
          | error stop =>
              rw [inner] at run
              cases run
          | ok middle =>
              rw [inner] at run
              rw [inductionHypothesis inner (show fuel ≤ fuel' by omega)]
              exact run
        · rw [if_neg empty] at run ⊢
          exact run
      · rw [if_neg valid] at run
        cases run

theorem splitDown_mono {fuel fuel' order count : Nat} {pmm pmm' : Pmm Nat}
    (run : splitDown fuel order count pmm = .ok pmm') (more : fuel ≤ fuel') :
    splitDown fuel' order count pmm = .ok pmm' := by
  induction count generalizing pmm with
  | zero => exact run
  | succ count inductionHypothesis =>
      unfold splitDown at run ⊢
      cases first : splitPage fuel pmm (order + count + 1) with
      | error stop =>
          rw [first] at run
          cases run
      | ok middle =>
          rw [first] at run
          rw [splitPage_mono first more]
          exact inductionHypothesis run

theorem buddySystemAllocPages_mono {fuel fuel' n : Nat} {pmm : Pmm Nat}
    {result : Option Nat × Pmm Nat} (run : buddySystemAllocPages fuel pmm n = .ok result)
    (more : fuel ≤ fuel') : buddySystemAllocPages fuel' pmm n = .ok result := by
  unfold buddySystemAllocPages at run ⊢
  dsimp only at run ⊢
  split_ifs at run ⊢ with zero large high none
  · exact run
  · exact run
  · exact run
  · cases split : splitDown fuel (allocOrder n) (currentOrder pmm (allocOrder n) - allocOrder n) pmm with
    | error stop =>
        rw [split] at run
        cases run
    | ok middle =>
        rw [split] at run
        rw [splitDown_mono split more]
        exact run

theorem mergePage_mono {npage fuel fuel' order base : Nat} {pmm pmm' : Pmm Nat}
    (run : mergePage npage fuel pmm order base = .ok pmm') (more : fuel ≤ fuel') :
    mergePage npage fuel' pmm order base = .ok pmm' := by
  induction fuel generalizing fuel' pmm order base with
  | zero => simp [mergePage] at run
  | succ fuel inductionHypothesis =>
      obtain ⟨fuel', rfl⟩ : ∃ smaller, fuel' = smaller + 1 := ⟨fuel' - 1, by omega⟩
      unfold mergePage at run ⊢
      dsimp only at run ⊢
      by_cases top : maxOrder - 1 ≤ order
      · rw [if_pos top] at run ⊢
        exact run
      · rw [if_neg top] at run ⊢
        cases lookup : pa2page npage (page2pa base ^^^ (1 <<< order) <<< pgShift) with
        | error stop =>
            rw [lookup] at run
            cases run
        | ok buddy =>
            rw [lookup] at run
            simp only [bind, Except.bind] at run ⊢
            split_ifs at run ⊢ with apart
            · exact run
            · exact inductionHypothesis run (by omega)
            · exact inductionHypothesis run (by omega)

theorem buddySystemFreePages_mono {npage fuel fuel' base n : Nat} {pmm pmm' : Pmm Nat}
    (run : buddySystemFreePages npage fuel pmm base n = .ok pmm') (more : fuel ≤ fuel') :
    buddySystemFreePages npage fuel' pmm base n = .ok pmm' := by
  unfold buddySystemFreePages at run ⊢
  split_ifs at run ⊢ with zero power large
  cases cleared : clearAllocated pmm base n with
  | error stop =>
      rw [cleared] at run
      cases run
  | ok middle =>
      rw [cleared] at run
      exact mergePage_mono run more

/-- The manager of a machine whose physical memory ends at frame `npage`. -/
def buddySystemPmmManager (npage : Nat) : PmmManager Nat where
  initMemmap := buddySystemInitMemmap
  allocPages := buddySystemAllocPages
  freePages := buddySystemFreePages npage
  nrFreePages := buddySystemNrFreePages
  initMemmap_mono := buddySystemInitMemmap_mono
  allocPages_mono := buddySystemAllocPages_mono
  freePages_mono := buddySystemFreePages_mono

/-- The size of the block that answers a request for `n` pages. -/
def buddyGranted (n : Nat) : Nat := 1 <<< allocOrder n

end UCore.Mm
