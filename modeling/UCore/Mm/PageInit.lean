import UCore.Mm.FirstFit
import UCore.Mm.Vma

/-!
Contract: `page_init` of `kern/mm/pmm.c`.

Owns:
- the conversions between physical and kernel addresses;
- `page_init`, as its two halves: up to the end of the loop that marks the descriptors, and the
  hand-over of the memory above them;
- what each half does, and when it panics.

The descriptors are the raw memory above the kernel image, so they hold anything at first. Addresses
have 64 bits.

Does not own: the page table of the kernel.
-/

set_option autoImplicit false

namespace UCore.Mm

open UCore.Lib UCore.Libs

/-! ## Addresses -/

def dramBase : Nat := 0x80000000

/-- `PHYSICAL_MEMORY_OFFSET`, the value of `va_pa_offset` -/
def physicalMemoryOffset : Nat := 0xFFFFFFFF40000000

/-- `sizeof(struct Page)`: the fields of 4, 8, 4, 16, 16 and 8 bytes, each at a multiple of 8. -/
def sizeofPage : Nat := 64

/-- `PADDR` -/
def paddr (kva : Nat) : Except Stop Nat :=
  if kva < kernBase then .error .panicked else .ok (kva - physicalMemoryOffset)

/-- `KADDR` -/
def kaddr (npage pa : Nat) : Except Stop Nat :=
  if ppn pa ≥ npage then .error .panicked else .ok ((pa + physicalMemoryOffset) % 2 ^ 64)

def page2kva (npage page : Nat) : Except Stop Nat := kaddr npage (page2pa page)

theorem ppn_eq (pa : Nat) : ppn pa = pa / pgSize := Nat.shiftRight_eq_div_pow pa pgShift

theorem page2pa_eq (page : Nat) : page2pa page = (page + nbase) * pgSize :=
  Nat.shiftLeft_eq (page + nbase) pgShift

/-! ## The program -/

/-- `default_init` -/
def defaultInit (pmm : Pmm Unit) : Pmm Unit :=
  (pmm.setLinks (listInit pmm.links freeList)).setNrFree () 0

/-- `SetPageReserved(page)` -/
def Pmm.setPageReserved (pmm : Pmm Unit) (page : Nat) : Pmm Unit :=
  pmm.modifyPage page fun descriptor =>
    { descriptor with flags := { descriptor.flags with pgReserved := true } }

/-- The globals `npage` and `pages`. -/
structure PageArray where
  npage : Nat
  pages : Nat
deriving DecidableEq, Repr

/-- `npage - nbase` -/
def PageArray.count (array : PageArray) : Nat := (array.npage + 2 ^ 64 - nbase) % 2 ^ 64

/-- `mem_end` -/
def memoryEnd (memBegin memSize : Nat) : Nat := (memBegin + memSize) % 2 ^ 64

/-- The array for the memory, above a kernel image that ends at `kernelEnd`. -/
def pageArray (memBegin memSize kernelEnd : Nat) : PageArray :=
  let maxpa := memoryEnd memBegin memSize
  let maxpa := if maxpa > kernTop then kernTop else maxpa
  ⟨maxpa / pgSize, roundUp64 kernelEnd pgSize⟩

/-- The loop that marks `rounds` descriptors from `i` on. -/
def markReserved (pmm : Pmm Unit) (i : Nat) : Nat → Pmm Unit
  | 0 => pmm
  | rounds + 1 => markReserved (pmm.setPageReserved i) (i + 1) rounds

/-- `page_init` up to the end of the loop. -/
def pageInitMark (memBegin memSize kernelEnd : Nat) (pmm : Pmm Unit) :
    Except Stop (PageArray × Pmm Unit) :=
  if memSize = 0 then .error .panicked
  else
    let array := pageArray memBegin memSize kernelEnd
    .ok (array, markReserved pmm 0 array.count)

/-- `freemem` -/
def freeMemory (array : PageArray) : Except Stop Nat :=
  paddr ((array.pages + sizeofPage * array.count) % 2 ^ 64)

/-- `page_init` after the loop, with the descriptors that it gives to `init_memmap`. -/
def pageInitFree (fuel memBegin memSize : Nat) (array : PageArray) (pmm : Pmm Unit) :
    Except Stop (Option Extent × Pmm Unit) := do
  let freemem ← freeMemory array
  let memBegin' := roundUp64 freemem pgSize
  let memEnd := roundDown (memoryEnd memBegin memSize) pgSize
  if freemem < memEnd then
    let base ← pa2page array.npage memBegin'
    let pmm ← defaultInitMemmap fuel pmm base ((memEnd - memBegin') / pgSize)
    pure (some ⟨base, (memEnd - memBegin') / pgSize⟩, pmm)
  else pure (none, pmm)

/-! ## The marks -/

theorem markReserved_pages (pmm : Pmm Unit) (i rounds page : Nat) :
    (markReserved pmm i rounds).pages page =
      if i ≤ page ∧ page < i + rounds then
        { pmm.pages page with flags := { (pmm.pages page).flags with pgReserved := true } }
      else pmm.pages page := by
  induction rounds generalizing pmm i with
  | zero => rw [markReserved, if_neg (by omega)]
  | succ rounds inductionHypothesis =>
      rw [markReserved, inductionHypothesis]
      by_cases here : page = i
      · subst here
        rw [if_neg (by omega), if_pos (by omega)]
        exact Function.update_self ..
      · have same : (pmm.setPageReserved i).pages page = pmm.pages page :=
          Function.update_of_ne here ..
        rw [same]
        exact if_congr (by omega) rfl rfl

theorem markReserved_links (pmm : Pmm Unit) (i rounds : Nat) :
    (markReserved pmm i rounds).links = pmm.links := by
  induction rounds generalizing pmm i with
  | zero => rfl
  | succ rounds inductionHypothesis => exact inductionHypothesis _ _

/-! ## The hand-over -/

/-- A range goes into an empty free list if all its pages are reserved. -/
theorem initMemmap_empty {pmm : Pmm Unit} {base n : Nat} (empty : listEmpty pmm.links freeList = true)
    (positive : 0 < n) (reserved : ∀ page ∈ (⟨base, n⟩ : Extent), pmm.pageReserved page = true) :
    ∃ result, Returns (fun fuel => defaultInitMemmap fuel pmm base n) result := by
  obtain ⟨cleared, clearing, links, _, _⟩ := clearReserved_ok pmm base n reserved
  have still : listEmpty (markBlock cleared base n).links freeList = true := by
    rw [← links] at empty
    exact empty
  refine ⟨(markBlock cleared base n).setLinks
    (listAdd (markBlock cleared base n).links freeList (.pageLink base)), 0, fun fuel _ => ?_⟩
  show Mm.initMemmap fuel pmm base n = .ok _
  rw [Mm.initMemmap, if_neg (Nat.ne_of_gt positive), clearing]
  exact if_pos still

/-! ## The array and the memory above it -/

/-- Where the array ends in physical memory. -/
def arrayEnd (memSize kernelEnd : Nat) : Nat :=
  roundUp kernelEnd pgSize - physicalMemoryOffset +
    sizeofPage * ((pageArray dramBase memSize kernelEnd).npage - nbase)

/-- The first page above the array. -/
def firstAddress (memSize kernelEnd : Nat) : Nat := roundUp (arrayEnd memSize kernelEnd) pgSize

/-- The end of the last whole page of the memory. -/
def topAddress (memSize : Nat) : Nat := roundDown (memoryEnd dramBase memSize) pgSize

theorem npage_high (memSize kernelEnd : Nat) :
    (pageArray dramBase memSize kernelEnd).npage < 2 ^ 52 := by
  unfold pageArray kernTop kernBase kmemSize pgSize
  simp only
  split_ifs with beyond
  · decide
  · omega

theorem roundUp64_pgSize (address : Nat) :
    roundUp64 address pgSize = roundUp address pgSize % 2 ^ 64 := by
  unfold roundUp64 roundUp roundDown pgSize
  omega

theorem roundUp_bounds (address : Nat) :
    address ≤ roundUp address pgSize ∧ roundUp address pgSize < address + pgSize ∧
      roundUp address pgSize % pgSize = 0 := by
  unfold roundUp roundDown pgSize
  omega

section

variable {memSize kernelEnd : Nat} (low : kernBase ≤ kernelEnd) (high : kernelEnd < 2 ^ 64)
  (fits : arrayEnd memSize kernelEnd ≤ memoryEnd dramBase memSize)

include low fits

theorem npage_low : nbase ≤ (pageArray dramBase memSize kernelEnd).npage := by
  have above : kernBase - physicalMemoryOffset ≤ memoryEnd dramBase memSize := by
    refine Nat.le_trans ?_ fits
    unfold arrayEnd roundUp roundDown pgSize
    omega
  unfold kernBase physicalMemoryOffset at above
  unfold pageArray nbase kernTop kernBase kmemSize pgSize
  simp only
  split_ifs <;> omega

theorem array_count : (pageArray dramBase memSize kernelEnd).count =
    (pageArray dramBase memSize kernelEnd).npage - nbase := by
  have lowPages := npage_low low fits
  have highPages := npage_high memSize kernelEnd
  unfold PageArray.count
  unfold nbase at lowPages ⊢
  omega

/-- The array ends at a kernel address, except that addresses wrap around. -/
theorem freeMemory_eq : freeMemory (pageArray dramBase memSize kernelEnd) =
    paddr ((arrayEnd memSize kernelEnd + physicalMemoryOffset) % 2 ^ 64) := by
  have above := (roundUp_bounds kernelEnd).1
  have same : (pageArray dramBase memSize kernelEnd).pages = roundUp kernelEnd pgSize % 2 ^ 64 :=
    roundUp64_pgSize kernelEnd
  have sum : (roundUp kernelEnd pgSize % 2 ^ 64 +
      sizeofPage * ((pageArray dramBase memSize kernelEnd).npage - nbase)) % 2 ^ 64 =
      (arrayEnd memSize kernelEnd + physicalMemoryOffset) % 2 ^ 64 := by
    unfold arrayEnd
    unfold kernBase at low
    unfold physicalMemoryOffset
    omega
  rw [← sum, freeMemory, same, array_count low fits]

theorem freeMemory_ok (inside : arrayEnd memSize kernelEnd + physicalMemoryOffset < 2 ^ 64) :
    freeMemory (pageArray dramBase memSize kernelEnd) = .ok (arrayEnd memSize kernelEnd) := by
  have above := (roundUp_bounds kernelEnd).1
  rw [freeMemory_eq low fits, Nat.mod_eq_of_lt inside]
  have address : ¬ arrayEnd memSize kernelEnd + physicalMemoryOffset < kernBase := by
    unfold arrayEnd
    omega
  rw [paddr, if_neg address, Nat.add_sub_cancel]

include high

theorem freeMemory_panics (beyond : 2 ^ 64 ≤ arrayEnd memSize kernelEnd + physicalMemoryOffset) :
    freeMemory (pageArray dramBase memSize kernelEnd) = .error .panicked := by
  have near := (roundUp_bounds kernelEnd).2.1
  have pages := npage_high memSize kernelEnd
  rw [freeMemory_eq low fits]
  have wrapped : (arrayEnd memSize kernelEnd + physicalMemoryOffset) % 2 ^ 64 < kernBase := by
    unfold arrayEnd sizeofPage at beyond ⊢
    unfold kernBase at low ⊢
    unfold pgSize at near beyond ⊢
    unfold physicalMemoryOffset at beyond ⊢
    omega
  exact if_pos wrapped

end

/-! ## What is handed over -/

/-- The descriptors of the pages from the first page above the array to the end of the memory. -/
def handedOver (memSize kernelEnd : Nat) : Extent :=
  ⟨firstAddress memSize kernelEnd / pgSize - nbase,
    (topAddress memSize - firstAddress memSize kernelEnd) / pgSize⟩

theorem firstAddress_eq {memSize kernelEnd : Nat}
    (inside : arrayEnd memSize kernelEnd + physicalMemoryOffset < 2 ^ 64) :
    roundUp64 (arrayEnd memSize kernelEnd) pgSize = firstAddress memSize kernelEnd := by
  rw [roundUp64_pgSize]
  have near := (roundUp_bounds (arrayEnd memSize kernelEnd)).2.1
  refine Nat.mod_eq_of_lt (Nat.lt_trans near ?_)
  unfold physicalMemoryOffset at inside
  unfold pgSize
  omega

/-- An array that ends at a kernel address is not for more memory than there is. -/
theorem npage_eq {memSize kernelEnd : Nat} (low : kernBase ≤ kernelEnd)
    (inside : arrayEnd memSize kernelEnd + physicalMemoryOffset < 2 ^ 64) :
    (pageArray dramBase memSize kernelEnd).npage = topAddress memSize / pgSize ∧
    (pageArray dramBase memSize kernelEnd).npage < nbase + 2 ^ 24 := by
  have above := (roundUp_bounds kernelEnd).1
  have size : sizeofPage * ((pageArray dramBase memSize kernelEnd).npage - nbase) +
      (kernBase - physicalMemoryOffset) ≤ arrayEnd memSize kernelEnd := by
    unfold arrayEnd
    omega
  have pages : (pageArray dramBase memSize kernelEnd).npage < nbase + 2 ^ 24 := by
    unfold sizeofPage kernBase at size
    unfold physicalMemoryOffset at size inside
    omega
  refine ⟨?_, pages⟩
  unfold pageArray at pages ⊢
  simp only at pages ⊢
  split_ifs at pages ⊢
  · exact absurd pages (by decide)
  · unfold topAddress roundDown pgSize
    omega

theorem pageInitFree_eq (fuel memSize : Nat) (array : PageArray) (pmm : Pmm Unit) :
    pageInitFree fuel dramBase memSize array pmm = (freeMemory array).bind fun freemem =>
      if freemem < topAddress memSize then
        (pa2page array.npage (roundUp64 freemem pgSize)).bind fun base =>
          (defaultInitMemmap fuel pmm base
            ((topAddress memSize - roundUp64 freemem pgSize) / pgSize)).bind fun final =>
              .ok (some ⟨base, (topAddress memSize - roundUp64 freemem pgSize) / pgSize⟩, final)
      else .ok (none, pmm) := rfl

section

variable {memSize kernelEnd fuel : Nat} {pmm : Pmm Unit} (low : kernBase ≤ kernelEnd)
  (high : kernelEnd < 2 ^ 64) (fits : arrayEnd memSize kernelEnd ≤ memoryEnd dramBase memSize)

include low fits

include high in
theorem pageInitFree_beyond
    (beyond : 2 ^ 64 ≤ arrayEnd memSize kernelEnd + physicalMemoryOffset) :
    pageInitFree fuel dramBase memSize (pageArray dramBase memSize kernelEnd) pmm =
      .error .panicked := by
  rw [pageInitFree_eq, freeMemory_panics low high fits beyond, error_bind]

variable (inside : arrayEnd memSize kernelEnd + physicalMemoryOffset < 2 ^ 64)

include inside

theorem pageInitFree_none (full : topAddress memSize ≤ arrayEnd memSize kernelEnd) :
    pageInitFree fuel dramBase memSize (pageArray dramBase memSize kernelEnd) pmm =
      .ok (none, pmm) := by
  rw [pageInitFree_eq, freeMemory_ok low fits inside, ok_bind, if_neg (Nat.not_lt.mpr full)]

/-- Where the array ends in the last page, there is no page for the address above it. -/
theorem pageInitFree_last (room : arrayEnd memSize kernelEnd < topAddress memSize)
    (none : topAddress memSize ≤ firstAddress memSize kernelEnd) :
    pageInitFree fuel dramBase memSize (pageArray dramBase memSize kernelEnd) pmm =
      .error .panicked := by
  have noPage : pa2page (pageArray dramBase memSize kernelEnd).npage
      (firstAddress memSize kernelEnd) = .error .panicked := by
    refine if_pos ?_
    rw [(npage_eq low inside).1, ppn_eq]
    exact Nat.div_le_div_right none
  rw [pageInitFree_eq, freeMemory_ok low fits inside, ok_bind, if_pos room,
    firstAddress_eq inside, noPage, error_bind]

theorem pageInitFree_some (room : firstAddress memSize kernelEnd < topAddress memSize) :
    pageInitFree fuel dramBase memSize (pageArray dramBase memSize kernelEnd) pmm =
      (defaultInitMemmap fuel pmm (handedOver memSize kernelEnd).base
        (handedOver memSize kernelEnd).size).bind
          fun final => .ok (some (handedOver memSize kernelEnd), final) := by
  have aligned : topAddress memSize % pgSize = 0 ∧ firstAddress memSize kernelEnd % pgSize = 0 := by
    refine ⟨?_, (roundUp_bounds _).2.2⟩
    unfold topAddress roundDown pgSize
    omega
  have page : pa2page (pageArray dramBase memSize kernelEnd).npage
      (firstAddress memSize kernelEnd) = .ok (handedOver memSize kernelEnd).base := by
    have below : ¬ (pageArray dramBase memSize kernelEnd).npage ≤
        ppn (firstAddress memSize kernelEnd) := by
      rw [(npage_eq low inside).1, ppn_eq]
      unfold pgSize at aligned ⊢
      omega
    rw [pa2page, if_neg below, ppn_eq]
    rfl
  have above := (roundUp_bounds (arrayEnd memSize kernelEnd)).1
  rw [pageInitFree_eq, freeMemory_ok low fits inside, ok_bind,
    if_pos (Nat.lt_of_le_of_lt above room), firstAddress_eq inside, page, ok_bind]
  rfl

end

end UCore.Mm
