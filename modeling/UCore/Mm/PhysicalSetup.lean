import Mathlib.Order.Interval.Finset.Nat
import UCore.Mm.KernelTable

/-!
Contract: when `page_init` of `kern/mm/pmm.c` sets physical memory up as it is to.

Owns:
- what is to hold of the marks, of the range that goes to `init_memmap` and of each page of it;
- the exact condition on the size of the memory and on the end of the kernel image.

`maxpa` is a physical address, but it is compared with the virtual `KERNTOP`. So memory behind the
window of the kernel is handed out as well. An array that ends inside the last page is taken for one
with a page above it.

Does not own: the allocation of the pages.
-/

set_option autoImplicit false

namespace UCore.Mm

open UCore.Lib UCore.Libs

/-! ## What is to hold -/

def Page.reserve (page : Page) : Page :=
  { page with flags := { page.flags with pgReserved := true } }

/-- A page of the range lies in the memory, above the kernel image and the array, and has its
descriptor in the array. The table that the switch builds while the pages of the range are free maps
the kernel address of the page to it. -/
structure PageSound (memSize kernelEnd : Nat) (array : PageArray) (range : Extent) (page : Nat) :
    Prop where
  inMemory : dramBase ≤ page2pa page ∧ page2pa page + pgSize ≤ dramBase + memSize
  aboveImage : kernelEnd - physicalMemoryOffset ≤ page2pa page
  aboveArray : array.pages - physicalMemoryOffset + sizeofPage * (array.npage - nbase) ≤ page2pa page
  hasDescriptor : page < array.npage - nbase
  mapped : ∃ va, page2kva array.npage page = .ok va ∧
    ∀ (memory : Memory) (allocator : PageAllocator) (etext pgdir : Nat) (final : Memory),
      memory.npage = array.npage →
      memory.free = Finset.Ico (range.base + nbase) (range.base + nbase + range.size) →
      kernBase ≤ etext → etext ≤ kernelEnd →
      memory.switchKernelMemorylayout allocator etext = .ok (pgdir, final) →
      pteTarget (final.pteAt pgdir va) = some (page + nbase)

/-- `page_init` marks the descriptors of the array and no others, and returns. The range that it
gives to `init_memmap`, if any, is not empty, and its pages are sound. -/
def SetupSound (memSize kernelEnd : Nat) (pmm : Pmm Unit) : Prop :=
  ∃ array marked range final,
    pageInitMark dramBase memSize kernelEnd pmm = .ok (array, marked) ∧
    (∀ page, marked.pages page =
      if page < array.npage - nbase then (pmm.pages page).reserve else pmm.pages page) ∧
    Returns (fun fuel => pageInitFree fuel dramBase memSize array marked) (range, final) ∧
    ∀ extent, range = some extent →
      0 < extent.size ∧ ∀ page ∈ extent, PageSound memSize kernelEnd array extent page

/-- The number of pages that the directory and the tables of the window take. -/
def windowTables : Nat := 2 + kmemSize / ptSize

/-- The array ends at a kernel address. Either no whole page is left above its end, or there is one
above the page in which it ends, and the memory ends inside the window, unless there are fewer pages
than the tables of the window take. -/
def SetupFits (memSize kernelEnd : Nat) : Prop :=
  arrayEnd memSize kernelEnd + physicalMemoryOffset < 2 ^ 64 ∧
  (topAddress memSize ≤ arrayEnd memSize kernelEnd ∨
    firstAddress memSize kernelEnd < topAddress memSize ∧
      (topAddress memSize ≤ kernTop - physicalMemoryOffset ∨
        (topAddress memSize - firstAddress memSize kernelEnd) / pgSize < windowTables))

instance (memSize kernelEnd : Nat) : Decidable (SetupFits memSize kernelEnd) :=
  inferInstanceAs (Decidable (_ ∧ _))

theorem card_windowTables : windowPlaces.card = windowTables := card_windowPlaces

/-! ## The pages of the range -/

/-- The addresses of the image and of the array are below the range. -/
theorem image_below {memSize kernelEnd : Nat}
    (inside : arrayEnd memSize kernelEnd + physicalMemoryOffset < 2 ^ 64) :
    roundUp kernelEnd pgSize < 2 ^ 64 ∧
    roundUp kernelEnd pgSize ≤ firstAddress memSize kernelEnd + physicalMemoryOffset := by
  have image := (roundUp_bounds kernelEnd).1
  have array := (roundUp_bounds (arrayEnd memSize kernelEnd)).1
  have ends : roundUp kernelEnd pgSize ≤ arrayEnd memSize kernelEnd + physicalMemoryOffset := by
    unfold arrayEnd
    omega
  unfold firstAddress
  omega

section

variable {memSize kernelEnd page : Nat} (low : kernBase ≤ kernelEnd)
  (inside : arrayEnd memSize kernelEnd + physicalMemoryOffset < 2 ^ 64)
  (room : firstAddress memSize kernelEnd < topAddress memSize)

include low inside room

/-- The range reaches from the first page above the array to the end of the memory. -/
theorem handedOver_bounds :
    ((handedOver memSize kernelEnd).base + nbase) * pgSize = firstAddress memSize kernelEnd ∧
    ((handedOver memSize kernelEnd).base + nbase + (handedOver memSize kernelEnd).size) * pgSize =
      topAddress memSize ∧
    (handedOver memSize kernelEnd).base + nbase + (handedOver memSize kernelEnd).size =
      (pageArray dramBase memSize kernelEnd).npage ∧
    0 < (handedOver memSize kernelEnd).size := by
  have image := (roundUp_bounds kernelEnd).1
  have array := (roundUp_bounds (arrayEnd memSize kernelEnd)).1
  have aligned : firstAddress memSize kernelEnd % pgSize = 0 := (roundUp_bounds _).2.2
  have aligned' : topAddress memSize % pgSize = 0 := by
    unfold topAddress roundDown pgSize
    omega
  have above : kernBase - physicalMemoryOffset ≤ firstAddress memSize kernelEnd := by
    refine Nat.le_trans ?_ array
    unfold arrayEnd
    omega
  rw [(npage_eq low inside).1]
  unfold kernBase physicalMemoryOffset at above
  unfold handedOver nbase
  unfold pgSize at aligned aligned' ⊢
  simp only
  omega

theorem page_bounds (isPage : page ∈ handedOver memSize kernelEnd) :
    firstAddress memSize kernelEnd ≤ page2pa page ∧ page2pa page + pgSize ≤ topAddress memSize ∧
      page + nbase < (pageArray dramBase memSize kernelEnd).npage := by
  obtain ⟨first, top, count, _⟩ := handedOver_bounds low inside room
  rw [Extent.mem_def] at isPage
  rw [← first, ← top, ← count, page2pa_eq]
  unfold pgSize
  omega

theorem page2kva_eq (isPage : page ∈ handedOver memSize kernelEnd) :
    page2kva (pageArray dramBase memSize kernelEnd).npage page =
      .ok ((page2pa page + physicalMemoryOffset) % 2 ^ 64) := by
  have known := (page_bounds low inside room isPage).2.2
  refine if_neg ?_
  rw [ppn_eq, page2pa_eq]
  unfold pgSize
  omega

/-- A page of the range is mapped by every table that gets built. -/
theorem page_mapped (isPage : page ∈ handedOver memSize kernelEnd)
    (window : topAddress memSize ≤ kernTop - physicalMemoryOffset ∨
      (topAddress memSize - firstAddress memSize kernelEnd) / pgSize < windowTables)
    {memory : Memory} {allocator : PageAllocator} {etext pgdir : Nat} {final : Memory}
    (npage : memory.npage = (pageArray dramBase memSize kernelEnd).npage)
    (free : memory.free = Finset.Ico ((handedOver memSize kernelEnd).base + nbase)
      ((handedOver memSize kernelEnd).base + nbase + (handedOver memSize kernelEnd).size))
    (above : kernBase ≤ etext) (before : etext ≤ kernelEnd) (high : kernelEnd < 2 ^ 64)
    (ran : memory.switchKernelMemorylayout allocator etext = .ok (pgdir, final)) :
    pteTarget (final.pteAt pgdir ((page2pa page + physicalMemoryOffset) % 2 ^ 64)) =
      some (page + nbase) := by
  obtain ⟨_, _, count, _⟩ := handedOver_bounds low inside room
  have small : memory.npage ≤ 2 ^ 52 := npage ▸ Nat.le_of_lt (npage_high memSize kernelEnd)
  have spare : ∀ ppn ∈ memory.free, ppn < memory.npage := by
    intro ppn isFree
    rw [free, Finset.mem_Ico] at isFree
    omega
  obtain ⟨enough, maps⟩ := switch_maps small spare above (by omega) ran
  rw [free, Nat.card_Ico, Nat.add_sub_cancel_left, card_windowTables] at enough
  have top := window.resolve_right (Nat.not_lt.mpr enough)
  obtain ⟨first, last, _⟩ := page_bounds low inside room isPage
  have image := image_below inside
  have text : retext etext ≤ kernTop := by
    have rounded : roundUp etext pgSize ≤ roundUp kernelEnd pgSize := by
      unfold roundUp roundDown pgSize
      omega
    have wraps : retext etext ≤ roundUp etext pgSize := by
      rw [retext, roundUp64_pgSize]
      exact Nat.mod_le _ _
    have window : physicalMemoryOffset ≤ kernTop := by decide
    omega
  have lowest : kernBase - physicalMemoryOffset ≤ firstAddress memSize kernelEnd := by
    have := (roundUp_bounds kernelEnd).1
    omega
  have isWindow : page + nbase - 0x80200 < windowPages ∧ 0x80200 ≤ page + nbase := by
    rw [page2pa_eq] at first last
    unfold kernBase physicalMemoryOffset at lowest
    unfold kernTop kernBase kmemSize physicalMemoryOffset at top
    unfold windowPages kmemSize
    unfold pgSize at first last ⊢
    omega
  have address : (page2pa page + physicalMemoryOffset) % 2 ^ 64 =
      kernBase + (page + nbase - 0x80200) * pgSize := by
    have inWindow := isWindow.1
    rw [page2pa_eq]
    unfold windowPages kmemSize at inWindow
    unfold kernBase physicalMemoryOffset
    unfold pgSize at inWindow ⊢
    omega
  rw [address, maps text _ isWindow.1]
  have number : (kernBase - physicalMemoryOffset) / pgSize = 0x80200 := by decide
  rw [number, Nat.add_sub_cancel' isWindow.2]

end

/-! ## The condition -/

section

variable {memSize kernelEnd : Nat} {contents pmm : Pmm Unit} (low : kernBase ≤ kernelEnd)
  (high : kernelEnd < 2 ^ 64) (fits : arrayEnd memSize kernelEnd ≤ memoryEnd dramBase memSize)

include low fits

/-- The first half marks the descriptors of the array. -/
theorem pageInitMark_ok : ∃ marked,
    pageInitMark dramBase memSize kernelEnd pmm =
      .ok (pageArray dramBase memSize kernelEnd, marked) ∧ marked.links = pmm.links ∧
    ∀ page, marked.pages page =
      if page < (pageArray dramBase memSize kernelEnd).npage - nbase then
        (pmm.pages page).reserve
      else pmm.pages page := by
  have some : memSize ≠ 0 := by
    rintro rfl
    have image := (roundUp_bounds kernelEnd).1
    have above : kernBase - physicalMemoryOffset ≤ memoryEnd dramBase 0 := by
      refine Nat.le_trans ?_ fits
      unfold arrayEnd
      omega
    exact absurd above (by decide)
  refine ⟨_, if_neg some, markReserved_links _ _ _, fun page => ?_⟩
  rw [markReserved_pages, array_count low fits]
  exact if_congr (by omega) rfl rfl

include high

/-- The condition is enough. -/
theorem setupSound_of_fits (holds : SetupFits memSize kernelEnd) :
    SetupSound memSize kernelEnd (defaultInit contents) := by
  obtain ⟨inside, window⟩ := holds
  obtain ⟨marked, marks, links, pages⟩ := @pageInitMark_ok _ _ (defaultInit contents) low fits
  rcases window with full | ⟨room, window⟩
  · refine ⟨_, marked, none, marked, marks, pages, ⟨0, fun _ _ => ?_⟩, fun _ impossible => ?_⟩
    · exact pageInitFree_none low fits inside full
    · cases impossible
  · obtain ⟨_, _, count, positive⟩ := handedOver_bounds low inside room
    have empty : listEmpty marked.links freeList = true := by
      rw [links]
      exact (listEmpty_iff (listInit_isRing contents.links freeList)).mpr rfl
    have reserved : ∀ page ∈ handedOver memSize kernelEnd, marked.pageReserved page = true := by
      intro page isPage
      have known := (page_bounds low inside room isPage).2.2
      rw [Pmm.pageReserved, pages page, if_pos (by omega)]
      rfl
    obtain ⟨final, enough, returns⟩ := initMemmap_empty empty positive reserved
    refine ⟨_, marked, some (handedOver memSize kernelEnd), final, marks, pages,
      ⟨enough, fun fuel more => ?_⟩, ?_⟩
    · have answer : defaultInitMemmap fuel marked (handedOver memSize kernelEnd).base
          (handedOver memSize kernelEnd).size = .ok final := returns fuel more
      refine (pageInitFree_some low fits inside room).trans ?_
      rw [answer, ok_bind]
    · intro range isRange
      have same := Option.some.inj isRange
      subst same
      refine ⟨positive, fun page isPage => ?_⟩
      obtain ⟨first, last, known⟩ := page_bounds low inside room isPage
      have array : arrayEnd memSize kernelEnd ≤ firstAddress memSize kernelEnd :=
        (roundUp_bounds _).1
      have image := (roundUp_bounds kernelEnd).1
      have before : roundUp kernelEnd pgSize - physicalMemoryOffset ≤ arrayEnd memSize kernelEnd :=
        Nat.le_add_right _ _
      have start : (pageArray dramBase memSize kernelEnd).pages = roundUp kernelEnd pgSize :=
        (roundUp64_pgSize kernelEnd).trans (Nat.mod_eq_of_lt (image_below inside).1)
      have atEnd : topAddress memSize ≤ dramBase + memSize :=
        Nat.le_trans (Nat.sub_le _ _) (Nat.mod_le _ _)
      refine ⟨⟨?_, by omega⟩, ?_, ?_, by omega, _, page2kva_eq low inside room isPage, ?_⟩
      · rw [page2pa_eq]
        unfold dramBase nbase pgSize
        omega
      · omega
      · rw [start]
        exact Nat.le_trans array first
      · intro memory allocator etext pgdir final npage free above before ran
        exact page_mapped low inside room isPage window npage free above before high ran

/-- The condition is needed. -/
theorem fits_of_setupSound (sound : SetupSound memSize kernelEnd pmm) :
    SetupFits memSize kernelEnd := by
  obtain ⟨array, marked, range, final, marks, _, ⟨enough, returns⟩, pagesSound⟩ := sound
  obtain ⟨_, marks', _, _⟩ := @pageInitMark_ok _ _ pmm low fits
  obtain ⟨rfl, rfl⟩ := Prod.mk.inj (Except.ok.inj (marks.symm.trans marks'))
  have ran := returns enough (Nat.le_refl _)
  by_cases inside : arrayEnd memSize kernelEnd + physicalMemoryOffset < 2 ^ 64
  swap
  · cases ran.symm.trans (pageInitFree_beyond low high fits (not_lt.mp inside))
  refine ⟨inside, ?_⟩
  by_cases full : topAddress memSize ≤ arrayEnd memSize kernelEnd
  · exact Or.inl full
  by_cases room : firstAddress memSize kernelEnd < topAddress memSize
  swap
  · cases ran.symm.trans (pageInitFree_last low fits inside (not_le.mp full) (not_lt.mp room))
  refine Or.inr ⟨room, ?_⟩
  by_contra outside
  obtain ⟨beyond, many⟩ := not_or.mp outside
  obtain ⟨start, stop, count, positive⟩ := handedOver_bounds low inside room
  have isRange : range = some (handedOver memSize kernelEnd) := by
    have run := ran.symm.trans (pageInitFree_some low fits inside room)
    obtain ⟨_, _, result⟩ := bind_eq_ok run.symm
    exact (Prod.mk.inj (Except.ok.inj result)).1.symm
  obtain ⟨_, allSound⟩ := pagesSound _ isRange
  -- the last page of the memory lies behind the window
  have isLast : (handedOver memSize kernelEnd).base + (handedOver memSize kernelEnd).size - 1 ∈
      handedOver memSize kernelEnd := by
    rw [Extent.mem_def]
    omega
  obtain ⟨va, kernelAddress, mapped⟩ := (allSound _ isLast).mapped
  have address := Except.ok.inj (kernelAddress.symm.trans (page2kva_eq low inside room isLast))
  let memory : Memory := ⟨(pageArray dramBase memSize kernelEnd).npage, fun _ => Bytes.zeros,
    fun _ => 0, Finset.Ico ((handedOver memSize kernelEnd).base + nbase)
      ((handedOver memSize kernelEnd).base + nbase + (handedOver memSize kernelEnd).size), 0⟩
  have spare : ∀ ppn ∈ memory.free, ppn < memory.npage := by
    intro ppn isFree
    have last := (Finset.mem_Ico.mp isFree).2
    exact Nat.lt_of_lt_of_le last (Nat.le_of_eq count)
  have tables : windowPlaces.card ≤ memory.free.card := by
    rw [card_windowTables, Nat.card_Ico, Nat.add_sub_cancel_left]
    exact Nat.not_lt.mp many
  obtain ⟨pgdir, table, built, misses⟩ :=
    switch_returns (Nat.le_of_lt (npage_high memSize kernelEnd)) spare tables
  have found := mapped memory lowestPage kernBase pgdir table rfl rfl (Nat.le_refl _) low built
  rw [misses va, pteTarget_zero] at found
  · cases found
  · intro i inWindow
    have pages := (npage_eq low inside).2
    rw [← count] at pages
    rw [← stop] at beyond
    rw [ne_eq, pagePath_kernel, address, page2pa_eq]
    unfold windowPages kmemSize at inWindow
    unfold kernTop kmemSize at beyond
    unfold kernBase physicalMemoryOffset at beyond ⊢
    unfold nbase at pages beyond ⊢
    unfold pgSize at inWindow beyond ⊢
    omega

end

/-- Memory that is zero. -/
def zeroMemory : Pmm Unit := ⟨fun _ => ⟨0, .clear, 0⟩, ⟨id, id⟩, fun _ => 0⟩

end UCore.Mm
