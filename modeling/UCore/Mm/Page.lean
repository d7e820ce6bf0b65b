import UCore.Libs.List
import UCore.Machine

/-!
Contract: the page descriptors of `kern/mm/memlayout.h` and the state every physical memory
manager works on.

Owns:
- the conversions of `kern/mm/pmm.h` between descriptors, page numbers and addresses;
- `struct Page` with the two flag bits the managers use, and the flag macros;
- list entries (`page_link` of a page, or the head of a free list) and `le2page`;
- one `free_area_t` per index of a type `ι`: a single one for the fit allocators, one per
  order for the buddy system.

A `struct Page *` is the index of the descriptor in the `pages` array, so `page + n` and
`base < page` are addition and order on naturals. Fields of type `unsigned int` are reduced
modulo `2 ^ 32` where a wider value is stored into them.
-/

set_option autoImplicit false

namespace UCore.Mm

open UCore.Lib

/-! ## Page numbers -/

/-- `nbase`, the frame of the first page descriptor: `DRAM_BASE / PGSIZE` -/
def nbase : Nat := 0x80000

/-- `PGSHIFT` -/
def pgShift : Nat := 12

def page2ppn (page : Nat) : Nat := page + nbase

def page2pa (page : Nat) : Nat := page2ppn page <<< pgShift

/-- `PPN(la)` -/
def ppn (pa : Nat) : Nat := pa >>> pgShift

def pa2page (npage pa : Nat) : Except Stop Nat :=
  if npage ≤ ppn pa then .error .panicked else .ok (ppn pa - nbase)

/-! ## Descriptors -/

/-- Bits `PG_reserved` and `PG_property` of `flags`. -/
structure PageFlags where
  pgReserved : Bool
  pgProperty : Bool
deriving DecidableEq, Repr

/-- `flags = 0` -/
def PageFlags.clear : PageFlags := ⟨false, false⟩

structure Page where
  ref : Int
  flags : PageFlags
  property : Nat
deriving DecidableEq, Repr

/-- A `list_entry_t`: the head of a free list or the `page_link` of a page. -/
inductive ListEntry (ι : Type)
  | freeList (area : ι)
  | pageLink (page : Nat)
deriving DecidableEq, Repr

/-- The page array, all links, and `nr_free` of each free area. -/
structure Pmm (ι : Type) where
  pages : Nat → Page
  links : Links (ListEntry ι)
  nrFree : ι → Nat

namespace Pmm

variable {ι : Type}

def modifyPage (pmm : Pmm ι) (page : Nat) (change : Page → Page) : Pmm ι :=
  { pmm with pages := Function.update pmm.pages page (change (pmm.pages page)) }

def setLinks (pmm : Pmm ι) (links : Links (ListEntry ι)) : Pmm ι :=
  { pmm with links := links }

def setNrFree [DecidableEq ι] (pmm : Pmm ι) (area : ι) (count : Nat) : Pmm ι :=
  { pmm with nrFree := Function.update pmm.nrFree area count }

/-- `PageReserved(page)` -/
def pageReserved (pmm : Pmm ι) (page : Nat) : Bool := (pmm.pages page).flags.pgReserved

/-- `PageProperty(page)` -/
def pageProperty (pmm : Pmm ι) (page : Nat) : Bool := (pmm.pages page).flags.pgProperty

/-- `page->property` -/
def property (pmm : Pmm ι) (page : Nat) : Nat := (pmm.pages page).property

/-- `page->property = value` -/
def setProperty (pmm : Pmm ι) (page value : Nat) : Pmm ι :=
  pmm.modifyPage page fun descriptor => { descriptor with property := u32 value }

/-- `SetPageProperty(page)` -/
def setPageProperty (pmm : Pmm ι) (page : Nat) : Pmm ι :=
  pmm.modifyPage page fun descriptor =>
    { descriptor with flags := { descriptor.flags with pgProperty := true } }

/-- `ClearPageProperty(page)` -/
def clearPageProperty (pmm : Pmm ι) (page : Nat) : Pmm ι :=
  pmm.modifyPage page fun descriptor =>
    { descriptor with flags := { descriptor.flags with pgProperty := false } }

/-! ### Field lemmas -/

section Fields

variable (pmm : Pmm ι) (page value : Nat) (links : Links (ListEntry ι))

@[simp] theorem modifyPage_links (change : Page → Page) :
    (pmm.modifyPage page change).links = pmm.links := rfl

@[simp] theorem modifyPage_nrFree (change : Page → Page) :
    (pmm.modifyPage page change).nrFree = pmm.nrFree := rfl

@[simp] theorem modifyPage_pages (change : Page → Page) :
    (pmm.modifyPage page change).pages =
      Function.update pmm.pages page (change (pmm.pages page)) := rfl

@[simp] theorem setLinks_links : (pmm.setLinks links).links = links := rfl
@[simp] theorem setLinks_pages : (pmm.setLinks links).pages = pmm.pages := rfl
@[simp] theorem setLinks_nrFree : (pmm.setLinks links).nrFree = pmm.nrFree := rfl

@[simp] theorem setProperty_links : (pmm.setProperty page value).links = pmm.links := rfl
@[simp] theorem setProperty_nrFree : (pmm.setProperty page value).nrFree = pmm.nrFree := rfl
@[simp] theorem setPageProperty_links : (pmm.setPageProperty page).links = pmm.links := rfl
@[simp] theorem setPageProperty_nrFree : (pmm.setPageProperty page).nrFree = pmm.nrFree := rfl
@[simp] theorem clearPageProperty_links : (pmm.clearPageProperty page).links = pmm.links := rfl
@[simp] theorem clearPageProperty_nrFree :
    (pmm.clearPageProperty page).nrFree = pmm.nrFree := rfl

variable (other : Nat)

@[simp] theorem setLinks_property : (pmm.setLinks links).property other = pmm.property other := rfl
@[simp] theorem setLinks_pageProperty :
    (pmm.setLinks links).pageProperty other = pmm.pageProperty other := rfl
@[simp] theorem setLinks_pageReserved :
    (pmm.setLinks links).pageReserved other = pmm.pageReserved other := rfl

theorem setProperty_property : (pmm.setProperty page value).property other =
    if other = page then u32 value else pmm.property other := by
  by_cases same : other = page <;> simp [property, setProperty, Function.update, same]

@[simp] theorem setPageProperty_property :
    (pmm.setPageProperty page).property other = pmm.property other := by
  by_cases same : other = page <;> simp [property, setPageProperty, Function.update, same]

@[simp] theorem clearPageProperty_property :
    (pmm.clearPageProperty page).property other = pmm.property other := by
  by_cases same : other = page <;> simp [property, clearPageProperty, Function.update, same]

@[simp] theorem setProperty_pageProperty :
    (pmm.setProperty page value).pageProperty other = pmm.pageProperty other := by
  by_cases same : other = page <;> simp [pageProperty, setProperty, Function.update, same]

theorem setPageProperty_pageProperty : (pmm.setPageProperty page).pageProperty other =
    if other = page then true else pmm.pageProperty other := by
  by_cases same : other = page <;> simp [pageProperty, setPageProperty, Function.update, same]

theorem clearPageProperty_pageProperty : (pmm.clearPageProperty page).pageProperty other =
    if other = page then false else pmm.pageProperty other := by
  by_cases same : other = page <;> simp [pageProperty, clearPageProperty, Function.update, same]

@[simp] theorem setProperty_pageReserved :
    (pmm.setProperty page value).pageReserved other = pmm.pageReserved other := by
  by_cases same : other = page <;> simp [pageReserved, setProperty, Function.update, same]

@[simp] theorem setPageProperty_pageReserved :
    (pmm.setPageProperty page).pageReserved other = pmm.pageReserved other := by
  by_cases same : other = page <;> simp [pageReserved, setPageProperty, Function.update, same]

@[simp] theorem clearPageProperty_pageReserved :
    (pmm.clearPageProperty page).pageReserved other = pmm.pageReserved other := by
  by_cases same : other = page <;> simp [pageReserved, clearPageProperty, Function.update, same]

variable [DecidableEq ι] (area : ι) (count : Nat)

@[simp] theorem setNrFree_links : (pmm.setNrFree area count).links = pmm.links := rfl
@[simp] theorem setNrFree_pages : (pmm.setNrFree area count).pages = pmm.pages := rfl
@[simp] theorem setNrFree_property :
    (pmm.setNrFree area count).property other = pmm.property other := rfl
@[simp] theorem setNrFree_pageProperty :
    (pmm.setNrFree area count).pageProperty other = pmm.pageProperty other := rfl
@[simp] theorem setNrFree_pageReserved :
    (pmm.setNrFree area count).pageReserved other = pmm.pageReserved other := rfl
end Fields

end Pmm

end UCore.Mm
