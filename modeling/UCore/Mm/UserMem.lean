import UCore.Mm.PageTable

/-!
Contract: checking the memory of a process, the part of `kern/mm/vmm.c` that `copy_to_user` and
`copy_from_user` use.

Owns:
- virtual memory areas, and `user_mem_check` over them;
- what passes the check lies in one window of addresses.

The areas of an `mm` do not overlap, so that `mmap_cache` makes no difference and is left out. An
address is a number; where the kernel adds a length to it the sum wraps at 2^64.

Does not own: how areas come about, and the pages behind them.
-/

set_option autoImplicit false

namespace UCore.Mm

/-- `struct vma_struct`, with the flags `VM_READ`, `VM_WRITE` and `VM_STACK`. -/
structure Vma where
  vmStart : Nat
  vmEnd : Nat
  vmRead : Bool
  vmWrite : Bool
  vmStack : Bool
deriving DecidableEq, Repr

/-- `struct mm_struct`: its `mmap_list`. -/
structure MmStruct where
  mmapList : List Vma
deriving DecidableEq, Repr

def kernBase : Nat := 0xFFFFFFFFC0200000

def kmemSize : Nat := 0x7E00000

def kernTop : Nat := kernBase + kmemSize

def KernAccess (start stop : Nat) : Prop := kernBase ≤ start ∧ start < stop ∧ stop ≤ kernTop

instance (start stop : Nat) : Decidable (KernAccess start stop) :=
  inferInstanceAs (Decidable (_ ∧ _))

def findVma (mm : MmStruct) (addr : Nat) : Option Vma :=
  mm.mmapList.find? fun vma => vma.vmStart ≤ addr ∧ addr < vma.vmEnd

/-- The loop of `user_mem_check`. Each round gets past an area, so that `rounds` of them are enough
for as many bytes. -/
def userMemCheckLoop (mm : MmStruct) (write : Bool) (stop start : Nat) : Nat → Bool
  | 0 => decide (¬ start < stop)
  | rounds + 1 =>
      if start < stop then
        match findVma mm start with
        | none => false
        | some vma =>
            if start < vma.vmStart then false
            else if (if write = true then vma.vmWrite else vma.vmRead) = false then false
            else if write = true ∧ vma.vmStack = true ∧ start < vma.vmStart + pgSize then false
            else userMemCheckLoop mm write stop vma.vmEnd rounds
      else true

/-- A kernel thread has no `mm`. -/
def userMemCheck (mm : Option MmStruct) (addr len : Nat) (write : Bool) : Bool :=
  let stop := (addr + len) % 2 ^ 64
  match mm with
  | some mm =>
      if UserAccess addr stop then userMemCheckLoop mm write stop addr len else false
  | none => decide (KernAccess addr stop)

/-! ## The window -/

/-- The addresses between which checked memory lies. -/
def windowLow (mm : Option MmStruct) : Nat := if mm.isSome then userBase else kernBase

def windowHigh (mm : Option MmStruct) : Nat := if mm.isSome then userTop else kernTop

theorem window_small (mm : Option MmStruct) : windowHigh mm < windowLow mm + 2 ^ 31 := by
  cases mm with
  | none =>
      show kernTop < kernBase + 2 ^ 31
      decide
  | some mm =>
      show userTop < userBase + 2 ^ 31
      decide

/-- What passes the check lies in the window. -/
theorem userMemCheck_window {mm : Option MmStruct} {addr len : Nat} {write : Bool}
    (short : len < 2 ^ 32) (checked : userMemCheck mm addr len write = true) :
    windowLow mm ≤ addr ∧ addr + len ≤ windowHigh mm := by
  have bounds : windowLow mm ≤ addr ∧ addr < (addr + len) % 2 ^ 64 ∧
      (addr + len) % 2 ^ 64 ≤ windowHigh mm := by
    cases mm with
    | none => exact of_decide_eq_true checked
    | some mm =>
        by_contra outside
        have refused : userMemCheck (some mm) addr len write = false := if_neg outside
        exact Bool.noConfusion (checked.symm.trans refused)
  omega

end UCore.Mm
