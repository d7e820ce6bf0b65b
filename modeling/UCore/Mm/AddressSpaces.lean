import UCore.Lib.Tally
import UCore.Mm.ExitMmap
import UCore.Mm.PageRuns

/-!
Contract: the address spaces of processes, as `kern/process/proc.c` makes, copies and gives them up.

Owns:
- `mm_struct` with its areas, its directory and `mm_count`, and `proc->mm` of each process;
- the parts of `load_icode`, `do_execve`, `do_fork` and `do_exit` that handle them;
- the invariant: every page is mapped at one address of one `mm`, inside its areas, and `mm_count` is
  the number of processes that hold it;
- what each call leaves alone.

The kernel gives up the processor only where a process waits, so each call is one step. What a
process stores in its memory is a step as well.

Does not own: the contents that `load_icode` stores, and processes themselves.
-/

set_option autoImplicit false

namespace UCore.Mm

open UCore.Lib

/-- An `mm_struct`. Its page directory, which no other has, stands for its address. -/
structure AddressSpace where
  areas : CachedMm
  count : Int

/-- Physical memory with every `mm_struct` there is, and `proc->mm` of each process. -/
structure Spaces where
  memory : Memory
  mms : Nat → Option AddressSpace
  current : Nat → Option Nat

namespace Spaces

variable (state : Spaces) (allocator : PageAllocator) (boot : Nat)

def setMm (pgdir : Nat) (mm : Option AddressSpace) : Spaces :=
  { state with mms := Function.update state.mms pgdir mm }

def setMemory (memory : Memory) : Spaces := { state with memory := memory }

def setCurrent (pid : Nat) (mm : Option Nat) : Spaces :=
  { state with current := Function.update state.current pid mm }

/-- The `mm` at an address; there is none behind a pointer to one that was destroyed. -/
def mm (pgdir : Nat) : Except Stop AddressSpace :=
  match state.mms pgdir with
  | some mm => .ok mm
  | none => .error .panicked

/-- `mm_create` with `setup_pgdir`: the new `mm`. -/
def mmCreate (kmalloc : Bool) : Except Stop (Option Nat × Spaces) :=
  if kmalloc = false then .ok (none, state)
  else do
    match ← state.memory.setupPgdir allocator boot with
    | (none, memory) => pure (none, state.setMemory memory)
    | (some pgdir, memory) =>
        pure (some pgdir, (state.setMemory memory).setMm pgdir (some ⟨CachedMm.mmCreate, 0⟩))

/-- `mm_count_inc(mm)` and `proc->mm = mm` -/
def adopt (pid pgdir : Nat) : Except Stop Spaces := do
  let mm ← state.mm pgdir
  pure ((state.setMm pgdir (some { mm with count := mm.count + 1 })).setCurrent pid (some pgdir))

/-- `exit_mmap`, `put_pgdir` and `mm_destroy` -/
def discard (pgdir : Nat) : Except Stop Spaces := do
  let mm ← state.mm pgdir
  let emptied ← exitMmap allocator mm.count pgdir mm.areas.mmapList state.memory
  let memory ← emptied.putPgdir pgdir
  pure ((state.setMemory memory).setMm pgdir none)

/-- What `do_exit` and `do_execve` do with `current->mm`. -/
def exitMm (pid : Nat) : Except Stop Spaces :=
  match state.current pid with
  | none => .ok state
  | some pgdir => do
      let mm ← state.mm pgdir
      let counted := state.setMm pgdir (some { mm with count := mm.count - 1 })
      let left ← if mm.count - 1 = 0 then counted.discard allocator pgdir else pure counted
      pure (left.setCurrent pid none)

/-- `copy_mm` for the process `child`, which is new. -/
def copyMm (cloneVm : Bool) (parent child : Nat) (kmalloc : Bool) (vmas : Vma → Bool) :
    Except Stop (Bool × Spaces) :=
  match state.current parent with
  | none => .ok (true, state)
  | some oldmm =>
      if cloneVm = true then do
        let shared ← state.adopt child oldmm
        pure (true, shared)
      else do
        match ← state.mmCreate allocator boot kmalloc with
        | (none, state) => pure (false, state)
        | (some mm, state) => do
            let old ← state.mm oldmm
            let (copied, areas, memory) ← dupPages allocator vmas mm oldmm CachedMm.mmCreate old.areas
              state.memory
            let made := (state.setMemory memory).setMm mm (some ⟨areas, 0⟩)
            if copied = true then do
              let adopted ← made.adopt child mm
              pure (true, adopted)
            else do
              let undone ← made.discard allocator mm
              pure (false, undone)

/-- A process, or `load_icode`, replaces what the page at an address holds. -/
def store (pgdir la : Nat) (bytes : Bytes) : Spaces :=
  match pteTarget (state.memory.pteAt pgdir la) with
  | none => state
  | some page => state.setMemory (state.memory.setBytes page bytes)

end Spaces

inductive SpaceCall
  | mmCreate (kmalloc : Bool)
  | mmMap (pgdir addr len vmFlags : Nat) (kmalloc : Bool)
  | findVma (pgdir addr : Nat)
  | pgdirAllocPage (pgdir la perm : Nat)
  | store (pgdir la : Nat) (bytes : Bytes)
  | adopt (pid pgdir : Nat)
  | discard (pgdir : Nat)
  | copyMm (cloneVm : Bool) (parent child : Nat) (kmalloc : Bool) (vmas : Vma → Bool)
  | exitMm (pid : Nat)

/-- What the callers see to: `load_icode` maps pages in the areas that it made and gives up an `mm`
that nobody holds yet; a process gets an `mm` when it has none. -/
def SpaceCall.Admitted (state : Spaces) : SpaceCall → Prop
  | .mmCreate _ => True
  | .mmMap pgdir _ _ _ _ => state.mms pgdir ≠ none
  | .findVma pgdir _ => state.mms pgdir ≠ none
  | .pgdirAllocPage pgdir la perm => perm < 2 ^ 10 ∧
      ∃ mm, state.mms pgdir = some mm ∧ Covered mm.areas.mmapList la
  | .store pgdir la _ => state.mms pgdir ≠ none ∧ la < userTop
  | .adopt pid pgdir => state.current pid = none ∧ state.mms pgdir ≠ none
  | .discard pgdir => ∃ mm, state.mms pgdir = some mm ∧ mm.count = 0
  | .copyMm _ _ child _ _ => state.current child = none
  | .exitMm _ => True

def SpaceCall.run (boot : Nat) (allocator : PageAllocator) (state : Spaces) :
    SpaceCall → Except Stop Spaces
  | .mmCreate kmalloc => do
      let (_, made) ← state.mmCreate allocator boot kmalloc
      pure made
  | .mmMap pgdir addr len vmFlags kmalloc => do
      let mm ← state.mm pgdir
      let (_, areas) ← Mm.mmMap mm.areas addr len vmFlags kmalloc
      pure (state.setMm pgdir (some { mm with areas := areas }))
  | .findVma pgdir addr => do
      let mm ← state.mm pgdir
      pure (state.setMm pgdir (some { mm with areas := (mm.areas.findVma addr).2 }))
  | .pgdirAllocPage pgdir la perm => do
      let (_, memory) ← state.memory.pgdirAllocPage allocator pgdir la perm
      pure (state.setMemory memory)
  | .store pgdir la bytes => .ok (state.store pgdir la bytes)
  | .adopt pid pgdir => state.adopt pid pgdir
  | .discard pgdir => state.discard allocator pgdir
  | .copyMm cloneVm parent child kmalloc vmas => do
      let (_, copied) ← state.copyMm allocator boot cloneVm parent child kmalloc vmas
      pure copied
  | .exitMm pid => state.exitMm allocator pid

/-- The allocator may answer each call as it likes. -/
def spaceMachine (boot : Nat) : Machine Spaces (PageAllocator × SpaceCall) Stop where
  Admits state label := label.2.Admitted state
  answer state label := label.2.run boot label.1 state

end UCore.Mm
