import UCore.Mm.AddressSpaceSafety
import UCore.Process.ExecArgs

/-!
Contract: loading a program, `load_icode` of `kern/process/proc.c` up to its arguments.

Owns:
- the ELF header and the program headers, as they lie in the file;
- the loops that fill a segment page by page, with sums of 64 bits as the source makes them;
- the stack, and what becomes of the new `mm`.

A read of the program file either fails or gives its bytes; that those of `load_icode_read` do so is
in `Process.IcodeRead`.

Does not own: the arguments, which are in `Process.ExecArgs`, and files.
-/

set_option autoImplicit false

namespace UCore.Process

open UCore.Lib UCore.Mm

def add64 (left right : Nat) : Nat := (left + right) % 2 ^ 64

def sub64 (left right : Nat) : Nat := (left + (2 ^ 64 - right % 2 ^ 64)) % 2 ^ 64

/-! ## The file -/

/-- The ways in which `load_icode` fails. -/
inductive LoadError
  | noMem
  | inval
  | invalElf
  | read (ret : Int)
deriving DecidableEq, Repr

/-- A program file and its reads, which may fail at any time. What a failing read leaves in a page,
which is then given up, is left out. -/
structure ExecFile where
  content : Bytes
  read : Memory → Nat → Nat → Except LoadError Bytes
  /-- offsets that are negative as an `off_t` are refused -/
  read_small : ∀ memory offset len bytes, read memory offset len = .ok bytes → offset + len < 2 ^ 63
  read_content : ∀ memory offset len bytes, read memory offset len = .ok bytes →
    ∀ position < len, bytes position = content (offset + position)

def elfMagic : Nat := 0x464C457F

def elfPtLoad : Nat := 1

/-- `struct elfhdr` -/
structure ElfHdr where
  eMagic : Nat
  ePhoff : Nat
  ePhnum : Nat

def elfHdrSize : Nat := 64

def ElfHdr.ofBytes (bytes : Bytes) : ElfHdr :=
  ⟨bytes.number 0 4, bytes.number 32 8, bytes.number 56 2⟩

/-- `struct proghdr` -/
structure ProgHdr where
  pType : Nat
  pFlags : Nat
  pOffset : Nat
  pVa : Nat
  pFilesz : Nat
  pMemsz : Nat

def progHdrSize : Nat := 56

def ProgHdr.ofBytes (bytes : Bytes) : ProgHdr :=
  ⟨bytes.number 0 4, bytes.number 4 4, bytes.number 8 8, bytes.number 16 8, bytes.number 32 8,
    bytes.number 40 8⟩

/-- `VM_READ`, `VM_WRITE` and `VM_EXEC` are bits 0, 1 and 2; `ELF_PF_X`, `ELF_PF_W` and `ELF_PF_R` are
bits 0, 1 and 2 too. -/
def ProgHdr.vmFlags (ph : ProgHdr) : Nat :=
  (if ph.pFlags.testBit 0 then 4 else 0) ||| (if ph.pFlags.testBit 1 then 2 else 0) |||
    if ph.pFlags.testBit 2 then 1 else 0

def ProgHdr.perm (ph : ProgHdr) : Nat :=
  pteU ||| pteV ||| (if ph.vmFlags.testBit 0 then pteR else 0) |||
    (if ph.vmFlags.testBit 1 then pteW ||| pteR else 0) ||| if ph.vmFlags.testBit 2 then pteX else 0

/-! ## Segments -/

/-- `start`, `la`, `offset` and `page`. -/
structure Cursor where
  start : Nat
  la : Nat
  offset : Nat
  page : Nat

/-- `size`, where `off` bytes of a page come before and the next page is at `la`. -/
def cutSize (off la stop : Nat) : Nat :=
  if stop < la then sub64 (sub64 pgSize off) (sub64 la stop) else sub64 pgSize off

/-- Writes `size` bytes at `page2kva(page) + off`. Writing on behind the page destroys another page,
and the model stops there. -/
def writePage (memory : Memory) (page off size : Nat) (source : Bytes) : Except Stop Memory :=
  if off + size ≤ pgSize then
    .ok (memory.setBytes page ((memory.bytes page).overlay off size source))
  else .error .panicked

/-- The loops that allocate pages. The first one reads the file, and the second one clears. -/
def fillLoop (fetch : Memory → Nat → Nat → Except LoadError Bytes) (allocator : PageAllocator)
    (pgdir perm stop : Nat) :
    Nat → Memory → Cursor → Except Stop (Option LoadError × Memory × Cursor)
  | 0, _, _ => .error .outOfFuel
  | rounds + 1, memory, cursor =>
      if cursor.start < stop then do
        match ← memory.pgdirAllocPage allocator pgdir cursor.la perm with
        | (none, memory) => pure (some .noMem, memory, cursor)
        | (some page, memory) =>
            let off := sub64 cursor.start cursor.la
            let la := add64 cursor.la pgSize
            let size := cutSize off la stop
            match fetch memory cursor.offset size with
            | .error error => pure (some error, memory, cursor)
            | .ok bytes => do
                let memory ← writePage memory page off size bytes
                fillLoop fetch allocator pgdir perm stop rounds memory
                  ⟨add64 cursor.start size, la, add64 cursor.offset size, page⟩
      else pure (none, memory, cursor)

/-- Clears the rest of the page that the file ends in. -/
def clearRest (memory : Memory) (cursor : Cursor) (stop : Nat) : Except Stop (Memory × Cursor) :=
  if cursor.start < cursor.la ∧ cursor.start ≠ stop then do
    let off := sub64 (add64 cursor.start pgSize) cursor.la
    let size := cutSize off cursor.la stop
    let memory ← writePage memory cursor.page off size Bytes.zeros
    let start := add64 cursor.start size
    if stop < cursor.la ∧ start = stop ∨ cursor.la ≤ stop ∧ start = cursor.la then
      pure (memory, { cursor with start := start })
    else .error .assertFailed
  else .ok (memory, cursor)

/-- Where the loops begin. -/
def ProgHdr.cursor (ph : ProgHdr) : Cursor := ⟨ph.pVa, roundDown ph.pVa pgSize, ph.pOffset, 0⟩

/-- What follows `mm_map` for one segment. -/
def fillSegment (file : ExecFile) (allocator : PageAllocator) (pgdir : Nat) (ph : ProgHdr)
    (memory : Memory) : Except Stop (Option LoadError × Memory) := do
  let fileEnd := add64 ph.pVa ph.pFilesz
  match ← fillLoop file.read allocator pgdir ph.perm fileEnd (fileEnd / pgSize + 2) memory
      ph.cursor with
  | (some error, memory, _) => pure (some error, memory)
  | (none, memory, cursor) => do
      let stop := add64 ph.pVa ph.pMemsz
      let (memory, cursor) ← clearRest memory cursor stop
      let (failed, memory, _) ← fillLoop (fun _ _ _ => .ok Bytes.zeros) allocator pgdir ph.perm stop
        (stop / pgSize + 2) memory cursor
      pure (failed, memory)

def LoadError.ofMmap : MmapError → LoadError
  | .inval => .inval
  | .noMem => .noMem

def loadSegment (file : ExecFile) (allocator : PageAllocator) (pgdir : Nat) (kmalloc : Bool)
    (ph : ProgHdr) (memory : Memory) (areas : CachedMm) :
    Except Stop (Option LoadError × Memory × CachedMm) :=
  if ph.pType ≠ elfPtLoad then .ok (none, memory, areas)
  else if ph.pFilesz > ph.pMemsz then .ok (some .invalElf, memory, areas)
  else do
    match ← mmMap areas ph.pVa ph.pMemsz ph.vmFlags kmalloc with
    | (.error error, areas) => pure (some (.ofMmap error), memory, areas)
    | (.ok _, areas) => do
        let (failed, memory) ← fillSegment file allocator pgdir ph memory
        pure (failed, memory, areas)

/-- The loop over the program headers. -/
def loadSegments (file : ExecFile) (allocator : PageAllocator) (pgdir : Nat) (kmalloc : Nat → Bool)
    (phoff : Nat) : Nat → Nat → Memory → CachedMm → Except Stop (Option LoadError × Memory × CachedMm)
  | 0, _, memory, areas => .ok (none, memory, areas)
  | remaining + 1, i, memory, areas =>
      match file.read memory (add64 phoff (progHdrSize * i)) progHdrSize with
      | .error error => .ok (some error, memory, areas)
      | .ok bytes => do
          match ← loadSegment file allocator pgdir (kmalloc i) (.ofBytes bytes) memory areas with
          | (some error, memory, areas) => pure (some error, memory, areas)
          | (none, memory, areas) =>
              loadSegments file allocator pgdir kmalloc phoff remaining (i + 1) memory areas

/-! ## The whole image -/

def uStackPage : Nat := 256

def uStackSize : Nat := uStackPage * pgSize

/-- `VM_READ | VM_WRITE | VM_STACK` -/
def stackFlags : Nat := 11

/-- The pages that are allocated below `USTACKTOP`, each under an assertion. -/
def stackPages (allocator : PageAllocator) (pgdir : Nat) : List Nat → Memory → Except Stop Memory
  | [], memory => .ok memory
  | number :: rest, memory => do
      match ← memory.pgdirAllocPage allocator pgdir (uStackTop - number * pgSize) pteUser with
      | (none, _) => .error .assertFailed
      | (some _, memory) => stackPages allocator pgdir rest memory

def loadStack (allocator : PageAllocator) (pgdir : Nat) (kmalloc : Bool) (memory : Memory)
    (areas : CachedMm) : Except Stop (Option LoadError × Memory × CachedMm) := do
  match ← mmMap areas (uStackTop - uStackSize) uStackSize stackFlags kmalloc with
  | (.error error, areas) => pure (some (.ofMmap error), memory, areas)
  | (.ok _, areas) => do
      let memory ← stackPages allocator pgdir [1, 2, 3, 4] memory
      pure (none, memory, areas)

/-- From the header of the file to the stack. -/
def loadImage (file : ExecFile) (allocator : PageAllocator) (pgdir : Nat) (kmalloc : Nat → Bool)
    (memory : Memory) : Except Stop (Option LoadError × Memory × CachedMm) :=
  match file.read memory 0 elfHdrSize with
  | .error error => .ok (some error, memory, .mmCreate)
  | .ok bytes =>
      let elf := ElfHdr.ofBytes bytes
      if elf.eMagic ≠ elfMagic then .ok (some .invalElf, memory, .mmCreate)
      else do
        match ← loadSegments file allocator pgdir kmalloc elf.ePhoff elf.ePhnum 0 memory .mmCreate with
        | (some error, memory, areas) => pure (some error, memory, areas)
        | (none, memory, areas) => loadStack allocator pgdir (kmalloc elf.ePhnum) memory areas

/-- What becomes of the new `mm`: the process gets it, or it is given up. The failures before the first
area give up an `mm` without areas. -/
def icodeOut (allocator : PageAllocator) (pgdir pid : Nat) (failed : Option LoadError)
    (state : Spaces) : Except Stop (Option LoadError × Spaces) :=
  if failed = none then do
    let loaded ← state.adopt pid pgdir
    pure (none, loaded)
  else do
    let undone ← state.discard allocator pgdir
    pure (failed, undone)

/-- `load_icode` for the process `pid`, which has no `mm`. -/
def loadIcode (state : Spaces) (file : ExecFile) (allocator : PageAllocator) (boot pid : Nat)
    (kmallocMm : Bool) (kmalloc : Nat → Bool) : Except Stop (Option LoadError × Spaces) :=
  if state.current pid ≠ none then .error .panicked
  else do
    match ← state.mmCreate allocator boot kmallocMm with
    | (none, state) => pure (some .noMem, state)
    | (some pgdir, state) => do
        let (failed, memory, areas) ← loadImage file allocator pgdir kmalloc state.memory
        icodeOut allocator pgdir pid failed
          ((state.setMemory memory).setMm pgdir (some ⟨areas, 0⟩))

end UCore.Process
