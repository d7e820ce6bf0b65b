import UCore.Mm.CopyString

/-!
Contract: the arguments of a new program, `copy_kargv` and the last part of `load_icode` in
`kern/process/proc.c`.

Owns:
- copying the arguments out of user memory, and what `do_execve` accepts;
- laying them out on the new stack, where a store to a page that is not mapped never gets done;
- exactly when the layout succeeds, and that it is then right.

The stack has `USTACKPAGE` pages of addresses, of which the last four are mapped.

Does not own: the program's segments, and the rest of `do_execve`.
-/

set_option autoImplicit false

namespace UCore.Process

open UCore.Lib UCore.Mm

def execMaxArgNum : Nat := 32

def execMaxArgLen : Nat := 4095

def uStackTop : Nat := userTop

/-! ## copy_kargv -/

/-- `-E_INVAL` and `-E_NO_MEM` -/
inductive ExecError
  | inval
  | noMem
deriving DecidableEq, Repr

/-- The loop of `copy_kargv`. `kmalloc` answers the buffer for each argument, if it has memory. -/
def copyKargvLoop (memory : Bytes) (argv : Nat) (kmalloc : Nat → Option Bytes) (fuel : Nat) :
    Nat → Nat → Option CachedMm → List Bytes → Except Stop (Except ExecError (List Bytes) × Option CachedMm)
  | 0, _, mm, kargv => .ok (.ok kargv, mm)
  | remaining + 1, i, mm, kargv =>
      match kmalloc i with
      | none => .ok (.error .noMem, mm)
      | some buffer => do
          let copy ← copyString memory fuel mm (memory.number (argv + 8 * i) 8) (execMaxArgLen + 1)
          if copy.result = false then pure (.error .inval, copy.mm)
          else
            let arg := buffer.overlay 0 copy.dst.length fun position => copy.dst.getD position 0
            copyKargvLoop memory argv kmalloc fuel remaining (i + 1) copy.mm (kargv ++ [arg])

/-- `copy_kargv`, with the bound on `argc` that `do_execve` checks before. -/
def copyKargv (memory : Bytes) (kmalloc : Nat → Option Bytes) (fuel : Nat) (mm : Option CachedMm)
    (argc argv : Nat) : Except Stop (Except ExecError (List Bytes) × Option CachedMm) :=
  if 1 ≤ argc ∧ argc ≤ execMaxArgNum then
    let (passes, mm) := CachedMm.userMemCheck mm argv (8 * argc) false
    if passes = false then .ok (.error .inval, mm)
    else copyKargvLoop memory argv kmalloc fuel argc 0 mm []
  else .ok (.error .inval, mm)

/-- A buffer holds a string. -/
def IsArg (arg : Bytes) : Prop := ∃ n ≤ execMaxArgLen, EndsAt arg 0 n

/-- The arguments that `load_icode` gets. -/
structure Accepted (kargv : List Bytes) : Prop where
  some' : 1 ≤ kargv.length
  few : kargv.length ≤ execMaxArgNum
  strings : ∀ arg ∈ kargv, IsArg arg

/-- A buffer holds the string at `src`, with its NUL. -/
def ArgCopy (memory : Bytes) (src : Nat) (arg : Bytes) : Prop :=
  ∃ n ≤ execMaxArgLen, EndsAt memory src n ∧ ∀ j ≤ n, arg j = memory (src + j)

/-- The strings that `argv` points to were copied in. -/
structure CopiedIn (memory : Bytes) (argc argv : Nat) (kargv : List Bytes) : Prop where
  some' : 1 ≤ argc
  few : argc ≤ execMaxArgNum
  argc : kargv.length = argc
  strings : ∀ k (less : k < kargv.length),
    ArgCopy memory (memory.number (argv + 8 * k) 8) kargv[k]

/-! ## The layout -/

/-- A store to a page that is not mapped faults, and again whenever it is tried again. -/
inductive UserFault
  | pageFault (address : Nat)
  | outOfFuel
deriving DecidableEq, Repr

/-- The pages that `load_icode` has mapped for the stack. -/
def StackMapped (address : Nat) : Prop := uStackTop - 4 * pgSize ≤ address ∧ address < uStackTop

instance (address : Nat) : Decidable (StackMapped address) := inferInstanceAs (Decidable (_ ∧ _))

def storeByte (memory : Bytes) (address : Nat) (byte : UInt8) : Except UserFault Bytes :=
  if StackMapped address then .ok (memory.overlay address 1 fun _ => byte)
  else .error (.pageFault address)

/-- A store of a pointer, which lies in one page. -/
def storePointer (memory : Bytes) (address value : Nat) : Except UserFault Bytes :=
  if StackMapped address ∧ StackMapped (address + 7) then
    .ok (memory.overlay address 8 (Bytes.ofNumber value))
  else .error (.pageFault address)

/-- `strcpy`, from the byte `s` of `src` on. -/
def strcpy (src : Bytes) : Nat → Bytes → Nat → Nat → Except UserFault Bytes
  | 0, _, _, _ => .error .outOfFuel
  | fuel + 1, memory, p, s => do
      let memory ← storeByte memory p (src s)
      if src s = 0 then pure memory else strcpy src fuel memory (p + 1) (s + 1)

/-- What one argument takes, with its NUL. -/
def argBytes (arg : Bytes) : Nat := (strnlen arg 0 (execMaxArgLen + 1)).1 + 1

/-- The first loop: `argv_size`. -/
def argvSize (kargv : List Bytes) : Nat :=
  kargv.foldl (fun size arg => u32 (size + argBytes arg)) 0

/-- The second loop, and the NULL at the end of the array. -/
def layoutArgs (stacktop uargv : Nat) : List Bytes → Nat → Nat → Bytes → Except UserFault Bytes
  | [], i, _, memory => storePointer memory (uargv + 8 * i) 0
  | arg :: rest, i, size, memory => do
      let memory ← storePointer memory (uargv + 8 * i) (stacktop + size)
      let memory ← strcpy arg (execMaxArgLen + 1) memory (memory.number (uargv + 8 * i) 8) 0
      layoutArgs stacktop uargv rest (i + 1) (u32 (size + argBytes arg)) memory

/-- What the program starts with. -/
structure UserStart where
  memory : Bytes
  sp : Nat
  a0 : Nat
  a1 : Nat

def argStacktop (kargv : List Bytes) : Nat :=
  roundDown (sub32 uStackTop (argvSize kargv)) 8

def argUargv (kargv : List Bytes) : Nat :=
  (argStacktop kargv + (2 ^ 64 - (kargv.length + 1) * 8)) % 2 ^ 64

/-- The sixth and seventh step of `load_icode`. -/
def setUpArgs (memory : Bytes) (kargv : List Bytes) : Except UserFault UserStart := do
  let memory ← layoutArgs (argStacktop kargv) (argUargv kargv) kargv 0 0 memory
  pure ⟨memory, argUargv kargv, kargv.length, argUargv kargv⟩

/-! ## Arguments that are accepted -/

variable {memory memory' : Bytes} {arg : Bytes} {kargv : List Bytes}

/-- The length that `strnlen` finds is that of the string. -/
theorem IsArg.endsAt (isArg : IsArg arg) :
    argBytes arg ≤ execMaxArgLen + 1 ∧ EndsAt arg 0 (argBytes arg - 1) := by
  obtain ⟨n, short, nul, before⟩ := isArg
  have string := strnlen_spec arg 0 (execMaxArgLen + 1)
  unfold argBytes
  have within : (strnlen arg 0 (execMaxArgLen + 1)).1 < execMaxArgLen + 1 := by
    by_contra long
    exact string.before n (by omega) nul
  exact ⟨within, string.stops within, string.before⟩

theorem endsAt_unique {src n n' : Nat} (first : EndsAt memory src n) (second : EndsAt memory src n') :
    n = n' := by
  have notBefore : ¬ n < n' := fun less => second.2 n less first.1
  have notAfter : ¬ n' < n := fun less => first.2 n' less second.1
  omega

theorem ArgCopy.endsAt {src n : Nat} (copy : ArgCopy memory src arg) (ends : EndsAt memory src n) :
    n ≤ execMaxArgLen ∧ EndsAt arg 0 n := by
  obtain ⟨n', short, ends', same⟩ := copy
  obtain rfl := endsAt_unique ends ends'
  refine ⟨short, ?_, fun i earlier => ?_⟩
  · rw [Nat.zero_add, same n (Nat.le_refl n)]
    exact ends.1
  · rw [Nat.zero_add, same i (Nat.le_of_lt earlier)]
    exact ends.2 i earlier

theorem ArgCopy.isArg {src : Nat} (copy : ArgCopy memory src arg) : IsArg arg := by
  obtain ⟨n, short, ends, same⟩ := copy
  exact ⟨n, ArgCopy.endsAt ⟨n, short, ends, same⟩ ends⟩

theorem CopiedIn.accepted {argc argv : Nat} (copied : CopiedIn memory argc argv kargv) :
    Accepted kargv := by
  have length := copied.argc
  refine ⟨length ▸ copied.some', length ▸ copied.few, fun arg member => ?_⟩
  obtain ⟨k, less, rfl⟩ := List.getElem_of_mem member
  exact (copied.strings k less).isArg

/-- A string that `copy_string` put into a buffer. -/
theorem argCopy_of_copies {mm : Option CachedMm} {src : Nat} {dst : List UInt8} {reads : List Nat}
    (copies : CopiesString memory mm src (execMaxArgLen + 1) true dst reads) (buffer : Bytes) :
    ArgCopy memory src (buffer.overlay 0 dst.length fun position => dst.getD position 0) := by
  obtain ⟨n, ends, isDst⟩ := copies.copied rfl
  have length : dst.length = n + 1 := by rw [isDst, length_bytesAt]
  have short := copies.within
  refine ⟨n, by omega, ends, fun j upTo => ?_⟩
  rw [Bytes.overlay_inside (Nat.zero_le _) (by omega), Nat.sub_zero, isDst, bytesAt]
  simp [List.getD, show j < n + 1 by omega]

theorem copyKargvLoop_copies {argv fuel remaining : Nat} {kmalloc : Nat → Option Bytes}
    {mm after : Option CachedMm} {copied : List Bytes}
    (pages : ∀ user, mm = some user → WholePages user)
    (returns : copyKargvLoop memory argv kmalloc fuel remaining copied.length mm copied =
      .ok (.ok kargv, after))
    (strings : ∀ k (less : k < copied.length),
      ArgCopy memory (memory.number (argv + 8 * k) 8) copied[k]) :
    kargv.length = copied.length + remaining ∧ ∀ k (less : k < kargv.length),
      ArgCopy memory (memory.number (argv + 8 * k) 8) kargv[k] := by
  induction remaining generalizing mm copied with
  | zero =>
      obtain ⟨same, _⟩ := Prod.mk.inj (Except.ok.inj returns)
      obtain rfl := Except.ok.inj same
      exact ⟨rfl, strings⟩
  | succ remaining inductionHypothesis =>
      unfold copyKargvLoop at returns
      cases allocated : kmalloc copied.length with
      | none =>
          rw [allocated] at returns
          cases returns
      | some buffer =>
          rw [allocated] at returns
          change Except.bind (copyString memory fuel mm
            (memory.number (argv + 8 * copied.length) 8) (execMaxArgLen + 1)) _ = _ at returns
          cases done : copyString memory fuel mm (memory.number (argv + 8 * copied.length) 8)
              (execMaxArgLen + 1) with
          | error stop =>
              rw [done] at returns
              cases returns
          | ok copy =>
              rw [done] at returns
              have address : memory.number (argv + 8 * copied.length) 8 < 2 ^ 64 :=
                Bytes.number_lt _ _ _
              have copies := copiesString_of_returns pages address (Nat.succ_pos _) done
              have kept := wholePages_copyStringLoop pages done
              change (if copy.result = false then _ else _) = _ at returns
              by_cases fails : copy.result = false
              · rw [if_pos fails] at returns
                cases returns
              · rw [if_neg fails] at returns
                rw [Bool.eq_true_of_not_eq_false fails] at copies
                let arg := buffer.overlay 0 copy.dst.length fun position =>
                  copy.dst.getD position 0
                have isCopy := argCopy_of_copies copies buffer
                have more : (copied ++ [arg]).length = copied.length + 1 := List.length_append
                rw [← more] at returns
                obtain ⟨length, all⟩ := inductionHypothesis kept returns fun k less => by
                  by_cases earlier : k < copied.length
                  · rw [List.getElem_append_left earlier]
                    exact strings k earlier
                  · obtain rfl : k = copied.length := by omega
                    rwa [List.getElem_concat_length rfl]
                exact ⟨by omega, all⟩

/-- What `do_execve` hands to `load_icode`. -/
theorem copyKargv_copies {argc argv fuel : Nat} {kmalloc : Nat → Option Bytes}
    {mm after : Option CachedMm} (pages : ∀ user, mm = some user → WholePages user)
    (returns : copyKargv memory kmalloc fuel mm argc argv = .ok (.ok kargv, after)) :
    CopiedIn memory argc argv kargv := by
  unfold copyKargv at returns
  by_cases admitted : 1 ≤ argc ∧ argc ≤ execMaxArgNum
  · rw [if_pos admitted] at returns
    have kept := @wholePages_userMemCheck mm argv (8 * argc) false pages
    cases outcome : CachedMm.userMemCheck mm argv (8 * argc) false with
    | mk passes mm' =>
        rw [outcome] at returns kept
        dsimp only at returns kept
        cases passes with
        | false => cases returns
        | true =>
            have start : copyKargvLoop memory argv kmalloc fuel argc ([] : List Bytes).length mm' [] =
                .ok (.ok kargv, after) := returns
            obtain ⟨length, strings⟩ := copyKargvLoop_copies kept start
              fun k less => absurd less (Nat.not_lt_zero k)
            rw [List.length_nil, Nat.zero_add] at length
            exact ⟨admitted.1, admitted.2, length, strings⟩
  · rw [if_neg admitted] at returns
    cases returns

/-! ## The stores -/

theorem storeByte_mapped {address : Nat} (mapped : StackMapped address) (byte : UInt8) :
    storeByte memory address byte = .ok (memory.overlay address 1 fun _ => byte) :=
  if_pos mapped

/-- A string is copied with its NUL, where the whole place for it is mapped. -/
theorem strcpy_spec {fuel p s n : Nat} (ends : EndsAt arg 0 n) (within : s ≤ n)
    (enough : n + 1 - s ≤ fuel) (mapped : ∀ address, p ≤ address → address < p + (n + 1 - s) →
      StackMapped address) :
    strcpy arg fuel memory p s = .ok (memory.overlay p (n + 1 - s) (arg.drop s)) := by
  induction fuel generalizing memory p s with
  | zero => omega
  | succ fuel inductionHypothesis =>
      unfold strcpy
      rw [storeByte_mapped (mapped p (Nat.le_refl _) (by omega))]
      change (if arg s = 0 then Except.ok _ else _) = _
      by_cases last : s = n
      · subst last
        have nul := ends.1
        rw [Nat.zero_add] at nul
        rw [if_pos nul, Nat.add_sub_cancel_left]
        congr 1
        funext address
        unfold Bytes.overlay
        split_ifs with inside
        · rw [show address = p by omega, Bytes.drop, Nat.sub_self, Nat.add_zero]
        · rfl
      · have letter := ends.2 s (by omega)
        rw [Nat.zero_add] at letter
        rw [if_neg letter, inductionHypothesis (by omega) (by omega)
          fun address from' until' => mapped address (by omega) (by omega), Bytes.overlay_append,
          show 1 + (n + 1 - (s + 1)) = n + 1 - s by omega]
        congr 2
        funext position
        unfold Bytes.append Bytes.drop
        split_ifs with first
        · rw [show position = 0 by omega, Nat.add_zero]
        · rw [show s + 1 + (position - 1) = s + position by omega]

/-- What the first arguments take. -/
def bytesBefore (args : List Bytes) (k : Nat) : Nat := ((args.take k).map argBytes).sum

def bytesOf (args : List Bytes) : Nat := (args.map argBytes).sum

/-- The part of the array from pointer `i` on, and the strings behind the first `size` bytes. -/
structure LaidOut (stacktop uargv : Nat) (args : List Bytes) (i size : Nat)
    (before after : Bytes) : Prop where
  pointers : ∀ k < args.length,
    after.number (uargv + 8 * (i + k)) 8 = stacktop + size + bytesBefore args k
  strings : ∀ k (less : k < args.length), ∀ j < argBytes args[k],
    after (stacktop + size + bytesBefore args k + j) = args[k] j
  null : after.number (uargv + 8 * (i + args.length)) 8 = 0
  others : ∀ address, address < uargv + 8 * i ∨
    (uargv + 8 * (i + args.length + 1) ≤ address ∧ address < stacktop + size) ∨
      stacktop + size + bytesOf args ≤ address → after address = before address

theorem storePointer_spec {address value : Nat} (low : uStackTop - 4 * pgSize ≤ address)
    (high : address + 8 ≤ uStackTop) :
    storePointer memory address value = .ok (memory.overlay address 8 (Bytes.ofNumber value)) :=
  if_pos ⟨⟨low, by omega⟩, by omega, by omega⟩

theorem layoutArgs_cons (stacktop uargv : Nat) (arg : Bytes) (rest : List Bytes) (i size : Nat)
    (memory : Bytes) :
    layoutArgs stacktop uargv (arg :: rest) i size memory =
      (storePointer memory (uargv + 8 * i) (stacktop + size)).bind fun memory =>
        (strcpy arg (execMaxArgLen + 1) memory (memory.number (uargv + 8 * i) 8) 0).bind fun memory =>
          layoutArgs stacktop uargv rest (i + 1) (u32 (size + argBytes arg)) memory := rfl

theorem layoutArgs_spec {stacktop uargv : Nat} {args : List Bytes} (isArgs : ∀ arg ∈ args, IsArg arg)
    {i size : Nat} (low : uStackTop - 4 * pgSize ≤ uargv + 8 * i)
    (array : uargv + 8 * (i + args.length + 1) ≤ stacktop)
    (top : stacktop + size + bytesOf args ≤ uStackTop) :
    ∃ after, layoutArgs stacktop uargv args i size memory = .ok after ∧
      LaidOut stacktop uargv args i size memory after := by
  have topSmall : uStackTop < 2 ^ 32 := by decide
  induction args generalizing i size memory with
  | nil =>
      simp only [List.length_nil, Nat.add_zero] at array
      refine ⟨_, storePointer_spec low (by omega), fun k less => (nomatch less),
        fun k less => (nomatch less), ?_, fun address outside => ?_⟩
      · exact Bytes.number_overlay_same (by decide)
      · apply Bytes.overlay_outside
        simp only [List.length_nil] at outside
        omega
  | cons arg rest inductionHypothesis =>
      have isArg := isArgs arg List.mem_cons_self
      obtain ⟨short, ends⟩ := isArg.endsAt
      have positive : 0 < argBytes arg := Nat.succ_pos _
      have whole : bytesOf (arg :: rest) = argBytes arg + bytesOf rest := rfl
      simp only [List.length_cons] at array
      rw [whole] at top
      have fits : stacktop + size < 256 ^ 8 := by omega
      rw [layoutArgs_cons, storePointer_spec low (by omega)]
      simp only [Except.bind]
      rw [Bytes.number_overlay_same fits,
        strcpy_spec ends (Nat.zero_le _) (by omega) fun address from' until' =>
          ⟨by omega, by omega⟩,
        show argBytes arg - 1 + 1 - 0 = argBytes arg by omega]
      dsimp only
      rw [u32_of_lt (by omega)]
      obtain ⟨after, returns, laid⟩ := @inductionHypothesis
        ((memory.overlay (uargv + 8 * i) 8 (Bytes.ofNumber (stacktop + size))).overlay
          (stacktop + size) (argBytes arg) (arg.drop 0))
        (fun other member => isArgs other (List.mem_cons_of_mem _ member)) (i + 1)
        (size + argBytes arg) (by omega) (by omega) (by omega)
      refine ⟨after, returns, ?_, ?_, ?_, ?_⟩
      · intro k less
        cases k with
        | zero =>
            -- what comes later does not touch the pointer
            have kept : after.number (uargv + 8 * (i + 0)) 8 =
                (memory.overlay (uargv + 8 * i) 8 (Bytes.ofNumber (stacktop + size))).number
                  (uargv + 8 * i) 8 := by
              apply Bytes.number_congr
              intro position from' until'
              rw [laid.others position (by omega)]
              exact Bytes.overlay_outside (by omega)
            rw [kept, Bytes.number_overlay_same fits]
            rfl
        | succ k =>
            have later := laid.pointers k (Nat.lt_of_succ_lt_succ less)
            rw [show i + (k + 1) = i + 1 + k by omega, later]
            unfold bytesBefore
            simp only [List.take_succ_cons, List.map_cons, List.sum_cons]
            omega
      · intro k less j inside
        cases k with
        | zero =>
            change j < argBytes arg at inside
            change after (stacktop + size + 0 + j) = arg j
            rw [laid.others _ (by omega), Bytes.overlay_inside (by omega) (by omega), Bytes.drop]
            congr 1
            omega
        | succ k =>
            have later := laid.strings k (Nat.lt_of_succ_lt_succ less) j inside
            unfold bytesBefore at later ⊢
            simp only [List.take_succ_cons, List.map_cons, List.sum_cons]
            rw [show stacktop + size + (argBytes arg + ((rest.take k).map argBytes).sum) + j =
              stacktop + (size + argBytes arg) + ((rest.take k).map argBytes).sum + j by omega]
            exact later
      · rw [List.length_cons, show i + (rest.length + 1) = i + 1 + rest.length by omega]
        exact laid.null
      · intro address outside
        rw [whole, List.length_cons] at outside
        rw [laid.others address (by omega), Bytes.overlay_outside (by omega),
          Bytes.overlay_outside (by omega)]

/-! ## The stack of a new program -/

/-- The strings and the array fit into the pages that are mapped. -/
def ArgsFit (kargv : List Bytes) : Prop :=
  roundUp (bytesOf kargv) 8 + 8 * (kargv.length + 1) ≤ 4 * pgSize

/-- What the program finds. String `k` stands at `place k`. -/
structure ArgsHold (memory : Bytes) (kargv : List Bytes) (start : UserStart) (place : Nat → Nat) :
    Prop where
  argc : start.a0 = kargv.length
  argv : start.a1 = start.sp
  /-- Only the pages of the stack are written to. -/
  others : ∀ address, ¬ StackMapped address → start.memory address = memory address
  /-- Everything is at the stack pointer or above it. -/
  mapped : uStackTop - 4 * pgSize ≤ start.sp
  pointers : ∀ k < kargv.length, start.memory.number (start.sp + 8 * k) 8 = place k
  null : start.memory.number (start.sp + 8 * kargv.length) 8 = 0
  strings : ∀ k (less : k < kargv.length), ∃ n, EndsAt kargv[k] 0 n ∧
    (∀ j ≤ n, start.memory (place k + j) = kargv[k] j) ∧
    -- the string lies behind the array, and ends before the next one starts
    start.sp + 8 * (kargv.length + 1) ≤ place k ∧ place k + n < uStackTop ∧
    ∀ l, k < l → l < kargv.length → place k + n < place l

theorem bytesOf_le (isArgs : ∀ arg ∈ kargv, IsArg arg) :
    bytesOf kargv ≤ kargv.length * (execMaxArgLen + 1) := by
  induction kargv with
  | nil => exact Nat.zero_le _
  | cons arg rest inductionHypothesis =>
      have first := (isArgs arg List.mem_cons_self).endsAt.1
      have others := inductionHypothesis fun other member =>
        isArgs other (List.mem_cons_of_mem _ member)
      have whole : bytesOf (arg :: rest) = argBytes arg + bytesOf rest := rfl
      rw [whole, List.length_cons, Nat.succ_mul]
      omega

theorem argvSize_eq (small : bytesOf kargv < 2 ^ 32) : argvSize kargv = bytesOf kargv := by
  have general : ∀ size, size + bytesOf kargv < 2 ^ 32 →
      kargv.foldl (fun size arg => u32 (size + argBytes arg)) size = size + bytesOf kargv := by
    clear small
    induction kargv with
    | nil => exact fun _ _ => rfl
    | cons arg rest inductionHypothesis =>
        intro size small
        have whole : bytesOf (arg :: rest) = argBytes arg + bytesOf rest := rfl
        rw [whole] at small ⊢
        rw [List.foldl_cons, u32_of_lt (by omega), inductionHypothesis _ (by omega), Nat.add_assoc]
  exact (general 0 (by omega)).trans (Nat.zero_add _)

/-- Where the strings and the array are put. -/
theorem Accepted.places (accepted : Accepted kargv) :
    argStacktop kargv + roundUp (bytesOf kargv) 8 = uStackTop ∧
      argUargv kargv + 8 * (kargv.length + 1) = argStacktop kargv ∧
      bytesOf kargv ≤ roundUp (bytesOf kargv) 8 := by
  have size := bytesOf_le accepted.strings
  have few := accepted.few
  unfold execMaxArgNum at few
  unfold execMaxArgLen at size
  have total : bytesOf kargv ≤ 131072 := by omega
  have top : argStacktop kargv + roundUp (bytesOf kargv) 8 = uStackTop := by
    unfold argStacktop
    rw [argvSize_eq (by omega)]
    unfold sub32 u32 roundDown roundUp roundDown uStackTop userTop
    omega
  refine ⟨top, ?_, ?_⟩
  · have high : uStackTop - 200000 ≤ argStacktop kargv := by
      unfold roundUp roundDown at top
      omega
    have small : uStackTop < 2 ^ 32 := by decide
    have large : 1000000 < uStackTop := by decide
    unfold argUargv
    omega
  · unfold roundUp roundDown
    omega

theorem bytesBefore_succ {k : Nat} (less : k < kargv.length) :
    bytesBefore kargv (k + 1) = bytesBefore kargv k + argBytes kargv[k] := by
  unfold bytesBefore
  rw [List.take_succ_eq_append_getElem less, List.map_append, List.sum_append]
  rfl

theorem bytesBefore_mono {k l : Nat} (le : k ≤ l) (within : l ≤ kargv.length) :
    bytesBefore kargv k ≤ bytesBefore kargv l := by
  induction l with
  | zero =>
      obtain rfl : k = 0 := by omega
      exact Nat.le_refl _
  | succ l inductionHypothesis =>
      by_cases same : k = l + 1
      · rw [same]
      · have before := inductionHypothesis (by omega) (by omega)
        rw [bytesBefore_succ within]
        omega

theorem bytesBefore_length (kargv : List Bytes) : bytesBefore kargv kargv.length = bytesOf kargv := by
  rw [bytesBefore, List.take_length, bytesOf]

/-- Where everything fits, the layout succeeds and is right. -/
theorem setUpArgs_holds (memory : Bytes) (accepted : Accepted kargv) (fits : ArgsFit kargv) :
    ∃ start place, setUpArgs memory kargv = .ok start ∧ ArgsHold memory kargv start place := by
  obtain ⟨top, array, within⟩ := accepted.places
  unfold ArgsFit at fits
  have low : uStackTop - 4 * pgSize ≤ argUargv kargv := by omega
  obtain ⟨after, returns, laid⟩ := @layoutArgs_spec memory (argStacktop kargv) (argUargv kargv) kargv
    accepted.strings 0 0 (by omega) (by omega) (by omega)
  refine ⟨⟨after, argUargv kargv, kargv.length, argUargv kargv⟩,
    fun k => argStacktop kargv + 0 + bytesBefore kargv k, ?_, rfl, rfl, fun address outside => ?_, low,
    fun k less => ?_, ?_, fun k less => ?_⟩
  · unfold setUpArgs
    rw [returns]
    rfl
  · refine laid.others address ?_
    unfold StackMapped at outside
    omega
  · have pointer := laid.pointers k less
    rwa [Nat.zero_add] at pointer
  · have null := laid.null
    rwa [Nat.zero_add] at null
  · obtain ⟨short, ends⟩ := (accepted.strings kargv[k] (List.getElem_mem less)).endsAt
    have positive : 0 < argBytes kargv[k] := Nat.succ_pos _
    have next := bytesBefore_succ less
    have all := bytesBefore_mono (show k + 1 ≤ kargv.length from less) (Nat.le_refl _)
    rw [bytesBefore_length] at all
    refine ⟨argBytes kargv[k] - 1, ends, fun j upTo => laid.strings k less j (by omega), ?_, ?_,
      fun l before inside => ?_⟩
    · dsimp only
      omega
    · omega
    · have later := bytesBefore_mono (show k + 1 ≤ l from before) (Nat.le_of_lt inside)
      omega

/-- Where it does not, the first store faults. -/
theorem setUpArgs_faults (memory : Bytes) (accepted : Accepted kargv) (tooLong : ¬ ArgsFit kargv) :
    setUpArgs memory kargv = .error (.pageFault (argUargv kargv)) := by
  obtain ⟨top, array, within⟩ := accepted.places
  unfold ArgsFit at tooLong
  have large : 4 * pgSize ≤ uStackTop := by decide
  have outside : ¬ StackMapped (argUargv kargv + 8 * 0) := by
    unfold StackMapped
    omega
  have faults : ∀ value, storePointer memory (argUargv kargv + 8 * 0) value =
      .error (.pageFault (argUargv kargv)) := fun value => if_neg fun both => outside both.1
  unfold setUpArgs
  cases kargv with
  | nil => exact absurd accepted.some' (by decide)
  | cons arg rest =>
      rw [layoutArgs_cons, faults]
      rfl

/-- The arguments that `do_execve` accepts, `copy_kargv` has copied in. Of these and of any others of
that kind, the layout succeeds, and is right, exactly where everything fits into the mapped pages. -/
theorem argv_layout (memory : Bytes) {kargv : List Bytes} :
    (∀ user kmalloc fuel mm after argc argv, (∀ cached, mm = some cached → WholePages cached) →
      copyKargv user kmalloc fuel mm argc argv = .ok (.ok kargv, after) →
      CopiedIn user argc argv kargv ∧ Accepted kargv) ∧
    (Accepted kargv →
      ((∃ start place, setUpArgs memory kargv = .ok start ∧ ArgsHold memory kargv start place) ↔
        ArgsFit kargv)) := by
  refine ⟨fun user kmalloc fuel mm after argc argv pages returns => ?_, fun accepted => ?_⟩
  · have copied := copyKargv_copies pages returns
    exact ⟨copied, copied.accepted⟩
  · refine ⟨fun ⟨start, place, returns, _⟩ => ?_, setUpArgs_holds memory accepted⟩
    by_contra tooLong
    rw [setUpArgs_faults memory accepted tooLong] at returns
    cases returns

/-! Pointers from `0x800000` on, all to one string of `length` letters at `0x801000`. -/

def userArgs (length : Nat) : Bytes := fun address =>
  if address < 0x801000 then if address % 8 = 1 then 0x10 else if address % 8 = 2 then 0x80 else 0
  else if address < 0x801000 + length then 65
  else 0

theorem userArgs_endsAt (length : Nat) : EndsAt (userArgs length) 0x801000 length := by
  unfold EndsAt userArgs
  refine ⟨?_, fun i less => ?_⟩
  · rw [if_neg (by omega), if_neg (by omega)]
  · rw [if_neg (by omega), if_pos (by omega)]
    decide

def allCopied : Except Stop (Except ExecError (List Bytes) × Option CachedMm) → Bool
  | .ok (.ok _, _) => true
  | _ => false

theorem of_allCopied {result : Except Stop (Except ExecError (List Bytes) × Option CachedMm)}
    (all : allCopied result = true) : ∃ kargv after, result = .ok (.ok kargv, after) := by
  unfold allCopied at all
  split at all
  · exact ⟨_, _, rfl⟩
  · cases all

/-- What copies of one string take. -/
theorem CopiedIn.bytesOf_userArgs {length argc : Nat} (short : argc ≤ 32)
    (copied : CopiedIn (userArgs length) argc 0x800000 kargv) :
    bytesOf kargv = argc * (length + 1) := by
  have pointer : ∀ k < 32, (userArgs length).number (0x800000 + 8 * k) 8 = 0x801000 := by
    have first : ∀ k < 32, (userArgs 0).number (0x800000 + 8 * k) 8 = 0x801000 := by decide +kernel
    intro k less
    rw [← first k less]
    apply Bytes.number_congr
    intro position from' until'
    have inArray : position < 0x801000 := by omega
    simp only [userArgs, if_pos inArray]
  have each : ∀ size ∈ kargv.map argBytes, size = length + 1 := by
    intro size member
    obtain ⟨arg, isArg, rfl⟩ := List.mem_map.mp member
    obtain ⟨k, less, rfl⟩ := List.getElem_of_mem isArg
    have inArray := copied.argc
    have copy := copied.strings k less
    rw [pointer k (by omega)] at copy
    have same := endsAt_unique copy.isArg.endsAt.2 (copy.endsAt (userArgs_endsAt length)).2
    have positive : 0 < argBytes kargv[k] := Nat.succ_pos _
    omega
  rw [bytesOf, List.eq_replicate_of_mem each, List.sum_replicate_nat, List.length_map, copied.argc]

/-- Sixteen arguments of 1023 letters. -/
theorem argv_layout_faults : ∃ kargv after, copyKargv (userArgs 1023) (fun _ => some Bytes.zeros) 2
      (some twoAreas) 16 0x800000 = .ok (.ok kargv, after) ∧
    ∃ address, ¬ StackMapped address ∧
      setUpArgs Bytes.zeros kargv = .error (.pageFault address) := by
  obtain ⟨kargv, after, returns⟩ := @of_allCopied (copyKargv (userArgs 1023)
    (fun _ => some Bytes.zeros) 2 (some twoAreas) 16 0x800000) (by decide +kernel)
  have copied := copyKargv_copies twoAreas_pages returns
  have total := copied.bytesOf_userArgs (by decide)
  have tooLong : ¬ ArgsFit kargv := by
    unfold ArgsFit
    rw [total, copied.argc]
    decide
  obtain ⟨top, array, _⟩ := copied.accepted.places
  refine ⟨kargv, after, returns, _, ?_, setUpArgs_faults Bytes.zeros copied.accepted tooLong⟩
  rw [total] at top
  rw [copied.argc] at array
  unfold StackMapped
  have large : uStackTop = 0x80000000 := rfl
  have rounded : roundUp (16 * (1023 + 1)) 8 = 16384 := rfl
  have pages : 4 * pgSize = 16384 := rfl
  omega

/-- Two arguments of three letters. -/
theorem argv_layout_two : ∃ kargv after, copyKargv (userArgs 3) (fun _ => some Bytes.zeros) 2
      (some twoAreas) 2 0x800000 = .ok (.ok kargv, after) ∧
    ∃ start place, setUpArgs Bytes.zeros kargv = .ok start ∧
      ArgsHold Bytes.zeros kargv start place := by
  obtain ⟨kargv, after, returns⟩ := @of_allCopied (copyKargv (userArgs 3)
    (fun _ => some Bytes.zeros) 2 (some twoAreas) 2 0x800000) (by decide +kernel)
  obtain ⟨copied, accepted⟩ := (@argv_layout Bytes.zeros kargv).1 _ _ _ _ _ _ _ twoAreas_pages returns
  refine ⟨kargv, after, returns, ((@argv_layout Bytes.zeros kargv).2 accepted).mpr ?_⟩
  unfold ArgsFit
  rw [copied.bytesOf_userArgs (by decide), copied.argc]
  decide

end UCore.Process
