import UCore.Lib.Bytes
import UCore.Mm.UserMemCheck

/-!
Contract: `copy_string` of `kern/mm/vmm.c`.

Owns:
- `strnlen`, and `copy_string` with what it reads and writes;
- that it copies exactly the strings that end in time and can be read.

Memory is what the bytes of it hold while the call runs. A process has its own `mm`; a kernel thread
has none.

Does not own: `user_mem_check`, which is in `Mm.UserMemCheck`.
-/

set_option autoImplicit false

namespace UCore.Mm

open UCore.Lib

/-- `strnlen`, with the bytes that it reads. -/
def strnlen (memory : Bytes) (s : Nat) : Nat → Nat × List Nat
  | 0 => (0, [])
  | len + 1 =>
      if memory s ≠ 0 then
        let (cnt, reads) := strnlen memory (s + 1) len
        (cnt + 1, s :: reads)
      else (0, [s])

/-- What `memcpy` reads, and what it writes. -/
def bytesAt (memory : Bytes) (src n : Nat) : List UInt8 := (List.range' src n).map memory

/-- What a call of `copy_string` did: its result, the bytes it wrote from `dst` on, the addresses it
read, and the `mm` with the cache that is left. -/
structure StringCopy where
  result : Bool
  dst : List UInt8
  reads : List Nat
  mm : Option CachedMm

/-- The loop of `copy_string`. -/
def copyStringLoop (memory : Bytes) :
    Nat → Option CachedMm → (src part maxn : Nat) → List UInt8 → List Nat → Except Stop StringCopy
  | 0, _, _, _, _, _, _ => .error .outOfFuel
  | fuel + 1, mm, src, part, maxn, dst, reads =>
      let part := if part > maxn then maxn else part
      let (passes, mm) := CachedMm.userMemCheck mm src part false
      if passes = false then .ok ⟨false, dst, reads, mm⟩
      else
        let (alen, seen) := strnlen memory src part
        if alen < part then
          .ok ⟨true, dst ++ bytesAt memory src (alen + 1),
            reads ++ seen ++ List.range' src (alen + 1), mm⟩
        else if part = maxn then .ok ⟨false, dst, reads ++ seen, mm⟩
        else
          copyStringLoop memory fuel mm ((src + part) % 2 ^ 64) pgSize (maxn - part)
            (dst ++ bytesAt memory src part) (reads ++ seen ++ List.range' src part)

/-- `copy_string`: the first part goes to the end of the page. -/
def copyString (memory : Bytes) (fuel : Nat) (mm : Option CachedMm) (src maxn : Nat) :
    Except Stop StringCopy :=
  copyStringLoop memory fuel mm src
    ((roundDown ((src + pgSize) % 2 ^ 64) pgSize + (2 ^ 64 - src)) % 2 ^ 64) maxn [] []

/-! ## Strings -/

variable {memory : Bytes} {src maxn part n : Nat}

/-- `strnlen` stops at the first NUL, or at the length it is given. -/
structure Strnlen (memory : Bytes) (src len : Nat) : Prop where
  short : (strnlen memory src len).1 ≤ len
  before : ∀ i < (strnlen memory src len).1, memory (src + i) ≠ 0
  stops : (strnlen memory src len).1 < len → memory (src + (strnlen memory src len).1) = 0
  reads : ∀ address ∈ (strnlen memory src len).2, ∃ i < len, address = src + i

theorem strnlen_spec (memory : Bytes) (src len : Nat) : Strnlen memory src len := by
  induction len generalizing src with
  | zero => exact ⟨Nat.le_refl 0, fun i less => (nomatch less), fun less => (nomatch less),
      fun address member => absurd member List.not_mem_nil⟩
  | succ len inductionHypothesis =>
      obtain ⟨short, before, stops, reads⟩ := inductionHypothesis (src + 1)
      by_cases nul : memory src = 0
      · have here : strnlen memory src (len + 1) = (0, [src]) := if_neg (not_not.mpr nul)
        constructor <;> rw [here]
        · exact Nat.zero_le _
        · exact fun i less => (nomatch less)
        · exact fun _ => nul
        · exact fun address member => ⟨0, Nat.succ_pos _, List.mem_singleton.mp member⟩
      · have on : strnlen memory src (len + 1) =
            ((strnlen memory (src + 1) len).1 + 1, src :: (strnlen memory (src + 1) len).2) :=
          if_pos nul
        have shift : ∀ i, src + 1 + i = src + (i + 1) := fun i => by omega
        constructor <;> rw [on]
        · exact Nat.succ_le_succ short
        · intro i less
          cases i with
          | zero => exact nul
          | succ i =>
              rw [← shift]
              exact before i (Nat.lt_of_succ_lt_succ less)
        · intro less
          dsimp only
          rw [← shift]
          exact stops (Nat.lt_of_succ_lt_succ less)
        · intro address member
          rcases List.mem_cons.mp member with rfl | later
          · exact ⟨0, Nat.succ_pos _, rfl⟩
          · obtain ⟨i, less, same⟩ := reads address later
            exact ⟨i + 1, Nat.succ_lt_succ less, same.trans (shift i)⟩

/-- The string at `src` ends with its byte `n`. -/
def EndsAt (memory : Bytes) (src n : Nat) : Prop :=
  memory (src + n) = 0 ∧ ∀ i < n, memory (src + i) ≠ 0

theorem bytesAt_append (memory : Bytes) (src m n : Nat) :
    bytesAt memory src m ++ bytesAt memory (src + m) n = bytesAt memory src (m + n) := by
  unfold bytesAt
  rw [← List.map_append, List.range'_append_1]

/-! ## Readable pages -/

/-- The byte is approved by `user_mem_check`. -/
def Readable (mm : Option CachedMm) (address : Nat) : Prop :=
  (CachedMm.userMemCheck mm address 1 false).1 = true

/-- The areas are made of whole pages, disjoint, and searched through a cache that holds one. -/
structure WholePages (mm : CachedMm) : Prop where
  searchable : Searchable mm
  aligned : ∀ vma ∈ mm.mmapList, vma.vmStart % pgSize = 0 ∧ vma.vmEnd % pgSize = 0

/-- What a check of a part of a page tells. -/
structure PartChecked (mm : Option CachedMm) (src part : Nat) (passes : Bool)
    (mm' : Option CachedMm) : Prop where
  approved : passes = true → src + part < 2 ^ 64 ∧ ∀ i < part, Readable mm (src + i)
  refused : passes = false → ¬ Readable mm src
  same : ∀ address, Readable mm' address ↔ Readable mm address
  whole : ∀ after, mm' = some after → WholePages after

theorem readable_iff {mm : CachedMm} (searchable : Searchable mm) (address : Nat) :
    Readable (some mm) address ↔
      InUserMemory address 1 ∧ Accessible mm.mmapList false address := by
  unfold Readable
  rw [(userMemCheck_cached searchable.apart searchable.known address 1 false).1,
    userMemCheck_iff mm.toMmStruct searchable.apart Nat.one_pos (by decide)]
  refine and_congr_right fun _ => ⟨fun all => all address (Nat.le_refl _) (Nat.lt_succ_self _),
    fun accessible byte from' until' => ?_⟩
  rwa [show byte = address by omega]

theorem checked_part_user {mm : CachedMm} (pages : WholePages mm) (positive : 0 < part)
    (inPage : src % pgSize + part ≤ pgSize) :
    PartChecked (some mm) src part (CachedMm.userMemCheck (some mm) src part false).1
      (CachedMm.userMemCheck (some mm) src part false).2 := by
  have searchable := pages.searchable
  obtain ⟨plain, mm', isAfter, sameVmas⟩ :=
    userMemCheck_cached searchable.apart searchable.known src part false
  have searchable' := sameVmas.searchable searchable
  have word : part < 2 ^ 64 := by
    unfold pgSize at inPage
    omega
  have exactly := @userMemCheck_iff src part false mm.toMmStruct searchable.apart positive word
  rw [isAfter]
  refine ⟨fun passes => ?_, fun fails readable => ?_, fun address => ?_, ?_⟩
  · rw [plain] at passes
    obtain ⟨user, all⟩ := exactly.mp passes
    refine ⟨user.1, fun i less => (readable_iff searchable (src + i)).mpr ⟨?_, ?_⟩⟩
    · unfold InUserMemory at user ⊢
      omega
    · exact all (src + i) (Nat.le_add_right _ _) (Nat.add_lt_add_left less _)
  · obtain ⟨user, vma, member, contains, permits⟩ := (readable_iff searchable src).mp readable
    have passes : userMemCheck (some mm.toMmStruct) src part false = true := by
      refine exactly.mpr ⟨?_, fun byte from' until' => ⟨vma, member, ?_, permits.1, nofun⟩⟩
      · unfold InUserMemory userBase userTop at user ⊢
        unfold pgSize at inPage
        omega
      · -- the area ends at the end of a page
        have aligned := (pages.aligned vma member).2
        unfold Vma.Contains at contains ⊢
        unfold pgSize at inPage aligned
        omega
    rw [plain, passes] at fails
    cases fails
  · rw [readable_iff searchable', readable_iff searchable, sameVmas.list]
  · rintro after ⟨⟩
    refine ⟨searchable', ?_⟩
    rw [sameVmas.list]
    exact pages.aligned

/-- A kernel thread reads kernel memory. -/
theorem checked_part_kernel (positive : 0 < part) (inPage : src % pgSize + part ≤ pgSize) :
    PartChecked none src part (CachedMm.userMemCheck none src part false).1
      (CachedMm.userMemCheck none src part false).2 := by
  have exactly : ∀ {address len}, (CachedMm.userMemCheck none address len false).1 = true ↔
      KernAccess address ((address + len) % 2 ^ 64) := decide_eq_true_iff
  refine ⟨fun passes => ?_, fun fails readable => ?_, fun address => Iff.rfl, nofun⟩
  · have access := exactly.mp passes
    unfold KernAccess kernTop kernBase kmemSize at access
    unfold pgSize at inPage
    refine ⟨by omega, fun i less => exactly.mpr ?_⟩
    unfold KernAccess kernTop kernBase kmemSize
    omega
  · have access := exactly.mp readable
    have passes : (CachedMm.userMemCheck none src part false).1 = true := by
      rw [exactly]
      unfold KernAccess kernTop kernBase kmemSize at access ⊢
      unfold pgSize at inPage
      omega
    exact Bool.noConfusion (passes.symm.trans fails)

theorem checked_part {mm : Option CachedMm} (pages : ∀ user, mm = some user → WholePages user)
    (positive : 0 < part) (inPage : src % pgSize + part ≤ pgSize) :
    PartChecked mm src part (CachedMm.userMemCheck mm src part false).1
      (CachedMm.userMemCheck mm src part false).2 := by
  cases mm with
  | none => exact checked_part_kernel positive inPage
  | some user => exact checked_part_user (pages user rfl) positive inPage

/-! ## copy_string -/

/-- The string at `src` ends within `maxn` bytes, all of which can be read. -/
def ReadableString (memory : Bytes) (mm : Option CachedMm) (src maxn : Nat) : Prop :=
  ∃ n < maxn, EndsAt memory src n ∧ ∀ i ≤ n, Readable mm (src + i)

/-- What the rest of a call does: `written` from where `dst` points, and the bytes it reads. -/
structure CopiesString (memory : Bytes) (mm : Option CachedMm) (src maxn : Nat) (result : Bool)
    (written : List UInt8) (reads : List Nat) : Prop where
  exactly : result = true ↔ ReadableString memory mm src maxn
  copied : result = true → ∃ n, EndsAt memory src n ∧ written = bytesAt memory src (n + 1)
  within : written.length ≤ maxn
  approved : ∀ address ∈ reads, Readable mm address

theorem length_bytesAt (memory : Bytes) (src n : Nat) : (bytesAt memory src n).length = n := by
  rw [bytesAt, List.length_map, List.length_range']

theorem mem_part {address : Nat} (member : address ∈ List.range' src n) :
    ∃ i < n, address = src + i := by
  obtain ⟨i, less, same⟩ := List.mem_range'.mp member
  exact ⟨i, less, by omega⟩

/-- A part of a page without a NUL, and the string behind it. -/
theorem CopiesString.after {mm mm' : Option CachedMm} {result : Bool} {written : List UInt8}
    {seen reads : List Nat} (rest : CopiesString memory mm' (src + part) (maxn - part) result written reads)
    (same : ∀ address, Readable mm' address ↔ Readable mm address) (less : part < maxn)
    (noNul : ∀ i < part, memory (src + i) ≠ 0) (approved : ∀ i < part, Readable mm (src + i))
    (inPart : ∀ address ∈ seen, ∃ i < part, address = src + i) :
    CopiesString memory mm src maxn result (bytesAt memory src part ++ written)
      (seen ++ List.range' src part ++ reads) where
  exactly := by
    rw [rest.exactly]
    constructor
    · rintro ⟨n, short, ⟨nul, before⟩, readable⟩
      refine ⟨part + n, by omega, ⟨?_, fun i earlier => ?_⟩, fun i upTo => ?_⟩
      · rwa [← Nat.add_assoc]
      · by_cases inFirst : i < part
        · exact noNul i inFirst
        · have later := before (i - part) (by omega)
          rwa [show src + part + (i - part) = src + i by omega] at later
      · by_cases inFirst : i < part
        · exact approved i inFirst
        · have later := (same _).mp (readable (i - part) (by omega))
          rwa [show src + part + (i - part) = src + i by omega] at later
    · rintro ⟨n, short, ⟨nul, before⟩, readable⟩
      have beyond : part ≤ n := Nat.not_lt.mp fun inFirst => noNul n inFirst nul
      refine ⟨n - part, by omega, ⟨?_, fun i earlier => ?_⟩, fun i upTo => (same _).mpr ?_⟩
      · rwa [show src + part + (n - part) = src + n by omega]
      · rw [Nat.add_assoc]
        exact before (part + i) (by omega)
      · rw [Nat.add_assoc]
        exact readable (part + i) (by omega)
  copied := by
    intro done
    obtain ⟨n, ⟨nul, before⟩, isWritten⟩ := rest.copied done
    refine ⟨part + n, ⟨?_, fun i earlier => ?_⟩, ?_⟩
    · rwa [← Nat.add_assoc]
    · by_cases inFirst : i < part
      · exact noNul i inFirst
      · have later := before (i - part) (by omega)
        rwa [show src + part + (i - part) = src + i by omega] at later
    · rw [isWritten, bytesAt_append, Nat.add_assoc]
  within := by
    have short := rest.within
    rw [List.length_append, length_bytesAt]
    omega
  approved := by
    intro address member
    rcases List.mem_append.mp member with inFirst | later
    · obtain ⟨i, inside, rfl⟩ := (List.mem_append.mp inFirst).elim (inPart address) mem_part
      exact approved i inside
    · exact (same address).mp (rest.approved address later)

/-- More fuel makes no difference. -/
theorem copyStringLoop_more {fuel fuel' : Nat} {mm : Option CachedMm} {dst : List UInt8}
    {reads : List Nat} {copy : StringCopy}
    (returns : copyStringLoop memory fuel mm src part maxn dst reads = .ok copy)
    (more : fuel ≤ fuel') : copyStringLoop memory fuel' mm src part maxn dst reads = .ok copy := by
  induction fuel generalizing fuel' mm src part maxn dst reads with
  | zero => cases returns
  | succ fuel inductionHypothesis =>
      obtain ⟨fuel', rfl⟩ : ∃ smaller, fuel' = smaller + 1 := ⟨fuel' - 1, by omega⟩
      unfold copyStringLoop at returns ⊢
      dsimp only at returns ⊢
      cases outcome : CachedMm.userMemCheck mm src (if part > maxn then maxn else part) false with
      | mk passes mm' =>
          rw [outcome] at returns
          dsimp only at returns ⊢
          split_ifs at returns ⊢
          all_goals first
            | exact returns
            | exact inductionHypothesis returns (Nat.le_of_succ_le_succ more)

/-- The loop starts where `part` reaches to the end of the page. -/
theorem copyStringLoop_spec {fuel : Nat} {mm : Option CachedMm} {dst : List UInt8} {reads : List Nat}
    (pages : ∀ user, mm = some user → WholePages user) (some' : 0 < maxn) (positive : 0 < part)
    (toPageEnd : src % pgSize + part = pgSize) (enough : maxn ≤ fuel) :
    ∃ result written seen mm', copyStringLoop memory fuel mm src part maxn dst reads =
        .ok ⟨result, dst ++ written, reads ++ seen, mm'⟩ ∧
      CopiesString memory mm src maxn result written seen := by
  induction fuel generalizing mm src part maxn dst reads with
  | zero => omega
  | succ fuel inductionHypothesis =>
      unfold copyStringLoop
      -- the part that is looked at
      obtain ⟨here, isHere⟩ : ∃ here, (if part > maxn then maxn else part) = here := ⟨_, rfl⟩
      have bounds : 0 < here ∧ here ≤ maxn ∧ here ≤ part ∧ (here = maxn ∨ here = part) := by
        split_ifs at isHere <;> omega
      obtain ⟨hereSome, hereMax, herePart, either⟩ := bounds
      have checked := checked_part pages hereSome
        (show src % pgSize + here ≤ pgSize by omega)
      have string := strnlen_spec memory src here
      dsimp only
      rw [isHere]
      cases outcome : CachedMm.userMemCheck mm src here false with
      | mk passes mm' =>
          rw [outcome] at checked
          dsimp only at checked ⊢
          cases passes with
          | false =>
              refine ⟨false, [], [], mm', ?_, ?_, ?_, Nat.zero_le _, ?_⟩
              · rw [if_pos rfl, List.append_nil, List.append_nil]
              · refine iff_of_false Bool.false_ne_true fun readable => ?_
                obtain ⟨n, _, _, readable⟩ := readable
                exact checked.refused rfl (readable 0 (Nat.zero_le _))
              · exact nofun
              · exact fun address member => absurd member List.not_mem_nil
          | true =>
              obtain ⟨small, approved⟩ := checked.approved rfl
              have inPart := string.reads
              have seenApproved : ∀ address ∈ (strnlen memory src here).2, Readable mm address := by
                intro address member
                obtain ⟨i, less, rfl⟩ := inPart address member
                exact approved i less
              rw [if_neg (nofun : ¬ true = false)]
              by_cases ended : (strnlen memory src here).1 < here
              · rw [if_pos ended]
                have ends : EndsAt memory src (strnlen memory src here).1 :=
                  ⟨string.stops ended, string.before⟩
                refine ⟨true, _, _, mm', by rw [List.append_assoc], ?_, ?_, ?_, ?_⟩
                · exact iff_of_true rfl ⟨_, by omega, ends, fun i upTo => approved i (by omega)⟩
                · exact fun _ => ⟨_, ends, rfl⟩
                · rw [length_bytesAt]
                  omega
                · intro address member
                  rcases List.mem_append.mp member with inSeen | inCopy
                  · exact seenApproved address inSeen
                  · obtain ⟨i, less, rfl⟩ := mem_part inCopy
                    exact approved i (by omega)
              · rw [if_neg ended]
                have noNul : ∀ i < here, memory (src + i) ≠ 0 := fun i less =>
                  string.before i (by omega)
                by_cases last : here = maxn
                · rw [if_pos last]
                  refine ⟨false, [], _, mm', by rw [List.append_nil], ?_, nofun, Nat.zero_le _,
                    seenApproved⟩
                  refine iff_of_false Bool.false_ne_true fun readable => ?_
                  obtain ⟨n, short, ⟨nul, _⟩, _⟩ := readable
                  exact noNul n (last ▸ short) nul
                · rw [if_neg last, Nat.mod_eq_of_lt small]
                  have aligned : (src + here) % pgSize = 0 := by
                    unfold pgSize at toPageEnd ⊢
                    omega
                  obtain ⟨result, written, seen, mm'', returns, rest⟩ :=
                    @inductionHypothesis (src + here) (maxn - here) pgSize mm'
                      (dst ++ bytesAt memory src here)
                      (reads ++ (strnlen memory src here).2 ++ List.range' src here)
                      checked.whole (by omega) (by decide) (by rw [aligned, Nat.zero_add]) (by omega)
                  refine ⟨result, _, _, mm'', ?_, rest.after checked.same (by omega) noNul approved
                    inPart⟩
                  rw [returns]
                  simp only [List.append_assoc]

theorem copyString_spec {mm : Option CachedMm} (pages : ∀ user, mm = some user → WholePages user)
    (address : src < 2 ^ 64) (some' : 0 < maxn) :
    ∃ result written reads mm', (∀ fuel, maxn ≤ fuel →
        copyString memory fuel mm src maxn = .ok ⟨result, written, reads, mm'⟩) ∧
      CopiesString memory mm src maxn result written reads := by
  obtain ⟨part, isPart⟩ : ∃ part, (roundDown ((src + pgSize) % 2 ^ 64) pgSize + (2 ^ 64 - src)) %
      2 ^ 64 = part := ⟨_, rfl⟩
  have toPageEnd : src % pgSize + part = pgSize := by
    unfold roundDown pgSize at isPart
    unfold pgSize
    omega
  have positive : 0 < part := by
    unfold pgSize at toPageEnd
    omega
  obtain ⟨result, written, reads, mm', returns, copies⟩ :=
    @copyStringLoop_spec memory src maxn part maxn mm [] [] pages some' positive toPageEnd
      (Nat.le_refl _)
  refine ⟨result, written, reads, mm', fun fuel enough => ?_, copies⟩
  rw [copyString, isPart]
  exact copyStringLoop_more returns enough

/-- Whatever the fuel, a call that returns does what it should. -/
theorem copiesString_of_returns {fuel : Nat} {mm : Option CachedMm} {copy : StringCopy}
    (pages : ∀ user, mm = some user → WholePages user) (address : src < 2 ^ 64) (some' : 0 < maxn)
    (returns : copyString memory fuel mm src maxn = .ok copy) :
    CopiesString memory mm src maxn copy.result copy.dst copy.reads := by
  obtain ⟨result, written, reads, mm', enough, copies⟩ := copyString_spec pages address some'
  have same : copyString memory (max fuel maxn) mm src maxn = .ok copy :=
    copyStringLoop_more returns (Nat.le_max_left _ _)
  obtain rfl := Except.ok.inj (same.symm.trans (enough _ (Nat.le_max_right _ _)))
  exact copies

/-- A check leaves the areas as they are. -/
theorem wholePages_userMemCheck {mm : Option CachedMm} {addr len : Nat} {write : Bool}
    (pages : ∀ user, mm = some user → WholePages user) :
    ∀ after, (CachedMm.userMemCheck mm addr len write).2 = some after → WholePages after := by
  intro after isAfter
  cases mm with
  | none => cases isAfter
  | some user =>
      have before := pages user rfl
      obtain ⟨_, mm', same, sameVmas⟩ :=
        userMemCheck_cached before.searchable.apart before.searchable.known addr len write
      obtain rfl := Option.some.inj (isAfter.symm.trans same)
      refine ⟨sameVmas.searchable before.searchable, ?_⟩
      rw [sameVmas.list]
      exact before.aligned

theorem wholePages_copyStringLoop {fuel : Nat} {mm : Option CachedMm} {dst : List UInt8}
    {reads : List Nat} {copy : StringCopy} (pages : ∀ user, mm = some user → WholePages user)
    (returns : copyStringLoop memory fuel mm src part maxn dst reads = .ok copy) :
    ∀ after, copy.mm = some after → WholePages after := by
  induction fuel generalizing mm src part maxn dst reads with
  | zero => cases returns
  | succ fuel inductionHypothesis =>
      unfold copyStringLoop at returns
      dsimp only at returns
      have kept := @wholePages_userMemCheck mm src (if part > maxn then maxn else part) false pages
      cases outcome : CachedMm.userMemCheck mm src (if part > maxn then maxn else part) false with
      | mk passes mm' =>
          rw [outcome] at returns kept
          dsimp only at returns kept
          split_ifs at returns
          all_goals first
            | exact inductionHypothesis kept returns
            | exact Except.ok.inj returns ▸ kept

/-- `copy_string` returns. It succeeds exactly where the string ends within `maxn` bytes that all can
be read, and then copies the string with its NUL; it never writes more than `maxn` bytes, and never
reads one that `user_mem_check` does not approve. -/
theorem copy_string_exact (memory : Bytes) {mm : Option CachedMm}
    (pages : ∀ user, mm = some user → WholePages user) {src maxn : Nat} (address : src < 2 ^ 64)
    (some' : 0 < maxn) :
    ∃ copy, Returns (fun fuel => copyString memory fuel mm src maxn) copy ∧
      (copy.result = true ↔ ∃ n < maxn, (memory (src + n) = 0 ∧ ∀ i < n, memory (src + i) ≠ 0) ∧
        ∀ i ≤ n, (CachedMm.userMemCheck mm (src + i) 1 false).1 = true) ∧
      (copy.result = true → ∃ n, (memory (src + n) = 0 ∧ ∀ i < n, memory (src + i) ≠ 0) ∧
        copy.dst = (List.range' src (n + 1)).map memory) ∧
      copy.dst.length ≤ maxn ∧
      ∀ byte ∈ copy.reads, (CachedMm.userMemCheck mm byte 1 false).1 = true := by
  obtain ⟨result, written, reads, mm', returns, copies⟩ := copyString_spec pages address some'
  exact ⟨⟨result, written, reads, mm'⟩, ⟨maxn, returns⟩, copies.exactly, copies.copied,
    copies.within, copies.approved⟩

theorem twoAreas_pages : ∀ user, some twoAreas = some user → WholePages user := by
  rintro user ⟨⟩
  refine ⟨⟨?_, nofun⟩, ?_⟩
  · unfold Apart twoAreas
    decide
  · decide

/-- A string of three letters over the end of a page. -/
def threeLetters : Bytes := fun address => if address = 0x801002 then 0 else 65

theorem copy_string_exact_across :
    ∃ copy, Returns (fun fuel => copyString threeLetters fuel (some twoAreas) 0x800fff 4) copy ∧
      copy.result = true ∧ copy.dst = [65, 65, 65, 0] := by
  obtain ⟨copy, returns, exactly, copied, _⟩ :=
    @copy_string_exact threeLetters (some twoAreas) twoAreas_pages 0x800fff 4 (by decide) (by decide)
  have done := exactly.mpr ⟨3, by decide, by decide, by decide⟩
  refine ⟨copy, returns, done, ?_⟩
  obtain ⟨n, ⟨nul, _⟩, isDst⟩ := copied done
  have isThree : n = 3 := by
    by_contra different
    have letter : threeLetters (0x800fff + n) = 65 := if_neg (by omega)
    rw [letter] at nul
    cases nul
  rw [isDst, isThree]
  rfl

end UCore.Mm
