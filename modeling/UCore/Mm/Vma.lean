import Mathlib.Data.List.TakeWhile
import UCore.Mm.UserMem

/-!
Contract: the virtual memory areas of a process, `find_vma`, `insert_vma_struct`, `mm_map` and
`dup_mmap` of `kern/mm/vmm.c`.

Owns:
- the list of areas with its cache, and the functions on it;
- lists that are sorted, disjoint and page-aligned, and that an insertion keeps them so;
- what `mm_map` and `dup_mmap` do with such a list, and when `mm_map` stops the kernel.

Whether `kmalloc` has memory, and whether `copy_range` succeeds, is given with each call. `vm_mm` and
`vma_store` are left out: an area is a value here, and `mm_map` answers the new one.

Does not own: the pages behind the areas.
-/

set_option autoImplicit false

namespace UCore.Mm

open UCore.Lib

/-- `struct mm_struct`: its areas, `mmap_cache` and `map_count`. -/
structure CachedMm extends MmStruct where
  mmapCache : Option Vma
  mapCount : Nat
deriving DecidableEq, Repr

def Vma.Contains (vma : Vma) (addr : Nat) : Prop := vma.vmStart ≤ addr ∧ addr < vma.vmEnd

instance (vma : Vma) (addr : Nat) : Decidable (vma.Contains addr) :=
  inferInstanceAs (Decidable (_ ∧ _))

namespace CachedMm

def mmCreate : CachedMm := ⟨⟨[]⟩, none, 0⟩

/-- `find_vma` -/
def findVma (mm : CachedMm) (addr : Nat) : Option Vma × CachedMm :=
  let vma := match mm.mmapCache with
    | some vma =>
        if vma.vmStart ≤ addr ∧ vma.vmEnd > addr then some vma else Mm.findVma mm.toMmStruct addr
    | none => Mm.findVma mm.toMmStruct addr
  match vma with
  | some vma => (some vma, { mm with mmapCache := some vma })
  | none => (none, mm)

end CachedMm

/-- `vma_create`, which fails without memory. -/
def vmaCreate (memory : Bool) (vma : Vma) : Option Vma := if memory = true then some vma else none

def checkVmaOverlap (prev next : Vma) : Except Stop Unit :=
  if prev.vmStart < prev.vmEnd ∧ prev.vmEnd ≤ next.vmStart ∧ next.vmStart < next.vmEnd then .ok ()
  else .error .assertFailed

/-- The end of the list is not checked. -/
def checkNeighbour (check : Vma → Except Stop Unit) : Option Vma → Except Stop Unit
  | some vma => check vma
  | none => .ok ()

/-- `insert_vma_struct`: the new area goes before the first one that starts after it. -/
def insertVmaStruct (mm : CachedMm) (vma : Vma) : Except Stop CachedMm := do
  if vma.vmStart < vma.vmEnd then
    let before := mm.mmapList.takeWhile fun prev => ¬ prev.vmStart > vma.vmStart
    let after := mm.mmapList.dropWhile fun prev => ¬ prev.vmStart > vma.vmStart
    checkNeighbour (checkVmaOverlap · vma) before.getLast?
    checkNeighbour (checkVmaOverlap vma) after.head?
    .ok { mm with mmapList := before ++ vma :: after, mapCount := mm.mapCount + 1 }
  else .error .assertFailed

/-- `-E_INVAL` and `-E_NO_MEM` -/
inductive MmapError
  | inval
  | noMem
deriving DecidableEq, Repr

/-- Rounding in 64 bits. -/
def roundUp64 (address unit : Nat) : Nat := roundDown ((address + unit - 1) % 2 ^ 64) unit

def mapStart (addr : Nat) : Nat := roundDown addr pgSize

def mapEnd (addr len : Nat) : Nat := roundUp64 ((addr + len) % 2 ^ 64) pgSize

/-- The area that `mm_map` makes: `VM_READ`, `VM_WRITE` and `VM_STACK` are bits 0, 1 and 3. -/
def mapVma (addr len vmFlags : Nat) : Vma :=
  ⟨mapStart addr, mapEnd addr len, vmFlags.testBit 0, vmFlags.testBit 1, vmFlags.testBit 3⟩

/-- `mm_map`, with whether there is memory for an area. -/
def mmMap (mm : CachedMm) (addr len vmFlags : Nat) (memory : Bool) :
    Except Stop (Except MmapError Vma × CachedMm) :=
  if UserAccess (mapStart addr) (mapEnd addr len) then
    let create (mm : CachedMm) : Except Stop (Except MmapError Vma × CachedMm) :=
      match vmaCreate memory (mapVma addr len vmFlags) with
      | none => .ok (.error .noMem, mm)
      | some vma => do
          let mm ← insertVmaStruct mm vma
          pure (.ok vma, mm)
    match mm.findVma (mapStart addr) with
    | (some vma, mm) =>
        if mapEnd addr len > vma.vmStart then .ok (.error .inval, mm) else create mm
    | (none, mm) => create mm
  else .ok (.error .inval, mm)

/-- The checks that `copy_range` begins with. -/
def CopyRangeChecks (start stop : Nat) : Prop :=
  (start % pgSize = 0 ∧ stop % pgSize = 0) ∧ UserAccess start stop

instance (start stop : Nat) : Decidable (CopyRangeChecks start stop) :=
  inferInstanceAs (Decidable (_ ∧ _))

/-- The loop of `dup_mmap` over the areas of the source, with the areas there is memory for and those
whose pages are copied. It answers whether the return value is 0. -/
def dupMmapLoop (memory copied : Vma → Bool) (target : CachedMm) : List Vma → Except Stop (Bool × CachedMm)
  | [] => .ok (true, target)
  | vma :: rest =>
      match vmaCreate (memory vma) vma with
      | none => .ok (false, target)
      | some nvma => do
          let target ← insertVmaStruct target nvma
          if CopyRangeChecks vma.vmStart vma.vmEnd then
            if copied vma = true then dupMmapLoop memory copied target rest else pure (false, target)
          else .error .assertFailed

/-- `dup_mmap`, from the last area to the first. -/
def dupMmap (memory copied : Vma → Bool) (target source : CachedMm) : Except Stop (Bool × CachedMm) :=
  dupMmapLoop memory copied target source.mmapList.reverse

/-! ## Sound lists -/

/-- An area of whole pages of user memory. -/
structure Vma.Sound (vma : Vma) : Prop where
  nonempty : vma.vmStart < vma.vmEnd
  alignedStart : vma.vmStart % pgSize = 0
  alignedEnd : vma.vmEnd % pgSize = 0
  user : UserAccess vma.vmStart vma.vmEnd

/-- Sorted by start, and disjoint. -/
def Apart (list : List Vma) : Prop := list.Pairwise fun prev next => prev.vmEnd ≤ next.vmStart

/-- A list of areas that is sorted, disjoint and page-aligned. -/
structure VmasSound (list : List Vma) : Prop where
  apart : Apart list
  each : ∀ vma ∈ list, vma.Sound

variable {mm mm' target : CachedMm} {list : List Vma} {vma : Vma} {addr len vmFlags : Nat} {memory : Bool}

theorem VmasSound.nil : VmasSound [] :=
  ⟨List.Pairwise.nil, fun _ member => absurd member List.not_mem_nil⟩

/-- In a list of disjoint areas, at most one contains an address. -/
theorem Apart.unique {left right : Vma} (apart : Apart list) (leftMember : left ∈ list)
    (rightMember : right ∈ list) (inLeft : left.Contains addr) (inRight : right.Contains addr) :
    left = right := by
  by_contra different
  induction list with
  | nil => exact absurd leftMember List.not_mem_nil
  | cons top rest inductionHypothesis =>
      obtain ⟨first, restApart⟩ := List.pairwise_cons.mp apart
      obtain ⟨fromLeft, toLeft⟩ := inLeft
      obtain ⟨fromRight, toRight⟩ := inRight
      rcases List.mem_cons.mp leftMember with rfl | leftRest
      · have after := first right ((List.mem_cons.mp rightMember).resolve_left (Ne.symm different))
        omega
      · rcases List.mem_cons.mp rightMember with rfl | rightRest
        · have after := first left leftRest
          omega
        · exact inductionHypothesis restApart leftRest rightRest

/-! ## find_vma -/

/-- The cache holds no area that is not in the list. -/
def CachedMm.CacheKnown (mm : CachedMm) : Prop := ∀ vma, mm.mmapCache = some vma → vma ∈ mm.mmapList

theorem findVma_some (mm : MmStruct) (found : findVma mm addr = some vma) :
    vma ∈ mm.mmapList ∧ vma.Contains addr :=
  by
  have contains := List.find?_some found
  exact ⟨List.mem_of_find?_eq_some found, of_decide_eq_true contains⟩

theorem findVma_none (mm : MmStruct) (missing : findVma mm addr = none) :
    ∀ vma ∈ mm.mmapList, ¬ vma.Contains addr := fun vma member contains =>
  absurd (decide_eq_true contains) (List.find?_eq_none.mp missing vma member)

theorem findVma_of_contains {mm : MmStruct} (apart : Apart mm.mmapList) (member : vma ∈ mm.mmapList)
    (contains : vma.Contains addr) : findVma mm addr = some vma := by
  cases found : findVma mm addr with
  | none => exact absurd contains (findVma_none mm found vma member)
  | some other =>
      obtain ⟨otherMember, otherContains⟩ := findVma_some mm found
      rw [apart.unique otherMember member otherContains contains]

namespace CachedMm

/-- The cache makes no difference to what is found. -/
theorem findVma_fst (apart : Apart mm.mmapList) (known : mm.CacheKnown) (addr : Nat) :
    (mm.findVma addr).1 = Mm.findVma mm.toMmStruct addr := by
  have outcome : ∀ vma : Option Vma, (match vma with
      | some vma => (some vma, { mm with mmapCache := some vma })
      | none => (none, mm)).1 = vma := by
    intro vma
    cases vma <;> rfl
  unfold findVma
  rw [outcome]
  cases cached : mm.mmapCache with
  | none => rfl
  | some vma =>
      dsimp only
      by_cases hit : vma.vmStart ≤ addr ∧ vma.vmEnd > addr
      · rw [if_pos hit]
        exact (findVma_of_contains apart (known vma cached) hit).symm
      · rw [if_neg hit]

/-- Only the cache changes, and what it holds is in the list. -/
theorem findVma_snd (known : mm.CacheKnown) (addr : Nat) :
    (mm.findVma addr).2.mmapList = mm.mmapList ∧ (mm.findVma addr).2.mapCount = mm.mapCount ∧
      (mm.findVma addr).2.CacheKnown := by
  have outcome : ∀ vma : Option Vma, (∀ found, vma = some found → found ∈ mm.mmapList) →
      let after := (match vma with
        | some vma => (some vma, { mm with mmapCache := some vma })
        | none => (none, mm)).2
      after.mmapList = mm.mmapList ∧ after.mapCount = mm.mapCount ∧ after.CacheKnown := by
    intro vma member
    cases vma with
    | none => exact ⟨rfl, rfl, known⟩
    | some vma => exact ⟨rfl, rfl, fun found same => member found same⟩
  unfold findVma
  apply outcome
  intro found
  have scanned : ∀ {found}, Mm.findVma mm.toMmStruct addr = some found → found ∈ mm.mmapList :=
    fun same => (findVma_some _ same).1
  cases cached : mm.mmapCache with
  | none => exact scanned
  | some vma =>
      dsimp only
      by_cases hit : vma.vmStart ≤ addr ∧ vma.vmEnd > addr
      · rw [if_pos hit]
        exact fun same => known found (cached.trans same)
      · rw [if_neg hit]
        exact scanned

end CachedMm

/-! ## insert_vma_struct -/

/-- What `check_vma_overlap` asserts. -/
def Fits (prev next : Vma) : Prop :=
  prev.vmStart < prev.vmEnd ∧ prev.vmEnd ≤ next.vmStart ∧ next.vmStart < next.vmEnd

/-- The areas that start no later than the new one, and the others. -/
def startsBefore (mm : CachedMm) (vma : Vma) : List Vma :=
  mm.mmapList.takeWhile fun prev => ¬ prev.vmStart > vma.vmStart

def startsAfter (mm : CachedMm) (vma : Vma) : List Vma :=
  mm.mmapList.dropWhile fun prev => ¬ prev.vmStart > vma.vmStart

/-- What `insert_vma_struct` asserts. -/
structure InsertChecks (mm : CachedMm) (vma : Vma) : Prop where
  nonempty : vma.vmStart < vma.vmEnd
  before : ∀ prev, (startsBefore mm vma).getLast? = some prev → Fits prev vma
  after : ∀ next, (startsAfter mm vma).head? = some next → Fits vma next

def inserted (mm : CachedMm) (vma : Vma) : CachedMm :=
  { mm with
    mmapList := startsBefore mm vma ++ vma :: startsAfter mm vma
    mapCount := mm.mapCount + 1 }

theorem checkNeighbour_ok {check : Vma → Except Stop Unit} {neighbour : Option Vma}
    (passes : ∀ vma, neighbour = some vma → check vma = .ok ()) :
    checkNeighbour check neighbour = .ok () := by
  cases neighbour with
  | none => rfl
  | some vma => exact passes vma rfl

theorem insertVmaStruct_of_checks (checks : InsertChecks mm vma) :
    insertVmaStruct mm vma = .ok (inserted mm vma) := by
  have before : checkNeighbour (checkVmaOverlap · vma) (startsBefore mm vma).getLast? = .ok () :=
    checkNeighbour_ok fun prev last => if_pos (checks.before prev last)
  have after : checkNeighbour (checkVmaOverlap vma) (startsAfter mm vma).head? = .ok () :=
    checkNeighbour_ok fun next first => if_pos (checks.after next first)
  unfold insertVmaStruct
  rw [if_pos checks.nonempty]
  change Except.bind (checkNeighbour (checkVmaOverlap · vma) (startsBefore mm vma).getLast?) _ = _
  rw [before]
  change Except.bind (checkNeighbour (checkVmaOverlap vma) (startsAfter mm vma).head?) _ = _
  rw [after]
  rfl

theorem insertVmaStruct_of_not_checks (fails : ¬ InsertChecks mm vma) :
    insertVmaStruct mm vma = .error .assertFailed := by
  unfold insertVmaStruct
  by_cases nonempty : vma.vmStart < vma.vmEnd
  · rw [if_pos nonempty]
    change Except.bind (checkNeighbour (checkVmaOverlap · vma) (startsBefore mm vma).getLast?) _ = _
    by_cases before : ∀ prev, (startsBefore mm vma).getLast? = some prev → Fits prev vma
    · obtain ⟨next, first, wrong⟩ :
          ∃ next, (startsAfter mm vma).head? = some next ∧ ¬ Fits vma next := by
        by_contra fits
        exact fails ⟨nonempty, before, fun next first => by_contra fun wrong =>
          fits ⟨next, first, wrong⟩⟩
      have passes : checkNeighbour (checkVmaOverlap · vma) (startsBefore mm vma).getLast? = .ok () :=
        checkNeighbour_ok fun prev last => if_pos (before prev last)
      rw [passes]
      change Except.bind (checkNeighbour (checkVmaOverlap vma) (startsAfter mm vma).head?) _ = _
      rw [first]
      have stops : checkVmaOverlap vma next = .error .assertFailed := if_neg wrong
      rw [checkNeighbour, stops]
      rfl
    · obtain ⟨prev, beforeFails⟩ := not_forall.mp before
      obtain ⟨last, wrong⟩ := Classical.not_imp.mp beforeFails
      rw [last]
      have stops : checkVmaOverlap prev vma = .error .assertFailed := if_neg wrong
      rw [checkNeighbour, stops]
      rfl
  · rw [if_neg nonempty]

/-- The list is the areas that start no later and the others. -/
theorem startsBefore_append (mm : CachedMm) (vma : Vma) :
    startsBefore mm vma ++ startsAfter mm vma = mm.mmapList :=
  List.takeWhile_append_dropWhile

/-- Whatever passes the assertions leaves the areas disjoint. -/
theorem InsertChecks.apart (checks : InsertChecks mm vma) (apart : Apart mm.mmapList) :
    Apart (inserted mm vma).mmapList := by
  rw [← startsBefore_append mm vma] at apart
  obtain ⟨beforeApart, afterApart, across⟩ := List.pairwise_append.mp apart
  have precedes : ∀ prev ∈ startsBefore mm vma, prev.vmEnd ≤ vma.vmStart := by
    intro prev member
    obtain ⟨front, last, split⟩ := List.eq_nil_or_concat (startsBefore mm vma) |>.resolve_left
      (List.ne_nil_of_mem member)
    rw [List.concat_eq_append] at split
    have fits := checks.before last (by rw [split]; exact List.getLast?_concat)
    rw [split] at member beforeApart
    rcases List.mem_append.mp member with inFront | isLast
    · have ordered := (List.pairwise_append.mp beforeApart).2.2 prev inFront last
        (List.mem_singleton_self last)
      have nonempty := fits.1
      have stops := fits.2.1
      omega
    · rw [List.mem_singleton.mp isLast]
      exact fits.2.1
  have follows : ∀ next ∈ startsAfter mm vma, vma.vmEnd ≤ next.vmStart := by
    intro next member
    cases split : startsAfter mm vma with
    | nil =>
        rw [split] at member
        exact absurd member List.not_mem_nil
    | cons first rest =>
        have fits := checks.after first (by rw [split]; rfl)
        rw [split] at member afterApart
        rcases List.mem_cons.mp member with rfl | inRest
        · exact fits.2.1
        · have ordered := (List.pairwise_cons.mp afterApart).1 next inRest
          have nonempty := fits.2.2
          have starts := fits.2.1
          omega
  refine List.pairwise_append.mpr ⟨beforeApart, List.pairwise_cons.mpr ⟨follows, afterApart⟩,
    fun prev prevMember next nextMember => ?_⟩
  rcases List.mem_cons.mp nextMember with rfl | inAfter
  · exact precedes prev prevMember
  · exact across prev prevMember next inAfter

theorem mem_inserted {other : Vma} :
    other ∈ (inserted mm vma).mmapList ↔ other = vma ∨ other ∈ mm.mmapList := by
  rw [← startsBefore_append mm vma]
  change other ∈ startsBefore mm vma ++ vma :: startsAfter mm vma ↔ _
  simp only [List.mem_append, List.mem_cons]
  tauto

theorem InsertChecks.sound (checks : InsertChecks mm vma) (sound : VmasSound mm.mmapList)
    (new : vma.Sound) : VmasSound (inserted mm vma).mmapList :=
  ⟨checks.apart sound.apart, fun other member =>
    (mem_inserted.mp member).elim (fun same => same ▸ new) (sound.each other)⟩

theorem startsBefore_le {prev : Vma} (member : prev ∈ startsBefore mm vma) :
    prev ∈ mm.mmapList ∧ prev.vmStart ≤ vma.vmStart := by
  have early := List.mem_takeWhile_imp member
  exact ⟨List.takeWhile_subset _ member, by simpa using early⟩

/-- The assertions hold exactly when the area overlaps no other. -/
theorem insertChecks_iff (sound : VmasSound mm.mmapList) (nonempty : vma.vmStart < vma.vmEnd) :
    InsertChecks mm vma ↔ ∀ other ∈ mm.mmapList,
      other.vmEnd ≤ vma.vmStart ∨ vma.vmEnd ≤ other.vmStart := by
  constructor
  · intro checks other member
    have apart := checks.apart sound.apart
    have both := List.pairwise_append.mp apart
    rw [← startsBefore_append mm vma] at member
    rcases List.mem_append.mp member with early | late
    · exact Or.inl (both.2.2 other early vma List.mem_cons_self)
    · exact Or.inr ((List.pairwise_cons.mp both.2.1).1 other late)
  · intro free
    refine ⟨nonempty, fun prev last => ?_, fun next first => ?_⟩
    · obtain ⟨member, early⟩ := startsBefore_le (List.mem_of_getLast? last)
      have filled := (sound.each prev member).nonempty
      have apart := free prev member
      exact ⟨filled, by omega, nonempty⟩
    · have member : next ∈ mm.mmapList := by
        rw [← startsBefore_append mm vma]
        exact List.mem_append_right _ (List.mem_of_head? first)
      have filled := (sound.each next member).nonempty
      have late : vma.vmStart < next.vmStart := by
        have stops := List.head?_dropWhile_not
          (fun prev : Vma => decide ¬ prev.vmStart > vma.vmStart) mm.mmapList
        rw [show (List.dropWhile _ mm.mmapList).head? = some next from first] at stops
        simpa using stops
      have apart := free next member
      exact ⟨nonempty, by omega, filled⟩

/-! ## mm_map -/

/-- What holds of an `mm` between calls. -/
structure MmSound (mm : CachedMm) : Prop where
  vmas : VmasSound mm.mmapList
  known : mm.CacheKnown
  counted : mm.mapCount = mm.mmapList.length

theorem MmSound.mmCreate : MmSound CachedMm.mmCreate :=
  ⟨VmasSound.nil, fun _ cached => (nomatch cached), rfl⟩

theorem MmSound.findVma (sound : MmSound mm) (addr : Nat) : MmSound (mm.findVma addr).2 := by
  obtain ⟨sameList, sameCount, known⟩ := CachedMm.findVma_snd sound.known addr
  refine ⟨?_, known, ?_⟩
  · rw [sameList]
    exact sound.vmas
  · rw [sameCount, sameList]
    exact sound.counted

theorem MmSound.inserted (sound : MmSound mm) (checks : InsertChecks mm vma) (new : vma.Sound) :
    MmSound (inserted mm vma) where
  vmas := checks.sound sound.vmas new
  known := fun other cached => mem_inserted.mpr (Or.inr (sound.known other cached))
  counted := by
    have length := congrArg List.length (startsBefore_append mm vma)
    rw [List.length_append] at length
    change mm.mapCount + 1 = (startsBefore mm vma ++ vma :: startsAfter mm vma).length
    rw [sound.counted, List.length_append, List.length_cons]
    omega

theorem roundDown_aligned (address : Nat) : roundDown address pgSize % pgSize = 0 := by
  unfold roundDown pgSize
  omega

/-- Rounding makes whole pages. -/
theorem mapVma_sound (user : UserAccess (mapStart addr) (mapEnd addr len)) :
    (mapVma addr len vmFlags).Sound :=
  ⟨user.2.1, roundDown_aligned _, roundDown_aligned _, user⟩

/-- No area starts behind the first page of the range, unless one contains that page. -/
def MapMeets (mm : CachedMm) (addr len : Nat) (memory : Bool) : Prop :=
  UserAccess (mapStart addr) (mapEnd addr len) → memory = true →
    (∃ vma ∈ mm.mmapList, vma.Contains (mapStart addr)) ∨
      ∀ vma ∈ mm.mmapList, ¬ (mapStart addr < vma.vmStart ∧ vma.vmStart < mapEnd addr len)

/-- Either an error and the list as it was, or one more area. -/
def Mapped (mm : CachedMm) (addr len vmFlags : Nat) (ret : Except MmapError Vma) (mm' : CachedMm) :
    Prop :=
  (∃ error, ret = .error error ∧ mm'.mmapList = mm.mmapList) ∨
    ret = .ok (mapVma addr len vmFlags) ∧ ∃ before after, mm.mmapList = before ++ after ∧
      mm'.mmapList = before ++ mapVma addr len vmFlags :: after

/-- What `mm_map` does where no area contains the first page. -/
theorem mmMap_missing (mm : CachedMm) (vmFlags : Nat)
    (user : UserAccess (mapStart addr) (mapEnd addr len)) (sound : MmSound mm)
    (missing : ∀ vma ∈ mm.mmapList, ¬ vma.Contains (mapStart addr)) :
    mmMap mm addr len vmFlags memory =
      match vmaCreate memory (mapVma addr len vmFlags) with
      | none => .ok (.error .noMem, (mm.findVma (mapStart addr)).2)
      | some vma => (insertVmaStruct (mm.findVma (mapStart addr)).2 vma).bind fun mm =>
          .ok (.ok vma, mm) := by
  have found : (mm.findVma (mapStart addr)).1 = none := by
    rw [CachedMm.findVma_fst sound.vmas.apart sound.known]
    cases scanned : findVma mm.toMmStruct (mapStart addr) with
    | none => rfl
    | some vma =>
        obtain ⟨member, contains⟩ := findVma_some _ scanned
        exact absurd contains (missing vma member)
  unfold mmMap
  rw [if_pos user]
  cases result : mm.findVma (mapStart addr) with
  | mk vma mm' =>
      rw [result] at found
      obtain rfl : vma = none := found
      rfl

/-- Where one does, `mm_map` answers an error. -/
theorem mmMap_found (vmFlags : Nat) (memory : Bool)
    (user : UserAccess (mapStart addr) (mapEnd addr len)) (sound : MmSound mm)
    (member : vma ∈ mm.mmapList) (contains : vma.Contains (mapStart addr)) :
    mmMap mm addr len vmFlags memory = .ok (.error .inval, (mm.findVma (mapStart addr)).2) := by
  have found : (mm.findVma (mapStart addr)).1 = some vma := by
    rw [CachedMm.findVma_fst sound.vmas.apart sound.known]
    exact findVma_of_contains sound.vmas.apart member contains
  have inside : mapEnd addr len > vma.vmStart := Nat.lt_of_le_of_lt contains.1 user.2.1
  unfold mmMap
  rw [if_pos user]
  cases result : mm.findVma (mapStart addr) with
  | mk found' mm' =>
      rw [result] at found
      obtain rfl : found' = some vma := found
      exact if_pos inside

/-- Where no area starts behind the first page, `mm_map` returns. -/
theorem mmMap_returns (sound : MmSound mm) (meets : MapMeets mm addr len memory) (vmFlags : Nat) :
    ∃ ret mm', mmMap mm addr len vmFlags memory = .ok (ret, mm') ∧
      Mapped mm addr len vmFlags ret mm' ∧ MmSound mm' := by
  have searched := sound.findVma (mapStart addr)
  have sameList := (CachedMm.findVma_snd sound.known (mapStart addr)).1
  by_cases user : UserAccess (mapStart addr) (mapEnd addr len)
  · by_cases hit : ∃ vma ∈ mm.mmapList, vma.Contains (mapStart addr)
    · obtain ⟨vma, member, contains⟩ := hit
      exact ⟨_, _, mmMap_found vmFlags memory user sound member contains,
        Or.inl ⟨_, rfl, sameList⟩, searched⟩
    · have missing : ∀ vma ∈ mm.mmapList, ¬ vma.Contains (mapStart addr) :=
        fun vma member contains => hit ⟨vma, member, contains⟩
      rw [mmMap_missing mm vmFlags user sound missing]
      cases memory with
      | false => exact ⟨_, _, rfl, Or.inl ⟨_, rfl, sameList⟩, searched⟩
      | true =>
          have free := (meets user rfl).resolve_left hit
          have checks : InsertChecks (mm.findVma (mapStart addr)).2 (mapVma addr len vmFlags) := by
            refine (insertChecks_iff searched.vmas user.2.1).mpr fun other member => ?_
            rw [sameList] at member
            have outside := missing other member
            have starts := free other member
            have order := user.2.1
            unfold Vma.Contains at outside
            change other.vmEnd ≤ mapStart addr ∨ mapEnd addr len ≤ other.vmStart
            have filled := (sound.vmas.each other member).nonempty
            omega
          refine ⟨_, _, ?_, Or.inr ⟨rfl, ?_⟩, searched.inserted checks (mapVma_sound user)⟩
          · change Except.bind (insertVmaStruct _ _) _ = _
            rw [insertVmaStruct_of_checks checks]
            rfl
          · exact ⟨_, _, sameList.symm.trans (startsBefore_append _ _).symm, rfl⟩
  · exact ⟨.error .inval, mm, if_neg user, Or.inl ⟨_, rfl, rfl⟩, sound⟩

/-- Where one does, an assertion fails. -/
theorem mmMap_stops (sound : MmSound mm) (fails : ¬ MapMeets mm addr len memory) (vmFlags : Nat) :
    mmMap mm addr len vmFlags memory = .error .assertFailed := by
  unfold MapMeets at fails
  obtain ⟨user, rest⟩ := Classical.not_imp.mp fails
  obtain ⟨enough, neither⟩ := Classical.not_imp.mp rest
  obtain ⟨noneContains, someStarts⟩ := not_or.mp neither
  obtain ⟨other, isBehind⟩ := not_forall.mp someStarts
  obtain ⟨member, behind⟩ := Classical.not_imp.mp isBehind
  obtain ⟨starts, inside⟩ := not_not.mp behind
  subst enough
  have missing : ∀ vma ∈ mm.mmapList, ¬ vma.Contains (mapStart addr) :=
    fun vma member contains => noneContains ⟨vma, member, contains⟩
  have sameList := (CachedMm.findVma_snd sound.known (mapStart addr)).1
  have filled := (sound.vmas.each other member).nonempty
  have overlaps : ¬ InsertChecks (mm.findVma (mapStart addr)).2 (mapVma addr len vmFlags) := by
    rw [insertChecks_iff (sound.findVma _).vmas user.2.1, sameList]
    intro free
    have apart : other.vmEnd ≤ mapStart addr ∨ mapEnd addr len ≤ other.vmStart := free other member
    omega
  rw [mmMap_missing mm vmFlags user sound missing]
  change Except.bind (insertVmaStruct _ _) _ = _
  rw [insertVmaStruct_of_not_checks overlaps]
  rfl

/-! ## dup_mmap -/

/-- An area before all others goes to the front. -/
theorem inserted_front (first : ∀ other ∈ mm.mmapList, vma.vmStart < other.vmStart) :
    (inserted mm vma).mmapList = vma :: mm.mmapList := by
  have noneBefore : startsBefore mm vma = [] := by
    cases list : startsBefore mm vma with
    | nil => rfl
    | cons prev rest =>
        obtain ⟨member, early⟩ := startsBefore_le (list ▸ List.mem_cons_self : prev ∈ _)
        have late := first prev member
        omega
  have split := startsBefore_append mm vma
  rw [noneBefore, List.nil_append] at split
  change startsBefore mm vma ++ vma :: startsAfter mm vma = _
  rw [noneBefore, split, List.nil_append]

/-- One round of the loop: the last area that remains goes to the front of the new list. -/
theorem insertVmaStruct_last {remaining : List Vma} (sound : MmSound target)
    (whole : VmasSound ((vma :: remaining).reverse ++ target.mmapList)) :
    insertVmaStruct target vma = .ok (inserted target vma) ∧ MmSound (inserted target vma) ∧
      (inserted target vma).mmapList = vma :: target.mmapList ∧
      VmasSound (remaining.reverse ++ (inserted target vma).mmapList) ∧
      CopyRangeChecks vma.vmStart vma.vmEnd := by
  rw [List.reverse_cons] at whole
  have member : vma ∈ (remaining.reverse ++ [vma]) ++ target.mmapList :=
    List.mem_append_left _ (List.mem_append_right _ (List.mem_singleton_self vma))
  have new := whole.each vma member
  rw [List.append_assoc] at whole
  have order : ∀ other ∈ target.mmapList, vma.vmEnd ≤ other.vmStart :=
    (List.pairwise_cons.mp (List.pairwise_append.mp whole.apart).2.1).1
  have checks : InsertChecks target vma :=
    (insertChecks_iff sound.vmas new.nonempty).mpr fun other member =>
      Or.inr (order other member)
  have front : (inserted target vma).mmapList = vma :: target.mmapList :=
    inserted_front fun other member => Nat.lt_of_lt_of_le new.nonempty (order other member)
  refine ⟨insertVmaStruct_of_checks checks, sound.inserted checks new, front, ?_,
    ⟨new.alignedStart, new.alignedEnd⟩, new.user⟩
  rw [front]
  exact whole

/-- The loop goes through the areas from the last to the first, and the new list is the part of the
old one that it has gone through. -/
theorem dupMmapLoop_returns (memory copied : Vma → Bool) {remaining : List Vma} {target : CachedMm}
    (sound : MmSound target) (whole : VmasSound (remaining.reverse ++ target.mmapList)) :
    ∃ done target', dupMmapLoop memory copied target remaining = .ok (done, target') ∧
      MmSound target' ∧ ∃ added rest, remaining.reverse = rest ++ added ∧
        target'.mmapList = added ++ target.mmapList ∧ (done = true → rest = []) := by
  induction remaining generalizing target with
  | nil => exact ⟨true, target, rfl, sound, [], [], rfl, rfl, fun _ => rfl⟩
  | cons vma remaining inductionHypothesis =>
      obtain ⟨insert, sound', front, whole', checks⟩ := insertVmaStruct_last sound whole
      rw [List.reverse_cons]
      have stays : ∃ added rest, remaining.reverse ++ [vma] = rest ++ added ∧
          target.mmapList = added ++ target.mmapList ∧ (false = true → rest = []) :=
        ⟨[], _, (List.append_nil _).symm, rfl, fun same => (nomatch same)⟩
      unfold dupMmapLoop
      by_cases enough : memory vma = true
      · rw [vmaCreate, if_pos enough]
        change ∃ done target', Except.bind (insertVmaStruct target vma) _ = _ ∧ _
        rw [insert]
        change ∃ done target', (if CopyRangeChecks vma.vmStart vma.vmEnd then _ else _) = _ ∧ _
        rw [if_pos checks]
        by_cases copies : copied vma = true
        · rw [if_pos copies]
          obtain ⟨done, target', returns, sound'', added, rest, split, list, finished⟩ :=
            inductionHypothesis sound' whole'
          refine ⟨done, target', returns, sound'', added ++ [vma], rest, ?_, ?_, finished⟩
          · rw [split, List.append_assoc]
          · rw [list, front, List.append_assoc]
            rfl
        · rw [if_neg copies]
          exact ⟨false, inserted target vma, rfl, sound', [vma], remaining.reverse, rfl, front,
            fun same => (nomatch same)⟩
      · rw [vmaCreate, if_neg enough]
        exact ⟨false, target, rfl, sound, stays⟩

/-- `dup_mmap` into a new `mm` returns, and copies the list if it succeeds. -/
theorem dupMmap_returns (memory copied : Vma → Bool) {source : CachedMm} (sound : MmSound source)
    (targetSound : MmSound target) (empty : target.mmapList = []) :
    ∃ done target', dupMmap memory copied target source = .ok (done, target') ∧ MmSound target' ∧
      ∃ rest, source.mmapList = rest ++ target'.mmapList ∧ (done = true → rest = []) := by
  have whole : VmasSound (source.mmapList.reverse.reverse ++ target.mmapList) := by
    rw [List.reverse_reverse, empty, List.append_nil]
    exact sound.vmas
  obtain ⟨done, target', returns, sound', added, rest, split, list, finished⟩ :=
    dupMmapLoop_returns memory copied targetSound whole
  rw [List.reverse_reverse] at split
  rw [empty, List.append_nil] at list
  refine ⟨done, target', returns, sound', rest, ?_, finished⟩
  rw [list]
  exact split

end UCore.Mm
