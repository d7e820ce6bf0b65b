import UCore.Lib.Transition
import UCore.Mm.Vma

/-!
Contract: `user_mem_check` of `kern/mm/vmm.c`, with the cache of areas.

Owns:
- the check on an `mm` with its cache, and that it does what the check without a cache does;
- exactly which ranges pass;
- that earlier calls make no difference.

Does not own: the list of areas and `find_vma`, which are in `Mm.Vma`.
-/

set_option autoImplicit false

namespace UCore.Mm

open UCore.Lib

namespace CachedMm

/-- The loop of `user_mem_check`. Each round gets past an area, so that `rounds` of them are enough
for as many bytes. -/
def userMemCheckLoop (write : Bool) (stop : Nat) : Nat → CachedMm → Nat → Bool × CachedMm
  | 0, mm, start => (decide (¬ start < stop), mm)
  | rounds + 1, mm, start =>
      if start < stop then
        match mm.findVma start with
        | (none, mm) => (false, mm)
        | (some vma, mm) =>
            if start < vma.vmStart then (false, mm)
            else if (if write = true then vma.vmWrite else vma.vmRead) = false then (false, mm)
            else if write = true ∧ vma.vmStack = true ∧ start < vma.vmStart + pgSize then (false, mm)
            else userMemCheckLoop write stop rounds mm vma.vmEnd
      else (true, mm)

/-- `user_mem_check`. A kernel thread has no `mm`. -/
def userMemCheck (mm : Option CachedMm) (addr len : Nat) (write : Bool) : Bool × Option CachedMm :=
  let stop := (addr + len) % 2 ^ 64
  match mm with
  | some mm =>
      if UserAccess addr stop then
        let (passes, mm) := userMemCheckLoop write stop len mm addr
        (passes, some mm)
      else (false, some mm)
  | none => (decide (KernAccess addr stop), none)

end CachedMm

variable {mm mm' : CachedMm} {vma : Vma} {addr len start stop rounds : Nat} {write : Bool}

/-! ## The cache makes no difference -/

/-- Two `mm` with the same areas, whose caches may differ. -/
structure SameVmas (mm mm' : CachedMm) : Prop where
  list : mm'.mmapList = mm.mmapList
  known : mm'.CacheKnown

theorem SameVmas.toMmStruct (same : SameVmas mm mm') : mm'.toMmStruct = mm.toMmStruct :=
  congrArg MmStruct.mk same.list

theorem SameVmas.trans {last : CachedMm} (first : SameVmas mm mm') (second : SameVmas mm' last) :
    SameVmas mm last :=
  ⟨second.list.trans first.list, second.known⟩

theorem sameVmas_findVma (known : mm.CacheKnown) (addr : Nat) : SameVmas mm (mm.findVma addr).2 :=
  ⟨(CachedMm.findVma_snd known addr).1, (CachedMm.findVma_snd known addr).2.2⟩

theorem userMemCheckLoop_cached (apart : Apart mm.mmapList) (known : mm.CacheKnown) :
    (CachedMm.userMemCheckLoop write stop rounds mm start).1 =
        userMemCheckLoop mm.toMmStruct write stop start rounds ∧
      SameVmas mm (CachedMm.userMemCheckLoop write stop rounds mm start).2 := by
  induction rounds generalizing mm start with
  | zero => exact ⟨rfl, rfl, known⟩
  | succ rounds inductionHypothesis =>
      have found := CachedMm.findVma_fst apart known start
      have same := sameVmas_findVma known start
      unfold CachedMm.userMemCheckLoop userMemCheckLoop
      by_cases more : start < stop
      · rw [if_pos more, if_pos more, ← found]
        cases searched : mm.findVma start with
        | mk result mm' =>
            rw [searched] at same
            cases result with
            | none => exact ⟨rfl, same⟩
            | some vma =>
                dsimp only
                obtain ⟨rest, sameRest⟩ := @inductionHypothesis mm' vma.vmEnd
                  (same.list ▸ apart) same.known
                rw [same.toMmStruct] at rest
                by_cases before : start < vma.vmStart
                · rw [if_pos before, if_pos before]
                  exact ⟨rfl, same⟩
                rw [if_neg before, if_neg before]
                by_cases flag : (if write = true then vma.vmWrite else vma.vmRead) = false
                · rw [if_pos flag, if_pos flag]
                  exact ⟨rfl, same⟩
                rw [if_neg flag, if_neg flag]
                by_cases guard : write = true ∧ vma.vmStack = true ∧ start < vma.vmStart + pgSize
                · rw [if_pos guard, if_pos guard]
                  exact ⟨rfl, same⟩
                · rw [if_neg guard, if_neg guard]
                  exact ⟨rest, same.trans sameRest⟩
      · rw [if_neg more, if_neg more]
        exact ⟨rfl, rfl, known⟩

/-- The check does what it does without a cache, and keeps the areas. -/
theorem userMemCheck_cached (apart : Apart mm.mmapList) (known : mm.CacheKnown) (addr len : Nat)
    (write : Bool) :
    (CachedMm.userMemCheck (some mm) addr len write).1 =
        userMemCheck (some mm.toMmStruct) addr len write ∧
      ∃ mm', (CachedMm.userMemCheck (some mm) addr len write).2 = some mm' ∧ SameVmas mm mm' := by
  unfold CachedMm.userMemCheck userMemCheck
  dsimp only
  by_cases user : UserAccess addr ((addr + len) % 2 ^ 64)
  · rw [if_pos user, if_pos user]
    obtain ⟨result, same⟩ := @userMemCheckLoop_cached mm addr
      ((addr + len) % 2 ^ 64) len write apart known
    exact ⟨result, _, rfl, same⟩
  · rw [if_neg user, if_neg user]
    exact ⟨rfl, mm, rfl, rfl, known⟩

/-! ## What passes -/

/-- The area lets the byte be read or written. The lowest page of a stack is not written to. -/
def Vma.Permits (vma : Vma) (write : Bool) (byte : Nat) : Prop :=
  (if write = true then vma.vmWrite else vma.vmRead) = true ∧
    (write = true → vma.vmStack = true → vma.vmStart + pgSize ≤ byte)

/-- Some area contains the byte and permits the access. -/
def Accessible (list : List Vma) (write : Bool) (byte : Nat) : Prop :=
  ∃ vma ∈ list, vma.Contains byte ∧ vma.Permits write byte

theorem userMemCheckLoop_iff (mm : MmStruct) (apart : Apart mm.mmapList)
    (enough : stop ≤ start + rounds) :
    userMemCheckLoop mm write stop start rounds = true ↔
      ∀ byte, start ≤ byte → byte < stop → Accessible mm.mmapList write byte := by
  induction rounds generalizing start with
  | zero =>
      refine iff_of_true (decide_eq_true (by omega)) fun byte from' until' => ?_
      omega
  | succ rounds inductionHypothesis =>
      unfold userMemCheckLoop
      by_cases more : start < stop
      · rw [if_pos more]
        cases found : findVma mm start with
        | none =>
            refine iff_of_false Bool.false_ne_true fun all => ?_
            obtain ⟨vma, member, contains, _⟩ := all start (Nat.le_refl _) more
            exact findVma_none mm found vma member contains
        | some vma =>
            obtain ⟨member, contains⟩ := findVma_some mm found
            have notBefore : ¬ start < vma.vmStart := Nat.not_lt.mpr contains.1
            have beyond : start < vma.vmEnd := contains.2
            have rest := @inductionHypothesis vma.vmEnd (by omega)
            -- the first byte is accessible only through this area
            have first : Accessible mm.mmapList write start → vma.Permits write start := by
              rintro ⟨other, otherMember, otherContains, permits⟩
              rwa [apart.unique otherMember member otherContains contains] at permits
            dsimp only
            rw [if_neg notBefore]
            by_cases permits : vma.Permits write start
            · have flag : ¬ (if write = true then vma.vmWrite else vma.vmRead) = false := by
                rw [permits.1]
                exact nofun
              have guard : ¬ (write = true ∧ vma.vmStack = true ∧ start < vma.vmStart + pgSize) := by
                rintro ⟨writes, isStack, low⟩
                have high := permits.2 writes isStack
                omega
              rw [if_neg flag, if_neg guard, rest]
              constructor
              · intro all byte from' until'
                by_cases inside : byte < vma.vmEnd
                · refine ⟨vma, member, ⟨by omega, inside⟩, permits.1, fun writes isStack => ?_⟩
                  have high := permits.2 writes isStack
                  omega
                · exact all byte (by omega) until'
              · intro all byte from' until'
                exact all byte (by omega) until'
            · have refused : (if (if write = true then vma.vmWrite else vma.vmRead) = false then false
                  else if write = true ∧ vma.vmStack = true ∧ start < vma.vmStart + pgSize then false
                  else userMemCheckLoop mm write stop vma.vmEnd rounds) = false := by
                by_cases flag : (if write = true then vma.vmWrite else vma.vmRead) = false
                · exact if_pos flag
                · rw [if_neg flag]
                  apply if_pos
                  by_contra guard
                  refine permits ⟨Bool.eq_true_of_not_eq_false flag, fun writes isStack => ?_⟩
                  exact Nat.not_lt.mp fun low => guard ⟨writes, isStack, low⟩
              rw [refused]
              refine iff_of_false Bool.false_ne_true fun all => ?_
              exact permits (first (all start (Nat.le_refl _) more))
      · rw [if_neg more]
        refine iff_of_true rfl fun byte from' until' => ?_
        omega

/-- The range does not wrap and lies in user memory. -/
def InUserMemory (addr len : Nat) : Prop :=
  addr + len < 2 ^ 64 ∧ userBase ≤ addr ∧ addr + len ≤ userTop

theorem userMemCheck_iff (mm : MmStruct) (apart : Apart mm.mmapList) (positive : 0 < len)
    (word : len < 2 ^ 64) :
    userMemCheck (some mm) addr len write = true ↔ InUserMemory addr len ∧
      ∀ byte, addr ≤ byte → byte < addr + len → Accessible mm.mmapList write byte := by
  have access : UserAccess addr ((addr + len) % 2 ^ 64) ↔ InUserMemory addr len := by
    unfold UserAccess InUserMemory userBase userTop
    omega
  unfold userMemCheck
  dsimp only
  by_cases user : UserAccess addr ((addr + len) % 2 ^ 64)
  · have inside := access.mp user
    rw [if_pos user, Nat.mod_eq_of_lt inside.1, userMemCheckLoop_iff mm apart (Nat.le_refl _)]
    exact (and_iff_right inside).symm
  · rw [if_neg user]
    exact iff_of_false Bool.false_ne_true fun both => user (access.mpr both.1)

/-! ## Earlier calls -/

/-- What may have happened to an `mm` before. -/
inductive VmaCall
  | findVma (addr : Nat)
  | userMemCheck (addr len : Nat) (write : Bool)
  | insertVmaStruct (vma : Vma)

def VmaStep (before : CachedMm) (call : VmaCall) (after : CachedMm) : Prop :=
  match call with
  | .findVma addr => after = (before.findVma addr).2
  | .userMemCheck addr len write => (CachedMm.userMemCheck (some before) addr len write).2 = some after
  | .insertVmaStruct vma => Mm.insertVmaStruct before vma = .ok after

/-- The areas are disjoint, and the cache holds one of them. -/
structure Searchable (mm : CachedMm) : Prop where
  apart : Apart mm.mmapList
  known : mm.CacheKnown

theorem SameVmas.searchable (same : SameVmas mm mm') (searchable : Searchable mm) : Searchable mm' :=
  ⟨same.list ▸ searchable.apart, same.known⟩

theorem Searchable.step {call : VmaCall} (searchable : Searchable mm) (move : VmaStep mm call mm') :
    Searchable mm' := by
  cases call with
  | findVma addr =>
      obtain rfl : mm' = (mm.findVma addr).2 := move
      exact (sameVmas_findVma searchable.known addr).searchable searchable
  | userMemCheck addr len write =>
      obtain ⟨_, after, isAfter, same⟩ :=
        userMemCheck_cached searchable.apart searchable.known addr len write
      obtain rfl : after = mm' := Option.some.inj (isAfter.symm.trans move)
      exact same.searchable searchable
  | insertVmaStruct vma =>
      have returns : insertVmaStruct mm vma = .ok mm' := move
      by_cases checks : InsertChecks mm vma
      · rw [insertVmaStruct_of_checks checks] at returns
        obtain rfl := Except.ok.inj returns
        exact ⟨checks.apart searchable.apart,
          fun other cached => mem_inserted.mpr (Or.inr (searchable.known other cached))⟩
      · rw [insertVmaStruct_of_not_checks checks] at returns
        cases returns

/-- Whatever was looked up before, exactly the ranges of user memory pass whose every byte lies in an
area that permits the access; and `find_vma` answers what a scan of the list does. -/
theorem user_mem_check_exact {start mm : CachedMm} {calls : List VmaCall}
    (apart : Apart start.mmapList) (fresh : start.mmapCache = none)
    (run : Run VmaStep start calls mm) {len : Nat} (positive : 0 < len) (word : len < 2 ^ 64)
    (addr : Nat) (write : Bool) :
    ((CachedMm.userMemCheck (some mm) addr len write).1 = true ↔
      (addr + len < 2 ^ 64 ∧ userBase ≤ addr ∧ addr + len ≤ userTop) ∧
        ∀ byte, addr ≤ byte → byte < addr + len → ∃ vma ∈ mm.mmapList,
          (vma.vmStart ≤ byte ∧ byte < vma.vmEnd) ∧
            (if write = true then vma.vmWrite else vma.vmRead) = true ∧
            (write = true → vma.vmStack = true → vma.vmStart + pgSize ≤ byte)) ∧
      (mm.findVma addr).1 =
        mm.mmapList.find? fun vma => vma.vmStart ≤ addr ∧ addr < vma.vmEnd := by
  have known : start.CacheKnown := fun vma cached => (nomatch fresh.symm.trans cached)
  have searchable := run.invariant Searchable (fun _ _ _ before move => before.step move)
    ⟨apart, known⟩
  refine ⟨?_, CachedMm.findVma_fst searchable.apart searchable.known addr⟩
  rw [(userMemCheck_cached searchable.apart searchable.known addr len write).1]
  exact userMemCheck_iff mm.toMmStruct searchable.apart positive word

/-- Code, and data behind it. -/
def twoAreas : CachedMm :=
  ⟨⟨[⟨0x800000, 0x801000, true, false, false⟩, ⟨0x801000, 0x803000, true, true, false⟩]⟩, none, 2⟩

/-- A range over both areas can be read after a search left the second one in the cache, and cannot
be written. -/
theorem user_mem_check_exact_across :
    (CachedMm.userMemCheck (some (twoAreas.findVma 0x801800).2) 0x800ff0 0x20 false).1 = true ∧
      ¬ (CachedMm.userMemCheck (some (twoAreas.findVma 0x801800).2) 0x800ff0 0x20 true).1 = true := by
  have apart : Apart twoAreas.mmapList := by
    unfold Apart twoAreas
    decide
  have run : Run VmaStep twoAreas [.findVma 0x801800] (twoAreas.findVma 0x801800).2 :=
    Run.single rfl
  have exactly := user_mem_check_exact apart rfl run (show 0 < 0x20 by decide) (by decide) 0x800ff0
  constructor
  · refine (exactly false).1.mpr ⟨by decide, fun byte from' until' => ?_⟩
    by_cases inCode : byte < 0x801000
    · have inside : 0x800000 ≤ byte ∧ byte < 0x801000 := by omega
      exact ⟨⟨0x800000, 0x801000, true, false, false⟩, by decide, inside, rfl, nofun⟩
    · have inside : 0x801000 ≤ byte ∧ byte < 0x803000 := by omega
      exact ⟨⟨0x801000, 0x803000, true, true, false⟩, by decide, inside, rfl, nofun⟩
  · intro passes
    obtain ⟨_, all⟩ := (exactly true).1.mp passes
    obtain ⟨vma, member, inside, permits, _⟩ := all 0x800ff0 (Nat.le_refl _) (by decide)
    have either : vma = ⟨0x800000, 0x801000, true, false, false⟩ ∨
        vma = ⟨0x801000, 0x803000, true, true, false⟩ := by
      have listed : vma ∈ twoAreas.mmapList := member
      simpa [twoAreas] using listed
    rcases either with rfl | rfl
    · cases permits
    · exact absurd inside.1 (by decide)

end UCore.Mm
