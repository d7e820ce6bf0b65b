import UCore.Mm.UserMemCheck
import UCore.Process.LoadImage

/-!
Contract: the ranges that `user_mem_check` approves, in a program that `load_icode` loaded and in the
processes that descend from it.

Owns:
- the rights of an address in the page table;
- programs that run on and fork: their areas and the rights of their addresses stay;
- exactly which approved addresses are mapped. There is no demand paging, and of the stack only the
  last four pages are.

Does not own: `user_mem_check` and the loading.
-/

set_option autoImplicit false

namespace UCore.Process

open UCore.Lib UCore.Mm

variable {boot pgdir root address : Nat} {allocator : PageAllocator} {state after last : Spaces}
  {memory : Memory} {areas : CachedMm} {file : ExecFile} {write : Bool}

/-! ## Rights -/

/-- The address can be read, or written, in user mode. -/
def UserMapped (memory : Memory) (pgdir : Nat) (write : Bool) (address : Nat) : Prop :=
  pteTarget (memory.pteAt pgdir address) ≠ none ∧
    (memory.pteAt pgdir address).testBit 4 = true ∧
      (memory.pteAt pgdir address).testBit (if write = true then 2 else 1) = true

/-- The flags of an entry are those that it was made with. -/
theorem pteCreate_testBit {page type bit : Nat} (low : bit < 10) :
    (pteCreate page type).testBit bit = (pteV ||| type).testBit bit := by
  unfold pteCreate
  rw [Nat.testBit_or, Nat.testBit_or, Nat.testBit_or, Nat.testBit_mul_two_pow]
  simp [not_le.mpr low]

theorem ProgHdr.perm_testBit (ph : ProgHdr) : ph.perm.testBit 4 = true ∧
    (ph.vmFlags.testBit 0 = true → ph.perm.testBit 1 = true) ∧
      (ph.vmFlags.testBit 1 = true → ph.perm.testBit 2 = true) := by
  unfold ProgHdr.perm
  refine ⟨?_, fun isRead => ?_, fun isWrite => ?_⟩
  · simp only [Nat.testBit_or]
    rw [show pteU.testBit 4 = true from rfl]
    rfl
  · rw [isRead]
    simp only [Nat.testBit_or, if_true]
    rw [show pteR.testBit 1 = true from rfl]
    simp
  · rw [isWrite]
    simp only [Nat.testBit_or, if_true]
    rw [show pteW.testBit 2 = true from rfl]
    simp

/-- An entry of a segment gives the rights that its area permits. -/
theorem mapped_of_perm {perm page : Nat} (entry : memory.pteAt pgdir address = pteCreate page (pteV ||| perm))
    (leads : pteTarget (memory.pteAt pgdir address) = some page) (user : perm.testBit 4 = true)
    (access : perm.testBit (if write = true then 2 else 1) = true) :
    UserMapped memory pgdir write address := by
  refine ⟨leads ▸ Option.some_ne_none page, ?_, ?_⟩
  · rw [entry, pteCreate_testBit (by decide), Nat.testBit_or, Nat.testBit_or, user]
    simp
  · have low : (if write = true then 2 else 1) < 10 := by split_ifs <;> decide
    rw [entry, pteCreate_testBit low, Nat.testBit_or, Nat.testBit_or, access]
    simp

/-- Some byte of a segment is in the page of an address of its area. -/
theorem ProgHdr.Fits.somewhere {ph : ProgHdr} (fits : ph.Fits) (sound : ph.vma.Sound)
    (positive : 0 < ph.pMemsz) (inside : ph.vma.Contains address) : ∃ there, ph.pVa ≤ there ∧
      there < ph.pVa + ph.pMemsz ∧ SamePage there address := by
  have nonempty := sound.nonempty
  have noWrap := fits.noWrap
  unfold Vma.Contains at inside
  unfold ProgHdr.vma mapVma mapStart mapEnd roundUp64 roundDown pgSize at nonempty inside
  simp only at nonempty inside
  rw [Nat.mod_eq_of_lt noWrap] at nonempty inside
  refine ⟨max ph.pVa (min address (ph.pVa + ph.pMemsz - 1)), ?_⟩
  unfold SamePage pgSize
  omega

/-- Where the stack has an area and no pages. -/
def StackGap (address : Nat) : Prop :=
  uStackTop - uStackSize ≤ address ∧ address < uStackTop - 4 * pgSize

/-- A segment that is not empty is mapped in all of its area. -/
theorem Loaded.segment_mapped {ph : ProgHdr} (loaded : Loaded file pgdir memory areas)
    (sound : ph.vma.Sound) (isSegment : ph ∈ file.segments) (positive : 0 < ph.pMemsz)
    (inside : ph.vma.Contains address) (permits : ph.vma.Permits write address) :
    UserMapped memory pgdir write address := by
  have fits := loaded.fits ph isSegment
  obtain ⟨there, above, below, same⟩ := fits.somewhere sound positive inside
  obtain ⟨page, entry, leads, _⟩ := loaded.filled ph isSegment there above below
  have user : there < userTop := Nat.lt_of_lt_of_le below (fits.top sound)
  rw [← same.pteAt user] at entry leads
  obtain ⟨isUser, reads, writes⟩ := ph.perm_testBit
  refine mapped_of_perm entry leads isUser ?_
  have flag := permits.1
  cases write with
  | false => exact reads flag
  | true => exact writes flag

theorem Loaded.stack_mapped (loaded : Loaded file pgdir memory areas)
    (above : uStackTop - 4 * pgSize ≤ address) (below : address < uStackTop) :
    UserMapped memory pgdir write address := by
  obtain ⟨page, entry, leads⟩ := loaded.stack address above below
  refine mapped_of_perm entry leads rfl ?_
  cases write <;> rfl

/-- What an area of a loaded program permits is mapped, but for the lower part of the stack. -/
theorem Loaded.mapped_iff (loaded : Loaded file pgdir memory areas)
    (sound : MmSound areas) (full : ∀ ph ∈ file.segments, 0 < ph.pMemsz)
    (accessible : Accessible areas.mmapList write address) :
    UserMapped memory pgdir write address ↔ ¬ StackGap address := by
  obtain ⟨vma, member, inside, permits⟩ := accessible
  have stackMember : stackVma ∈ areas.mmapList := (loaded.areas stackVma).mpr (Or.inl rfl)
  rcases (loaded.areas vma).mp member with rfl | ⟨ph, isSegment, rfl⟩
  · by_cases gap : StackGap address
    · exact iff_of_false (fun mapped => mapped.1 (loaded.below address gap.1 gap.2)) (not_not.mpr gap)
    · have above : uStackTop - 4 * pgSize ≤ address := not_lt.mp fun low => gap ⟨inside.1, low⟩
      exact iff_of_true (loaded.stack_mapped above inside.2) gap
  · have whole := sound.vmas.each ph.vma member
    refine iff_of_true (loaded.segment_mapped whole isSegment (full ph isSegment) inside permits) ?_
    intro gap
    have inStack : stackVma.Contains address := ⟨gap.1, Nat.lt_of_lt_of_le gap.2 (Nat.sub_le _ _)⟩
    have isStack : ph.vma = stackVma := sound.vmas.apart.unique member stackMember inside inStack
    have mapped := loaded.segment_mapped whole isSegment (full ph isSegment) inside permits
    exact mapped.1 (loaded.below address gap.1 gap.2)

/-! ## Running and forking -/

/-- The process stores in its memory, or a call is for another `mm`. -/
def RunsOn (pgdir : Nat) (state : Spaces) (label : PageAllocator × SpaceCall) : Prop :=
  NotFor pgdir state label ∨ ∃ la bytes, label.2 = .store pgdir la bytes

/-- A program that runs on from one state to another, and its forks, directly or not. -/
inductive Descends (boot : Nat) (first : Spaces) (root : Nat) : Spaces → Nat → Prop
  | refl : Descends boot first root first root
  | runs {state after : Spaces} {pgdir : Nat} {calls : List (PageAllocator × SpaceCall)}
      (before : Descends boot first root state pgdir)
      (run : Run ((spaceMachine boot).StepMeeting (RunsOn pgdir)) state calls after) :
      Descends boot first root after pgdir
  | forks {state after : Spaces} {pgdir target parent child : Nat} {allocator : PageAllocator}
      {kmalloc : Bool} {vmas : Vma → Bool} (before : Descends boot first root state pgdir)
      (without : state.current child = none) (holds : state.current parent = some pgdir)
      (ran : state.copyMm allocator boot false parent child kmalloc vmas = .ok (true, after))
      (isChild : after.current child = some target) : Descends boot first root after target

/-- Two entries lead somewhere both or neither, with the same rights. -/
def SameRights (entry other : Nat) : Prop :=
  (pteTarget entry ≠ none ↔ pteTarget other ≠ none) ∧
    (pteTarget entry ≠ none → other &&& pteUser = entry &&& pteUser)

theorem SameRights.refl (entry : Nat) : SameRights entry entry := ⟨Iff.rfl, fun _ => rfl⟩

theorem SameRights.trans {entry other last : Nat} (early : SameRights entry other)
    (late : SameRights other last) : SameRights entry last :=
  ⟨early.1.trans late.1, fun leads => (late.2 (early.1.mp leads)).trans (early.2 leads)⟩

theorem testBit_of_rights {entry other bit : Nat} (same : other &&& pteUser = entry &&& pteUser)
    (isUser : pteUser.testBit bit = true) : other.testBit bit = entry.testBit bit := by
  have bits := congrArg (fun value => value.testBit bit) same
  simpa only [Nat.testBit_and, isUser, Bool.and_true] using bits

theorem UserMapped.congr {other : Memory} {name : Nat}
    (same : SameRights (memory.pteAt pgdir address) (other.pteAt name address)) :
    UserMapped other name write address ↔ UserMapped memory pgdir write address := by
  unfold UserMapped
  rw [← same.1]
  refine and_congr_right fun leads => ?_
  have rights := same.2 leads
  have access : pteUser.testBit (if write = true then 2 else 1) = true := by split_ifs <;> rfl
  rw [testBit_of_rights rights rfl, testBit_of_rights rights access]

/-- The areas and the rights that an `mm` had at first another has now. -/
def Inherits (first : Spaces) (root : Nat) (state : Spaces) (pgdir : Nat) : Prop :=
  ∀ old, first.mms root = some old → (∃ mm, state.mms pgdir = some mm ∧
      mm.areas.mmapList = old.areas.mmapList) ∧
    ∀ address < userTop,
      SameRights (first.memory.pteAt root address) (state.memory.pteAt pgdir address)

theorem Inherits.trans {middle : Spaces} {name : Nat} (early : Inherits state root middle name)
    (late : Inherits middle name last pgdir) : Inherits state root last pgdir := by
  intro old isOld
  obtain ⟨⟨mm, isMm, sameAreas⟩, rights⟩ := early old isOld
  obtain ⟨⟨mm', isMm', stillSame⟩, stillRights⟩ := late mm isMm
  exact ⟨⟨mm', isMm', stillSame.trans sameAreas⟩, fun address user =>
    (rights address user).trans (stillRights address user)⟩

/-- A store leaves areas and entries. -/
theorem Inherits.store {dirs pids : Finset Nat} {tables : TableMap} {la : Nat} {bytes : Bytes}
    (sound : SpacesSound boot state dirs pids tables) (user : la < userTop) :
    Inherits state pgdir (state.store pgdir la bytes) pgdir := by
  intro mm isMm
  have known := (sound.known pgdir).mpr ⟨mm, isMm⟩
  unfold Spaces.store
  cases leads : pteTarget (state.memory.pteAt pgdir la) with
  | none => exact ⟨⟨mm, isMm, rfl⟩, fun _ _ => .refl _⟩
  | some page =>
      have data := sound.counted.paged.dataPage known (pdx1_lt_two user) leads
      refine ⟨⟨mm, isMm, rfl⟩, fun address _ => ?_⟩
      have entry : (state.memory.setBytes page bytes).pteAt pgdir address =
          state.memory.pteAt pgdir address :=
        sound.counted.setBytes_pteAt data bytes pgdir known address
      show SameRights _ ((state.memory.setBytes page bytes).pteAt pgdir address)
      rw [entry]
      exact .refl _

theorem Inherits.step {dirs pids : Finset Nat} {tables : TableMap}
    {label : PageAllocator × SpaceCall} (sound : SpacesSound boot state dirs pids tables)
    (step : (spaceMachine boot).StepMeeting (RunsOn pgdir) state label after) :
    Inherits state pgdir after pgdir := by
  obtain ⟨⟨admitted, ran⟩, isOn⟩ := step
  rcases isOn with notFor | ⟨la, bytes, isStore⟩
  · intro mm isMm
    obtain ⟨sameAreas, kept⟩ := (sound.settles admitted ran).2 pgdir mm isMm notFor
    refine ⟨sameAreas, fun address user => ?_⟩
    rw [(kept address user).pte]
    exact .refl _
  · obtain ⟨allocator, call⟩ := label
    obtain rfl : call = .store pgdir la bytes := isStore
    have isAfter : state.store pgdir la bytes = after := Except.ok.inj ran
    rw [← isAfter]
    exact .store sound admitted.2

/-- Running on keeps the areas and the rights. -/
theorem Inherits.run {dirs pids : Finset Nat} {tables : TableMap}
    {calls : List (PageAllocator × SpaceCall)} (sound : SpacesSound boot state dirs pids tables)
    (run : Run ((spaceMachine boot).StepMeeting (RunsOn pgdir)) state calls last) :
    Inherits state pgdir last pgdir := by
  induction run generalizing dirs pids tables with
  | nil state => exact fun mm isMm => ⟨⟨mm, isMm, rfl⟩, fun _ _ => .refl _⟩
  | cons move _ inductionHypothesis =>
      obtain ⟨dirs, pids, tables, later⟩ := (sound.settles move.1.1 move.1.2).1
      exact (Inherits.step sound move).trans (inductionHypothesis later)

theorem CopyOf.rights {source target : Nat} {after : Memory} (copy : CopyOf memory after source target)
    (user : address < userTop) :
    SameRights (memory.pteAt source address) (after.pteAt target address) := by
  obtain ⟨absent, present⟩ := copy address user
  cases leads : pteTarget (memory.pteAt source address) with
  | none =>
      have zero := absent leads
      unfold SameRights
      rw [leads, zero]
      exact ⟨iff_of_false (not_not.mpr rfl) (not_not.mpr pteTarget_zero), fun impossible => absurd rfl impossible⟩
  | some page =>
      obtain ⟨npage, _, isCopy, rights, _⟩ := present page leads
      unfold SameRights
      rw [leads, isCopy]
      exact ⟨iff_of_true (Option.some_ne_none _) (Option.some_ne_none _), fun _ => rights⟩

/-- A descendant has what the program had, and the invariant holds there. -/
theorem Descends.inherits {dirs pids : Finset Nat} {tables : TableMap}
    (sound : SpacesSound boot state dirs pids tables) (descends : Descends boot state root last pgdir) :
    (∃ dirs pids tables, SpacesSound boot last dirs pids tables) ∧ Inherits state root last pgdir := by
  induction descends with
  | refl => exact ⟨⟨_, _, _, sound⟩, fun mm isMm => ⟨⟨mm, isMm, rfl⟩, fun _ _ => .refl _⟩⟩
  | runs _ run inductionHypothesis =>
      obtain ⟨⟨_, _, _, before⟩, inherits⟩ := inductionHypothesis
      exact ⟨before.run (run.mono fun _ _ _ step => step.1), inherits.trans (.run before run)⟩
  | forks _ without holds ran isChild inductionHypothesis =>
      obtain ⟨⟨_, _, _, before⟩, inherits⟩ := inductionHypothesis
      obtain ⟨later, _, target, old, copy, _, isOld, isCopy, sameAreas, _, isCurrent, copyOf⟩ :=
        before.copyNew without holds ran
      rw [isCurrent, Function.update_self] at isChild
      obtain rfl := Option.some.inj isChild
      refine ⟨later, inherits.trans fun mm isMm => ?_⟩
      obtain rfl := Option.some.inj (isMm.symm.trans isOld)
      exact ⟨⟨copy, isCopy, sameAreas⟩, fun address user => CopyOf.rights copyOf user⟩

/-! ## What is approved -/

/-- In a program that `load_icode` loaded, and in all that descend from it, the addresses of a range that
`user_mem_check` approves are mapped with the rights that were asked for, but for those between the
bottom of the stack and its last four pages, which never are. -/
theorem approved_means_mapped {first loaded : Spaces} {window : Nat → Option Nat} {pid : Nat}
    {kmallocMm : Bool} {kmalloc : Nat → Bool} {calls : List (PageAllocator × SpaceCall)}
    (fresh : FreshSpaces boot first window) (run : Run (spaceMachine boot).Step first calls state)
    (without : state.current pid = none)
    (noWrap : ∀ ph ∈ file.segments, ph.pVa + ph.pMemsz < 2 ^ 64)
    (full : ∀ ph ∈ file.segments, 0 < ph.pMemsz)
    (icode : loadIcode state file allocator boot pid kmallocMm kmalloc = .ok (none, loaded))
    (holds : loaded.current pid = some root) (descends : Descends boot loaded root last pgdir) :
    ∃ mm, last.mms pgdir = some mm ∧ ∀ addr len write, 0 < len → len < 2 ^ 64 →
      (CachedMm.userMemCheck (some mm.areas) addr len write).1 = true →
      ∀ address, addr ≤ address → address < addr + len →
        (UserMapped last.memory pgdir write address ↔ ¬ StackGap address) := by
  obtain ⟨_, _, _, sound⟩ := fresh.reaches run
  rcases loadIcode_done sound without noWrap kmallocMm kmalloc allocator with
    ⟨_, stops⟩ | ⟨_, _, more, ran, runs, _, done⟩
  · rw [icode] at stops
    cases stops
  · rw [icode] at ran
    obtain ⟨rfl, rfl⟩ := Prod.mk.inj (Except.ok.inj ran)
    obtain ⟨made, old, _, isCurrent, isOld, _, isLoaded⟩ := done
    obtain rfl : root = made := Option.some.inj (holds.symm.trans isCurrent)
    obtain ⟨_, _, _, soundLoaded⟩ := sound.run runs
    obtain ⟨⟨_, _, _, soundLast⟩, inherits⟩ := descends.inherits soundLoaded
    obtain ⟨⟨mm, isMm, sameAreas⟩, rights⟩ := inherits old isOld
    have oldSound := soundLoaded.areas root old isOld
    have mmSound := soundLast.areas pgdir mm isMm
    refine ⟨mm, isMm, fun addr len write positive word approved address above below => ?_⟩
    rw [(userMemCheck_cached mmSound.vmas.apart mmSound.known addr len write).1,
      userMemCheck_iff _ mmSound.vmas.apart positive word] at approved
    obtain ⟨inUser, all⟩ := approved
    have user : address < userTop := Nat.lt_of_lt_of_le below inUser.2.2
    have accessible : Accessible old.areas.mmapList write address := sameAreas ▸ all address above below
    rw [UserMapped.congr (rights address user)]
    exact isLoaded.mapped_iff oldSound full accessible

/-- The lowest address of the stack that a process may write at. -/
def stackLow : Nat := uStackTop - uStackSize + pgSize

set_option maxRecDepth 20000 in
theorem tinyFile_approved : ((loadIcode sixteenSpaces tinyFile lowestFree 0 7 true fun _ =>
    true).toOption.any fun result => decide (result.1 = none ∧ result.2.current 7 = some 1) &&
      (result.2.mms 1).any fun mm =>
        (CachedMm.userMemCheck (some mm.areas) 0x800000 16 false).1 &&
          (CachedMm.userMemCheck (some mm.areas) stackLow 16 true).1) = true := by decide +kernel

/-- The code can be read. A buffer low in the stack is approved for writing as well, and is not there. -/
theorem approved_means_mapped_tiny : ∃ (loaded : Spaces) (mm : AddressSpace),
    loadIcode sixteenSpaces tinyFile lowestFree 0 7 true (fun _ => true) = .ok (none, loaded) ∧
      loaded.mms 1 = some mm ∧ UserMapped loaded.memory 1 false 0x800008 ∧
      (CachedMm.userMemCheck (some mm.areas) stackLow 16 true).1 = true ∧
      ¬ UserMapped loaded.memory 1 true stackLow := by
  obtain ⟨⟨failed, loaded⟩, isLoaded, checks⟩ := (Option.any_eq_true _ _).mp tinyFile_approved
  obtain ⟨outcome, found⟩ := (Bool.and_eq_true _ _).mp checks
  obtain ⟨mm, isMm, approves⟩ := (Option.any_eq_true _ _).mp found
  obtain ⟨reads, writes⟩ := (Bool.and_eq_true _ _).mp approves
  obtain ⟨rfl, holds⟩ := of_decide_eq_true outcome
  have icode : loadIcode sixteenSpaces tinyFile lowestFree 0 7 true (fun _ => true) =
      .ok (none, loaded) := by
    cases ran : loadIcode sixteenSpaces tinyFile lowestFree 0 7 true fun _ => true with
    | error reason =>
        rw [ran] at isLoaded
        cases isLoaded
    | ok result =>
        rw [ran] at isLoaded
        exact congrArg Except.ok (Option.some.inj isLoaded)
  have nobody : sixteenSpaces.current 7 = none := rfl
  have run : Run (spaceMachine 0).Step sixteenSpaces [] sixteenSpaces := .nil _
  have full : ∀ ph ∈ tinyFile.segments, 0 < ph.pMemsz := by decide +kernel
  obtain ⟨same, isSame, exactly⟩ :=
    approved_means_mapped sixteenSpaces_fresh run nobody tinyFile_fits full icode holds .refl
  obtain rfl := Option.some.inj (isMm.symm.trans isSame)
  refine ⟨loaded, mm, icode, isMm, ?_, writes, ?_⟩
  · exact (exactly _ _ _ (by decide) (by decide) reads 0x800008 (by decide) (by decide)).mpr (by
      unfold StackGap
      decide)
  · intro mapped
    have gap := (exactly _ _ _ (by decide) (by decide) writes stackLow (by decide) (by decide)).mp mapped
    exact gap ⟨by decide, by decide⟩

end UCore.Process
