import UCore.Mm.AddressSpaceRuns

/-!
Contract: what the calls on address spaces keep to, in every order and whatever the allocator answers.

Owns:
- the step lemma over all calls, and the invariant over runs;
- address spaces stay apart, a fork gives a copy, and the last exit gives the memory back;
- a run in which a process forks.

Does not own: the invariant of single calls, which is in `Mm.AddressSpaceRuns`.
-/

set_option autoImplicit false

namespace UCore.Mm

open UCore.Lib

variable {memory : Memory} {dirs pids : Finset Nat} {tables : TableMap} {pgdir la boot : Nat}
  {allocator : PageAllocator} {state after : Spaces}

/-! ## One call -/

/-- The `mm` that a call is for. A call that makes an `mm`, shares one or gives up a shared one is for
none. -/
def SpaceCall.acts (state : Spaces) : SpaceCall → Option Nat
  | .mmMap pgdir _ _ _ _ => some pgdir
  | .pgdirAllocPage pgdir _ _ => some pgdir
  | .store pgdir _ _ => some pgdir
  | .discard pgdir => some pgdir
  | .exitMm pid => (state.current pid).filter fun pgdir =>
      (state.mms pgdir).any fun mm => decide (mm.count = 1)
  | _ => none

/-- A call that no assertion stops: `mm_map` finds no area that starts inside its range, and `copy_mm`
copies no pages. -/
def SpaceCall.Plain (state : Spaces) : SpaceCall → Prop
  | .mmMap pgdir addr len _ kmalloc => ∀ mm, state.mms pgdir = some mm → MapMeets mm.areas addr len kmalloc
  | .copyMm cloneVm parent _ _ _ => cloneVm = true ∨ state.current parent = none
  | _ => True

/-- The invariant holds after a call, and the other `mm`s are as before. -/
def SpacesSettled (boot : Nat) (state after : Spaces) (acts : Option Nat) : Prop :=
  (∃ dirs pids tables, SpacesSound boot after dirs pids tables) ∧ OthersKept state after acts

/-- An area holds whole pages. -/
theorem Vma.Sound.contains_page {vma : Vma} {other : Nat} (sound : vma.Sound) (contains : vma.Contains la)
    (same : other / pgSize = la / pgSize) : vma.Contains other := by
  have start := sound.alignedStart
  have stop := sound.alignedEnd
  unfold Vma.Contains at contains ⊢
  unfold pgSize at start stop same
  omega

section Step

variable {mm : AddressSpace} (sound : SpacesSound boot state dirs pids tables)

include sound

omit sound in
theorem SpaceCall.run_mmCreate {kmalloc : Bool} {result : Option Nat}
    (create : state.mmCreate allocator boot kmalloc = .ok (result, after)) :
    (SpaceCall.mmCreate kmalloc).run boot allocator state = .ok after := by
  unfold SpaceCall.run
  simp only [create, bind, Except.bind]
  rfl

theorem SpacesSound.stepMmCreate (kmalloc : Bool) (allocator : PageAllocator) : ∃ after,
    (SpaceCall.mmCreate kmalloc).run boot allocator state = .ok after ∧
      SpacesSettled boot state after none := by
  rcases sound.mmCreate allocator kmalloc with ⟨made, create, later, kept, _⟩ | ⟨page, isFree, create⟩
  · exact ⟨made, SpaceCall.run_mmCreate create, ⟨_, _, _, later⟩, kept⟩
  · obtain ⟨later, kept⟩ := sound.planted isFree
    exact ⟨_, SpaceCall.run_mmCreate create, ⟨_, _, _, later⟩, kept⟩

theorem SpacesSound.stepMmMap {addr len vmFlags : Nat} {kmalloc : Bool}
    (isMm : state.mms pgdir = some mm) (meets : MapMeets mm.areas addr len kmalloc)
    (allocator : PageAllocator) : ∃ after,
    (SpaceCall.mmMap pgdir addr len vmFlags kmalloc).run boot allocator state = .ok after ∧
      SpacesSettled boot state after (some pgdir) := by
  obtain ⟨ret, areas, ran, mapped, areasSound⟩ :=
    mmMap_returns (sound.areas pgdir mm isMm) meets vmFlags
  have more : ∀ vma ∈ mm.areas.mmapList, vma ∈ areas.mmapList := by
    intro vma member
    rcases mapped with ⟨_, _, sameList⟩ | ⟨_, before, rest, split, joined⟩
    · rw [sameList]
      exact member
    · rw [split, List.mem_append] at member
      rw [joined, List.mem_append, List.mem_cons]
      exact member.imp_right Or.inr
  obtain ⟨later, kept⟩ := sound.setAreas isMm areasSound more
  unfold SpaceCall.run
  simp only [Spaces.mm_eq isMm, ran, bind, Except.bind]
  exact ⟨_, rfl, ⟨_, _, _, later⟩, kept⟩

theorem SpacesSound.stepFindVma {addr : Nat} (isMm : state.mms pgdir = some mm)
    (allocator : PageAllocator) : ∃ after,
    (SpaceCall.findVma pgdir addr).run boot allocator state = .ok after ∧
      SpacesSettled boot state after none := by
  have areasSound := sound.areas pgdir mm isMm
  have sameList := (CachedMm.findVma_snd areasSound.known addr).1
  obtain ⟨later, kept⟩ := sound.setAreas isMm (areasSound.findVma addr) fun vma member =>
    sameList.symm ▸ member
  unfold SpaceCall.run
  simp only [Spaces.mm_eq isMm, bind, Except.bind]
  refine ⟨_, rfl, ⟨_, _, _, later⟩, fun root mm' isMm' _ => ?_⟩
  by_cases same : root = pgdir
  · subst same
    obtain rfl := Option.some.inj (isMm'.symm.trans isMm)
    exact ⟨⟨_, Spaces.setMm_self, sameList⟩, fun _ _ => .refl root⟩
  · exact kept root mm' isMm' fun here => same (Option.some.inj here).symm

theorem SpacesSound.stepPgdirAllocPage {perm : Nat} (isMm : state.mms pgdir = some mm)
    (covered : Covered mm.areas.mmapList la) (flags : perm < 2 ^ 10) (allocator : PageAllocator) :
    ∃ after, (SpaceCall.pgdirAllocPage pgdir la perm).run boot allocator state = .ok after ∧
      SpacesSettled boot state after (some pgdir) := by
  have known := (sound.known pgdir).mpr ⟨mm, isMm⟩
  obtain ⟨vma, member, contains⟩ := covered
  have user : la < userTop :=
    Nat.lt_of_lt_of_le contains.2 ((sound.areas pgdir mm isMm).vmas.each vma member).user.2.2
  obtain ⟨result, memory, tables', ran, moved, _, confined, _⟩ :=
    sound.counted.pgdirAllocPage known user flags allocator
  have backed : Backed memory pgdir mm.areas.mmapList := by
    intro other inUser leads
    by_cases here : pagePath other = pagePath la
    · refine ⟨vma, member, ?_⟩
      have whole := (sound.areas pgdir mm isMm).vmas.each vma member
      exact whole.contains_page contains ((pagePath_eq inUser user).mp here)
    · rw [(confined.kept pgdir known other inUser fun both => here both.2).pte] at leads
      exact sound.backed pgdir mm isMm other inUser leads
  obtain ⟨later, kept⟩ := sound.changed isMm moved confined (sound.areas pgdir mm isMm) backed
  have same : (state.setMemory memory).setMm pgdir (some { mm with areas := mm.areas }) =
      state.setMemory memory := Spaces.setMm_same isMm
  rw [same] at later kept
  unfold SpaceCall.run
  simp only [ran, bind, Except.bind]
  exact ⟨_, rfl, ⟨_, _, _, later⟩, kept⟩

theorem SpacesSound.stepStore {bytes : Bytes} (isMm : state.mms pgdir = some mm) (user : la < userTop)
    (allocator : PageAllocator) : ∃ after,
    (SpaceCall.store pgdir la bytes).run boot allocator state = .ok after ∧
      SpacesSettled boot state after (some pgdir) := by
  obtain ⟨later, kept⟩ := sound.store isMm user
  exact ⟨_, rfl, ⟨_, _, _, later⟩, kept⟩

theorem SpacesSound.stepAdopt {pid : Nat} (isMm : state.mms pgdir = some mm)
    (without : state.current pid = none) (allocator : PageAllocator) : ∃ after,
    (SpaceCall.adopt pid pgdir).run boot allocator state = .ok after ∧
      SpacesSettled boot state after none := by
  obtain ⟨after, ran, later, kept, _⟩ := sound.adopt isMm without
  exact ⟨after, ran, ⟨_, _, _, later⟩, kept⟩

theorem SpacesSound.stepDiscard (isMm : state.mms pgdir = some mm) (unused : mm.count = 0)
    (allocator : PageAllocator) : ∃ after,
    (SpaceCall.discard pgdir).run boot allocator state = .ok after ∧
      SpacesSettled boot state after (some pgdir) := by
  obtain ⟨emptied, after, tables', exited, put, later, kept, _⟩ := sound.discard isMm unused allocator
  exact ⟨_, Spaces.discard_eq isMm exited put, ⟨_, _, _, later⟩, kept⟩

theorem SpacesSound.stepExitMm (pid : Nat) (allocator : PageAllocator) : ∃ after,
    (SpaceCall.exitMm pid).run boot allocator state = .ok after ∧
      SpacesSettled boot state after ((SpaceCall.exitMm pid).acts state) := by
  cases holds : state.current pid with
  | none =>
      have ran : state.exitMm allocator pid = .ok state := by
        unfold Spaces.exitMm
        rw [holds]
      exact ⟨state, ran, ⟨_, _, _, sound⟩, .refl _⟩
  | some pgdir =>
      obtain ⟨mm, isMm⟩ := (sound.known pgdir).mp (sound.held pid pgdir holds)
      by_cases last : mm.count = 1
      · obtain ⟨_, left, _, ran, _, _, _, later, kept, _⟩ := sound.exitMm_last holds isMm last allocator
        have acts : (SpaceCall.exitMm pid).acts state = some pgdir := by
          simp [SpaceCall.acts, holds, isMm, last]
        rw [acts]
        exact ⟨left, ran, ⟨_, _, _, later⟩, kept⟩
      · obtain ⟨left, ran, later, kept⟩ := sound.exitMm_shared holds isMm last allocator
        exact ⟨left, ran, ⟨_, _, _, later⟩, kept.any _⟩

/-- `copy_mm` with `CLONE_VM`, and of a kernel thread. -/
theorem SpacesSound.stepCopyMm {cloneVm kmalloc : Bool} {parent child : Nat} {vmas : Vma → Bool}
    (without : state.current child = none) (plain : cloneVm = true ∨ state.current parent = none)
    (allocator : PageAllocator) : ∃ after,
    (SpaceCall.copyMm cloneVm parent child kmalloc vmas).run boot allocator state = .ok after ∧
      SpacesSettled boot state after none := by
  unfold SpaceCall.run
  cases holds : state.current parent with
  | none =>
      have ran : state.copyMm allocator boot cloneVm parent child kmalloc vmas = .ok (true, state) := by
        unfold Spaces.copyMm
        rw [holds]
      simp only [ran, bind, Except.bind]
      exact ⟨state, rfl, ⟨_, _, _, sound⟩, .refl _⟩
  | some source =>
      have isClone : cloneVm = true := plain.resolve_right (holds ▸ Option.some_ne_none source)
      obtain ⟨old, isOld⟩ := (sound.known source).mp (sound.held parent source holds)
      obtain ⟨shared, adopts, later, kept, _⟩ := sound.adopt isOld without
      have ran : state.copyMm allocator boot cloneVm parent child kmalloc vmas = .ok (true, shared) := by
        unfold Spaces.copyMm
        rw [holds]
        simp only [isClone, if_true, adopts, bind, Except.bind]
        rfl
      simp only [ran, bind, Except.bind]
      exact ⟨shared, rfl, ⟨_, _, _, later⟩, kept⟩

theorem SpacesSound.returns {call : SpaceCall} (admitted : call.Admitted state)
    (plain : call.Plain state) (allocator : PageAllocator) : ∃ after,
    call.run boot allocator state = .ok after ∧ SpacesSettled boot state after (call.acts state) := by
  cases call with
  | mmCreate kmalloc => exact sound.stepMmCreate kmalloc allocator
  | mmMap pgdir addr len vmFlags kmalloc =>
      obtain ⟨mm, isMm⟩ := Option.ne_none_iff_exists'.mp admitted
      exact sound.stepMmMap isMm (plain mm isMm) allocator
  | findVma pgdir addr =>
      obtain ⟨mm, isMm⟩ := Option.ne_none_iff_exists'.mp admitted
      exact sound.stepFindVma isMm allocator
  | pgdirAllocPage pgdir la perm =>
      obtain ⟨flags, mm, isMm, covered⟩ := admitted
      exact sound.stepPgdirAllocPage isMm covered flags allocator
  | store pgdir la bytes =>
      obtain ⟨mm, isMm⟩ := Option.ne_none_iff_exists'.mp admitted.1
      exact sound.stepStore isMm admitted.2 allocator
  | adopt pid pgdir =>
      obtain ⟨mm, isMm⟩ := Option.ne_none_iff_exists'.mp admitted.2
      exact sound.stepAdopt isMm admitted.1 allocator
  | discard pgdir =>
      obtain ⟨mm, isMm, unused⟩ := admitted
      exact sound.stepDiscard isMm unused allocator
  | copyMm cloneVm parent child kmalloc vmas => exact sound.stepCopyMm admitted plain allocator
  | exitMm pid => exact sound.stepExitMm pid allocator

theorem SpacesSound.settles {call : SpaceCall} (admitted : call.Admitted state)
    (ran : call.run boot allocator state = .ok after) :
    SpacesSettled boot state after (call.acts state) := by
  have settled : ∀ plain : call.Plain state, SpacesSettled boot state after (call.acts state) := by
    intro plain
    obtain ⟨after', ran', settles⟩ := sound.returns admitted plain allocator
    rw [ran] at ran'
    obtain rfl := Except.ok.inj ran'
    exact settles
  cases call with
  | copyMm cloneVm parent child kmalloc vmas =>
      by_cases plain : cloneVm = true ∨ state.current parent = none
      · exact settled plain
      · obtain ⟨notClone, hasMm⟩ := not_or.mp plain
        obtain ⟨source, holds⟩ := Option.ne_none_iff_exists'.mp hasMm
        obtain ⟨⟨success, copied⟩, copyRan, ran⟩ := bind_eq_ok ran
        obtain rfl := Except.ok.inj ran
        rw [Bool.not_eq_true _ |>.mp notClone] at copyRan
        obtain ⟨later, kept, _⟩ := sound.copyNew admitted holds copyRan
        exact ⟨later, kept⟩
  | mmMap pgdir addr len vmFlags kmalloc =>
      obtain ⟨mm, isMm⟩ := Option.ne_none_iff_exists'.mp admitted
      by_cases meets : MapMeets mm.areas addr len kmalloc
      · exact settled fun other isOther => Option.some.inj (isMm.symm.trans isOther) ▸ meets
      · unfold SpaceCall.run at ran
        simp only [Spaces.mm_eq isMm, mmMap_stops (sound.areas pgdir mm isMm) meets, bind,
          Except.bind] at ran
        cases ran
  | _ => exact settled trivial

end Step

/-! ## Runs -/

/-- A memory in which no `mm` was made. -/
structure FreshSpaces (boot : Nat) (state : Spaces) (window : Nat → Option Nat) : Prop where
  pages : Fresh boot ⟨state.memory, ∅, ∅⟩ window
  mms : ∀ pgdir, state.mms pgdir = none
  current : ∀ pid, state.current pid = none

theorem FreshSpaces.sound {window : Nat → Option Nat} (fresh : FreshSpaces boot state window) :
    SpacesSound boot state ∅ ∅ ⟨fun _ => none, window⟩ := by
  have pages := fresh.pages.sound
  have noMm : ∀ {pgdir mm}, state.mms pgdir ≠ some mm := by
    intro pgdir mm isMm
    rw [fresh.mms pgdir] at isMm
    cases isMm
  constructor
  · exact pages.counted
  · exact pages.isBoot
  · exact fun pgdir => iff_of_false (Finset.notMem_empty pgdir) fun ⟨_, isMm⟩ => noMm isMm
  · exact fun pgdir mm isMm => absurd isMm noMm
  · exact fun pgdir mm isMm => absurd isMm noMm
  · exact fun root isRoot => absurd isRoot (Finset.notMem_empty root)
  · exact fun pid holds => absurd (fresh.current pid) holds
  · intro pid pgdir holds
    rw [fresh.current pid] at holds
    cases holds
  · exact fun pgdir mm isMm => absurd isMm noMm

theorem SpacesSound.run {last : Spaces} {calls : List (PageAllocator × SpaceCall)}
    (sound : SpacesSound boot state dirs pids tables)
    (run : Run (spaceMachine boot).Step state calls last) :
    ∃ dirs pids tables, SpacesSound boot last dirs pids tables := by
  apply run.invariant (fun state => ∃ dirs pids tables, SpacesSound boot state dirs pids tables)
  · intro before label after sound step
    obtain ⟨dirs, pids, tables, sound⟩ := sound
    exact (sound.settles step.1 step.2).1
  · exact ⟨_, _, _, sound⟩

theorem FreshSpaces.reaches {first : Spaces} {window : Nat → Option Nat}
    {calls : List (PageAllocator × SpaceCall)} (fresh : FreshSpaces boot first window)
    (run : Run (spaceMachine boot).Step first calls state) :
    ∃ dirs pids tables, SpacesSound boot state dirs pids tables := fresh.sound.run run

/-- What holds between calls, for all pages, areas and processes. -/
structure SpacesApart (state : Spaces) : Prop where
  /-- a page that is mapped is in an area, in use, counted once, and mapped nowhere else -/
  pages : ∀ root mm, state.mms root = some mm → ∀ la < userTop, ∀ page,
    pteTarget (state.memory.pteAt root la) = some page →
      Covered mm.areas.mmapList la ∧ page ∉ state.memory.free ∧ state.memory.ref page = 1 ∧
        ∀ other mm', state.mms other = some mm' → ∀ there < userTop,
          pteTarget (state.memory.pteAt other there) = some page →
            root = other ∧ pagePath la = pagePath there
  areas : ∀ root mm, state.mms root = some mm → MmSound mm.areas
  held : ∀ pid root, state.current pid = some root → ∃ mm, state.mms root = some mm
  /-- `mm_count` is the number of processes that hold the `mm` -/
  counts : ∃ pids : Finset Nat, (∀ pid, state.current pid ≠ none → pid ∈ pids) ∧
    ∀ root mm, state.mms root = some mm → mm.count = holders pids state.current root

/-- A page that is mapped at one address has one mapping. -/
theorem Private.mappings_one {root page : Nat} (isPrivate : Private memory dirs) (isRoot : root ∈ dirs)
    (user : la < userTop) (leads : pteTarget (memory.pteAt root la) = some page) :
    memory.mappings dirs page = 1 := by
  have pageOf : ∀ number < userTop / pgSize, number * pgSize < userTop := by
    intro number small
    unfold userTop pgSize at small
    unfold userTop pgSize
    omega
  have number : la / pgSize < userTop / pgSize := by
    unfold userTop at user
    unfold userTop pgSize
    omega
  have samePath : pagePath (la / pgSize * pgSize) = pagePath la := by
    rw [pagePath_eq (pageOf _ number) user, Nat.mul_div_cancel _ (by decide)]
  have within : (root, la / pgSize) ∈ dirs ×ˢ Finset.range (userTop / pgSize) :=
    Finset.mem_product.mpr ⟨isRoot, Finset.mem_range.mpr number⟩
  unfold Memory.mappings
  apply tally_eq_one within
  · rw [decide_eq_true_eq, Memory.pteAt_congr samePath]
    exact leads
  · rintro ⟨other, position⟩ within isPage
    rw [Finset.mem_product, Finset.mem_range] at within
    have inUser := pageOf position within.2
    obtain ⟨rfl, path⟩ := isPrivate root isRoot la user other within.1 (position * pgSize) inUser page
      leads (of_decide_eq_true isPage)
    rw [pagePath_eq user inUser, Nat.mul_div_cancel _ (by decide)] at path
    rw [path]

theorem SpacesSound.apart (sound : SpacesSound boot state dirs pids tables) : SpacesApart state where
  pages root mm isMm la user page leads := by
    have isRoot := (sound.known root).mpr ⟨mm, isMm⟩
    have data := sound.counted.paged.dataPage isRoot (pdx1_lt_two user) leads
    refine ⟨sound.backed root mm isMm la user (leads ▸ Option.some_ne_none page), data.used, ?_, ?_⟩
    · rw [sound.counted.exact page data]
      exact sound.isPrivate.mappings_one isRoot user leads
    · intro other mm' isOther there inUser same
      exact sound.isPrivate root isRoot la user other ((sound.known other).mpr ⟨mm', isOther⟩) there
        inUser page leads same
  areas := sound.areas
  held pid root holds := (sound.known root).mp (sound.held pid root holds)
  counts := ⟨pids, sound.living, sound.counts⟩

/-! ## A fork in sixteen pages -/

def sixteenSpaces : Spaces := ⟨sixteenPages.memory, fun _ => none, fun _ => none⟩

theorem sixteenSpaces_fresh : FreshSpaces 0 sixteenSpaces kernelWindow :=
  ⟨sixteenPages_fresh, fun _ => rfl, fun _ => rfl⟩

/-- Process 7 gets an `mm` with one page. -/
def execute : List (PageAllocator × SpaceCall) :=
  [.mmCreate true, .mmMap 1 0x800000 0x1000 3 true, .pgdirAllocPage 1 0x800000 0x16,
    .store 1 0x800000 fun _ => 5, .adopt 7 1].map (lowestFree, ·)

def fork : SpaceCall := .copyMm false 7 8 true fun _ => true

/-- What can be computed of `Admitted`. -/
def SpaceCall.Ready (state : Spaces) : SpaceCall → Bool
  | .mmCreate _ => true
  | .mmMap pgdir _ _ _ _ => (state.mms pgdir).isSome
  | .findVma pgdir _ => (state.mms pgdir).isSome
  | .pgdirAllocPage pgdir la perm => decide (perm < 2 ^ 10) && (state.mms pgdir).any fun mm =>
      mm.areas.mmapList.any fun vma => decide (vma.vmStart ≤ la ∧ la < vma.vmEnd)
  | .store pgdir la _ => (state.mms pgdir).isSome && decide (la < userTop)
  | .adopt pid pgdir => decide (state.current pid = none) && (state.mms pgdir).isSome
  | .discard pgdir => (state.mms pgdir).any fun mm => decide (mm.count = 0)
  | .copyMm _ _ child _ _ => decide (state.current child = none)
  | .exitMm _ => true

theorem SpaceCall.Ready.admitted {call : SpaceCall} (ready : call.Ready state = true) :
    call.Admitted state := by
  cases call with
  | mmCreate kmalloc => trivial
  | exitMm pid => trivial
  | pgdirAllocPage pgdir la perm =>
      obtain ⟨flags, found⟩ := (Bool.and_eq_true _ _).mp ready
      obtain ⟨mm, isMm, inArea⟩ := (Option.any_eq_true _ _).mp found
      obtain ⟨vma, member, contains⟩ := List.any_eq_true.mp inArea
      exact ⟨of_decide_eq_true flags, mm, isMm, vma, member, of_decide_eq_true contains⟩
  | discard pgdir =>
      obtain ⟨mm, isMm, unused⟩ := (Option.any_eq_true _ _).mp ready
      exact ⟨mm, isMm, of_decide_eq_true unused⟩
  | _ => simpa [SpaceCall.Ready, SpaceCall.Admitted, Option.isSome_iff_ne_none] using ready

/-- A step that can be computed. -/
def SpaceCall.next (state : Spaces) (label : PageAllocator × SpaceCall) : Option Spaces :=
  if label.2.Ready state = true then (label.2.run 0 label.1 state).toOption else none

theorem SpaceCall.next_step {label : PageAllocator × SpaceCall} (moved : SpaceCall.next state label = some after) :
    (spaceMachine 0).Step state label after := by
  unfold SpaceCall.next at moved
  split_ifs at moved with ready
  exact ⟨SpaceCall.Ready.admitted ready, ok_of_toOption moved⟩

/-- Process 7 can fork: the copy succeeds. -/
theorem execute_run : ∃ state forked, Run (spaceMachine 0).Step sixteenSpaces execute state ∧
    (state.current 7 = some 1 ∧ state.current 8 = none) ∧
      state.copyMm lowestFree 0 false 7 8 true (fun _ => true) = .ok (true, forked) := by
  have done : ((follow SpaceCall.next sixteenSpaces execute).any fun state =>
      decide (state.current 7 = some 1 ∧ state.current 8 = none) &&
        (state.copyMm lowestFree 0 false 7 8 true fun _ => true).toOption.any fun copied =>
          copied.1) = true := by decide +kernel
  obtain ⟨state, followed, checks⟩ := (Option.any_eq_true _ _).mp done
  obtain ⟨current, copies⟩ := (Bool.and_eq_true _ _).mp checks
  have run := follow_run (fun _ _ _ => SpaceCall.next_step) followed
  obtain ⟨⟨success, forked⟩, isCopy, isDone⟩ := (Option.any_eq_true _ _).mp copies
  obtain rfl : success = true := isDone
  exact ⟨state, forked, run, of_decide_eq_true current, ok_of_toOption isCopy⟩

/-! ## Address spaces are apart -/

/-- In every state that calls reach, address spaces are apart and the counts are exact. A further call
returns, unless it copies pages or `mm_map` finds an area that starts inside its range, and no other
`mm` notices it. -/
theorem address_spaces_apart {first : Spaces} {window : Nat → Option Nat}
    {calls : List (PageAllocator × SpaceCall)} (fresh : FreshSpaces boot first window)
    (run : Run (spaceMachine boot).Step first calls state) :
    SpacesApart state ∧ ∀ allocator (call : SpaceCall), call.Admitted state →
      (call.Plain state → ∃ after, call.run boot allocator state = .ok after) ∧
      ∀ after, call.run boot allocator state = .ok after →
        SpacesApart after ∧ OthersKept state after (call.acts state) := by
  obtain ⟨dirs, pids, tables, sound⟩ := fresh.reaches run
  refine ⟨sound.apart, fun allocator call admitted => ⟨fun plain => ?_, fun after ran => ?_⟩⟩
  · obtain ⟨after, ran, _⟩ := sound.returns admitted plain allocator
    exact ⟨after, ran⟩
  · obtain ⟨⟨_, _, _, later⟩, kept⟩ := sound.settles admitted ran
    exact ⟨later.apart, kept⟩

theorem address_spaces_apart_small : ∃ state, Run (spaceMachine 0).Step sixteenSpaces execute state ∧
    state.current 7 = some 1 ∧ SpacesApart state := by
  obtain ⟨state, _, run, current, _⟩ := execute_run
  exact ⟨state, run, current.1, (address_spaces_apart sixteenSpaces_fresh run).1⟩

/-! ## What others do -/

/-- Steps that are not for an `mm`. -/
def NotFor (root : Nat) (state : Spaces) (label : PageAllocator × SpaceCall) : Prop :=
  label.2.acts state ≠ some root

/-- What an `mm` sees in one state it sees in another. -/
def SameSpace (root : Nat) (state after : Spaces) : Prop :=
  ∀ mm, state.mms root = some mm →
    (∃ mm', after.mms root = some mm' ∧ mm'.areas.mmapList = mm.areas.mmapList) ∧
      ∀ la < userTop, Kept state.memory after.memory root la

theorem SameSpace.trans {root : Nat} {last : Spaces} (early : SameSpace root state after)
    (late : SameSpace root after last) : SameSpace root state last := by
  intro mm isMm
  obtain ⟨⟨mm', isMm', sameAreas⟩, kept⟩ := early mm isMm
  obtain ⟨⟨mm'', isMm'', stillSame⟩, keptNext⟩ := late mm' isMm'
  exact ⟨⟨mm'', isMm'', stillSame.trans sameAreas⟩, fun la user => (kept la user).trans (keptNext la user)⟩

theorem SpacesSound.sameSpace {root : Nat} {calls : List (PageAllocator × SpaceCall)} {last : Spaces}
    (sound : SpacesSound boot state dirs pids tables)
    (run : Run ((spaceMachine boot).StepMeeting (NotFor root)) state calls last) :
    SameSpace root state last := by
  induction run generalizing dirs pids tables with
  | nil state => exact fun mm isMm => ⟨⟨mm, isMm, rfl⟩, fun _ _ => .refl root⟩
  | cons move _ inductionHypothesis =>
      obtain ⟨⟨admitted, ran⟩, notFor⟩ := move
      obtain ⟨⟨dirs, pids, tables, later⟩, kept⟩ := sound.settles admitted ran
      have first : SameSpace root _ _ := fun mm isMm => kept root mm isMm notFor
      exact first.trans (inductionHypothesis later)

/-- Whatever calls are made for other `mm`s, in any order, the areas of an `mm` and what is mapped and
stored at its addresses stay. -/
theorem others_unnoticed {first last : Spaces} {window : Nat → Option Nat} {root : Nat}
    {calls more : List (PageAllocator × SpaceCall)} (fresh : FreshSpaces boot first window)
    (run : Run (spaceMachine boot).Step first calls state)
    (others : Run ((spaceMachine boot).StepMeeting (NotFor root)) state more last) :
    SameSpace root state last := by
  obtain ⟨dirs, pids, tables, sound⟩ := fresh.reaches run
  exact sound.sameSpace others

theorem others_unnoticed_small : ∃ state last, Run (spaceMachine 0).Step sixteenSpaces execute state ∧
    Run ((spaceMachine 0).StepMeeting (NotFor 1)) state [(lowestFree, fork)] last ∧
      state.current 7 = some 1 ∧ SameSpace 1 state last := by
  obtain ⟨state, forked, run, current, copied⟩ := execute_run
  have ran : fork.run 0 lowestFree state = .ok forked := by
    unfold fork SpaceCall.run
    simp only [copied, bind, Except.bind]
    rfl
  have others : Run ((spaceMachine 0).StepMeeting (NotFor 1)) state [(lowestFree, fork)] forked :=
    .single ⟨⟨current.2, ran⟩, Option.some_ne_none 1 |>.symm⟩
  exact ⟨state, forked, run, others, current.1, others_unnoticed sixteenSpaces_fresh run others⟩

/-! ## Forks -/

/-- What `mms` and `current` are after `copy_mm`, and, where it succeeds, that the new `mm` is a copy of
the old one, and stays one for as long as no call is for it. -/
def Forked (boot : Nat) (state after : Spaces) (source child : Nat) : Bool → Prop
  | true => ∃ target old copy, state.mms target = none ∧ state.mms source = some old ∧
      after.mms target = some copy ∧ copy.count = 1 ∧
      after.current = Function.update state.current child (some target) ∧
      ∀ calls last, Run ((spaceMachine boot).StepMeeting (NotFor target)) after calls last →
        (∃ mm, last.mms target = some mm ∧ mm.areas.mmapList = old.areas.mmapList) ∧
          CopyOf state.memory last.memory source target
  | false => after.mms = state.mms ∧ after.current = state.current

/-- What is kept of a copy is a copy. -/
theorem CopyOf.kept {last : Memory} {source target : Nat} (copy : CopyOf memory state.memory source target)
    (kept : ∀ la < userTop, Kept state.memory last target la) : CopyOf memory last source target := by
  intro la user
  obtain ⟨absent, present⟩ := copy la user
  refine ⟨fun none => (kept la user).pte.trans (absent none), fun page leads => ?_⟩
  obtain ⟨npage, wasFree, isCopy, rights, contents⟩ := present page leads
  refine ⟨npage, wasFree, ?_, ?_, ((kept la user).bytes npage isCopy).trans contents⟩
  · rw [(kept la user).pte]
    exact isCopy
  · rw [(kept la user).pte]
    exact rights

/-- `copy_mm` without `CLONE_VM`, from any state that calls reach: exactly where it comes to a page of
the parent for whose contents there is no page, `assert(npage != NULL)` stops the kernel. -/
theorem fork_copies_space {first : Spaces} {window : Nat → Option Nat} {parent child source : Nat}
    {calls : List (PageAllocator × SpaceCall)} (fresh : FreshSpaces boot first window)
    (run : Run (spaceMachine boot).Step first calls state) (without : state.current child = none)
    (holds : state.current parent = some source) (kmalloc : Bool) (vmas : Vma → Bool)
    (allocator : PageAllocator) :
    (state.CopyMmStops allocator boot source kmalloc vmas ∧
      state.copyMm allocator boot false parent child kmalloc vmas = .error .assertFailed) ∨
    (¬ state.CopyMmStops allocator boot source kmalloc vmas ∧ ∃ success after,
      state.copyMm allocator boot false parent child kmalloc vmas = .ok (success, after) ∧
      SpacesApart after ∧ OthersKept state after none ∧ Forked boot state after source child success) := by
  obtain ⟨dirs, pids, tables, sound⟩ := fresh.reaches run
  rcases sound.copyNew_returns without holds kmalloc vmas allocator with
    stops | ⟨returns, success, after, ran, ⟨_, _, _, later⟩, kept, done⟩
  · exact Or.inl stops
  · refine Or.inr ⟨returns, success, after, ran, later.apart, kept, ?_⟩
    cases success with
    | false => exact done
    | true =>
        obtain ⟨target, old, copy, isNew, isOld, isCopy, sameAreas, one, isCurrent, copyOf⟩ := done
        refine ⟨target, old, copy, isNew, isOld, isCopy, one, isCurrent, fun calls last others => ?_⟩
        obtain ⟨⟨mm, isMm, still⟩, keptCopy⟩ := later.sameSpace others copy isCopy
        exact ⟨⟨mm, isMm, still.trans sameAreas⟩, copyOf.kept keptCopy⟩

theorem fork_copies_space_small : ∃ state after, state.current 7 = some 1 ∧
    state.copyMm lowestFree 0 false 7 8 true (fun _ => true) = .ok (true, after) ∧
      Forked 0 state after 1 8 true := by
  obtain ⟨state, forked, run, current, copied⟩ := execute_run
  rcases fork_copies_space sixteenSpaces_fresh run current.2 current.1 true (fun _ => true) lowestFree with
    ⟨_, stops⟩ | ⟨_, success, after, ran, _, _, done⟩
  · rw [stops] at copied
    cases copied
  · rw [ran] at copied
    obtain ⟨rfl, rfl⟩ := Prod.mk.inj (Except.ok.inj copied)
    exact ⟨state, after, current.1, ran, done⟩

/-! ## The last exit -/

/-- A place at which a directory can have a table for user addresses. -/
def UserTable (place : List Nat) : Prop := place.length < pageRadix.depth ∧ pageRadix.UsesAll [] place

/-- The table at a place of a directory. -/
def Memory.tableAt (memory : Memory) (pgdir : Nat) (place : List Nat) : Option Nat :=
  pageRadix.walk memory.entry pgdir place

/-- The places at which a directory has tables. -/
def Memory.userTables (memory : Memory) (pgdir : Nat) : Set (List Nat) :=
  { place | UserTable place ∧ memory.tableAt pgdir place ≠ none }

section TableAt

variable {page : Nat} {place : List Nat} (paged : Paged memory dirs tables) (known : pgdir ∈ dirs)

include paged known

theorem Paged.tableAt_iff :
    UserTable place ∧ memory.tableAt pgdir place = some page ↔ tables.owner page = some (pgdir, place) := by
  have walks : ∀ short : UserTable place, memory.tableAt pgdir place = some page ↔
      tables.owner page = some (pgdir, place) := by
    intro short
    have deep : ([] : List Nat).length + place.length < pageRadix.depth :=
      (Nat.zero_add _).symm ▸ short.1
    exact paged.owned.walk_iff (paged.owner_dir known) deep short.2
  constructor
  · exact fun both => (walks both.1).mp both.2
  · intro here
    have short : UserTable place := ⟨paged.place_length here, paged.owned.usesAll here⟩
    exact ⟨short, (walks short).mpr here⟩

theorem Paged.userTables_eq : memory.userTables pgdir = Tables tables pgdir := by
  ext place
  constructor
  · rintro ⟨short, isTable⟩
    obtain ⟨page, isPage⟩ := Option.ne_none_iff_exists'.mp isTable
    exact ⟨page, (paged.tableAt_iff known).mp ⟨short, isPage⟩⟩
  · rintro ⟨page, here⟩
    obtain ⟨short, isPage⟩ := (paged.tableAt_iff known).mpr here
    exact ⟨short, isPage ▸ Option.some_ne_none page⟩

end TableAt

/-- The last process that holds an `mm` gives it up: the pages that it maps and its directory are free,
and of its tables those that `exit_range` frees; nothing else is. A table of a later area is lost where
`exit_range` released the second-level table above it for an earlier one. -/
theorem last_exit_frees {first : Spaces} {window : Nat → Option Nat} {pid : Nat} {mm : AddressSpace}
    {calls : List (PageAllocator × SpaceCall)} (fresh : FreshSpaces boot first window)
    (run : Run (spaceMachine boot).Step first calls state) (holds : state.current pid = some pgdir)
    (isMm : state.mms pgdir = some mm) (last : mm.count = 1) (allocator : PageAllocator) :
    ∃ after, state.exitMm allocator pid = .ok after ∧ SpacesApart after ∧
      OthersKept state after (some pgdir) ∧ after.mms pgdir = none ∧ after.current pid = none ∧
      ∀ page, page ∈ after.memory.free ↔ page ∈ state.memory.free ∨
        (∃ la < userTop, pteTarget (state.memory.pteAt pgdir la) = some page) ∨
        ∃ place, UserTable place ∧ state.memory.tableAt pgdir place = some page ∧
          (place = [] ∨ place ∈ freedAreas (state.memory.userTables pgdir) mm.areas.mmapList) := by
  obtain ⟨dirs, pids, tables, sound⟩ := fresh.reaches run
  have known := (sound.known pgdir).mpr ⟨mm, isMm⟩
  have paged := sound.counted.paged
  obtain ⟨_, left, _, ran, rfl, mms, current, later, kept, torn⟩ :=
    sound.exitMm_last holds isMm last allocator
  refine ⟨left, ran, later.apart, kept, ?_, ?_, fun page => ?_⟩
  · rw [mms, Function.update_self]
  · rw [current, Function.update_self]
  · rw [torn.free page, paged.userTables_eq known]
    refine or_congr_right (or_congr ?_ (exists_congr fun place => ?_))
    · apply and_iff_left_of_imp
      rintro ⟨la, user, leads⟩ ⟨other, isOther, there, inUser, same⟩
      obtain ⟨apart, isRoot⟩ := Finset.mem_erase.mp isOther
      exact apart (sound.isPrivate other isRoot there inUser pgdir known la user page same leads).1
    · rw [← paged.tableAt_iff known, and_assoc]

/-- Process 7 gets an `mm` with two areas of a page in one block of a second-level table. -/
def executeTwo : List (PageAllocator × SpaceCall) :=
  [.mmCreate true, .mmMap 1 0x800000 0x1000 3 true, .mmMap 1 0xA00000 0x1000 3 true,
    .pgdirAllocPage 1 0x800000 0x16, .pgdirAllocPage 1 0xA00000 0x16, .adopt 7 1].map (lowestFree, ·)

/-- The lowest table of the second area, page 6, stays in use. -/
theorem last_exit_frees_small : ∃ state after : Spaces,
    Run (spaceMachine 0).Step sixteenSpaces executeTwo state ∧ state.current 7 = some 1 ∧
      state.exitMm lowestFree 7 = .ok after ∧ after.mms 1 = none ∧
      state.memory.tableAt 1 [0, 5] = some 6 ∧ 6 ∉ after.memory.free ∧
      ({1, 2, 3, 4, 5} ⊆ after.memory.free) ∧
      ∀ mm, state.mms 1 = some mm →
        [0, 5] ∉ freedAreas (state.memory.userTables 1) mm.areas.mmapList := by
  have done : ((follow SpaceCall.next sixteenSpaces executeTwo).any fun state =>
      decide (state.current 7 = some 1 ∧ state.memory.tableAt 1 [0, 5] = some 6) &&
        ((state.mms 1).any fun mm => decide (mm.count = 1)) &&
          (state.exitMm lowestFree 7).toOption.any fun after =>
            decide (6 ∉ after.memory.free ∧ {1, 2, 3, 4, 5} ⊆ after.memory.free)) =
      true := by decide +kernel
  obtain ⟨state, followed, checks⟩ := (Option.any_eq_true _ _).mp done
  obtain ⟨rest, exits⟩ := (Bool.and_eq_true _ _).mp checks
  obtain ⟨places, counted⟩ := (Bool.and_eq_true _ _).mp rest
  obtain ⟨current, isTable⟩ := of_decide_eq_true places
  obtain ⟨mm, isMm, one⟩ := (Option.any_eq_true _ _).mp counted
  have run := follow_run (fun _ _ _ => SpaceCall.next_step) followed
  obtain ⟨after, ran, _, _, gone, _, free⟩ :=
    last_exit_frees sixteenSpaces_fresh run current isMm (of_decide_eq_true one) lowestFree
  rw [ran] at exits
  obtain ⟨used, isFree⟩ := of_decide_eq_true exits
  have place : UserTable [0, 5] := ⟨by decide, by decide, by decide, trivial⟩
  refine ⟨state, after, run, current, ran, gone, isTable, used, isFree, fun other isOther isFreed => ?_⟩
  obtain rfl := Option.some.inj (isMm.symm.trans isOther)
  exact used ((free 6).mpr (Or.inr (Or.inr ⟨[0, 5], place, isTable, Or.inr isFreed⟩)))

end UCore.Mm
