import UCore.Mm.AddressSpaces

/-!
Contract: runs of the calls on address spaces.

Owns:
- the invariant: every page is mapped at one address of one `mm`, inside its areas, and `mm_count` is
  the number of processes that hold the `mm`;
- what each call does to the `mm` it is for, and that no other `mm` notices;
- a fork gives a copy of its own, and the last exit gives the memory back.

Does not own: the calls themselves, which are in `Mm.AddressSpaces`.
-/

set_option autoImplicit false

namespace UCore.Mm

open UCore.Lib

variable {memory after : Memory} {dirs pids : Finset Nat} {tables tables' : TableMap}
  {dir pgdir la page boot : Nat} {allocator : PageAllocator} {state : Spaces}

/-! ## The invariant -/

/-- Every page is mapped at one address. -/
def Private (memory : Memory) (dirs : Finset Nat) : Prop :=
  ∀ root ∈ dirs, ∀ la < userTop, ∀ other ∈ dirs, ∀ there < userTop, ∀ page,
    pteTarget (memory.pteAt root la) = some page → pteTarget (memory.pteAt other there) = some page →
      root = other ∧ pagePath la = pagePath there

/-- New pages were free, and are mapped once. -/
theorem Confined.isPrivate {within : Nat → Prop} (counted : Counted memory dirs tables)
    (isPrivate : Private memory dirs) (confined : Confined memory after dirs dir within) :
    Private after dirs := by
  have origin : ∀ root ∈ dirs, ∀ la < userTop, ∀ page, pteTarget (after.pteAt root la) = some page →
      pteTarget (memory.pteAt root la) = some page ∨ root = dir ∧ page ∈ memory.free := by
    intro root isRoot la user page leads
    by_cases isDir : root = dir
    · subst isDir
      exact (confined.new la user page leads).imp_right fun isFree => ⟨rfl, isFree⟩
    · rw [(confined.kept root isRoot la user fun both => isDir both.1).pte] at leads
      exact Or.inl leads
  have used : ∀ root ∈ dirs, ∀ la < userTop, ∀ page, pteTarget (memory.pteAt root la) = some page →
      page ∉ memory.free :=
    fun root isRoot la user page leads => counted.maps_used ⟨root, isRoot, la, user, leads⟩
  intro root isRoot la user other isOther there otherUser page leads same
  rcases origin root isRoot la user page leads with old | ⟨rfl, isFree⟩
  · rcases origin other isOther there otherUser page same with alsoOld | ⟨_, isFree⟩
    · exact isPrivate root isRoot la user other isOther there otherUser page old alsoOld
    · exact absurd isFree (used root isRoot la user page old)
  · rcases origin other isOther there otherUser page same with old | ⟨rfl, _⟩
    · exact absurd isFree (used other isOther there otherUser page old)
    · exact ⟨rfl, confined.apart la user there otherUser page isFree leads same⟩

/-- Entries that are as before map as before. -/
theorem Private.congr {fewer : Finset Nat} (isPrivate : Private memory dirs) (subset : fewer ⊆ dirs)
    (same : ∀ root ∈ fewer, ∀ la < userTop, after.pteAt root la = memory.pteAt root la) :
    Private after fewer := by
  intro root isRoot la user other isOther there otherUser page leads alsoLeads
  rw [same root isRoot la user] at leads
  rw [same other isOther there otherUser] at alsoLeads
  exact isPrivate root (subset isRoot) la user other (subset isOther) there otherUser page leads
    alsoLeads

/-- How many processes hold an `mm`. -/
def holders (pids : Finset Nat) (current : Nat → Option Nat) (pgdir : Nat) : Int :=
  tally pids current fun mm => decide (mm = some pgdir)

structure SpacesSound (boot : Nat) (state : Spaces) (dirs pids : Finset Nat) (tables : TableMap) :
    Prop where
  counted : Counted state.memory dirs tables
  isBoot : BootDirectory state.memory tables boot
  known : ∀ pgdir, pgdir ∈ dirs ↔ ∃ mm, state.mms pgdir = some mm
  areas : ∀ pgdir mm, state.mms pgdir = some mm → MmSound mm.areas
  backed : ∀ pgdir mm, state.mms pgdir = some mm → Backed state.memory pgdir mm.areas.mmapList
  isPrivate : Private state.memory dirs
  living : ∀ pid, state.current pid ≠ none → pid ∈ pids
  held : ∀ pid pgdir, state.current pid = some pgdir → pgdir ∈ dirs
  counts : ∀ pgdir mm, state.mms pgdir = some mm → mm.count = holders pids state.current pgdir

/-! ## Processes -/

section Holders

variable {current : Nat → Option Nat} {pid name : Nat}

/-- A process that had no `mm` gets one. -/
theorem holders_adopt (without : current pid = none) :
    holders (insert pid pids) (Function.update current pid (some pgdir)) name =
      holders pids current name + if name = pgdir then 1 else 0 := by
  unfold holders
  rw [tally_update (Finset.mem_insert_self pid pids), without]
  have same : tally (insert pid pids) current (fun mm => decide (mm = some name)) =
      tally pids current fun mm => decide (mm = some name) := by
    apply tally_extend (Finset.subset_insert _ _)
    intro other within outside
    rw [(Finset.mem_insert.mp within).resolve_right outside, without]
    rfl
  rw [same]
  by_cases isName : name = pgdir
  · simp [share, isName]
  · simp [share, isName, Ne.symm isName]

/-- A process gives its `mm` up. -/
theorem holders_exit (living : pid ∈ pids) (holds : current pid = some pgdir) :
    holders pids (Function.update current pid none) name =
      holders pids current name - if name = pgdir then 1 else 0 := by
  unfold holders
  rw [tally_update living, holds]
  by_cases isName : name = pgdir
  · simp [share, isName]
  · simp [share, isName, Ne.symm isName]

theorem holders_none (nobody : ∀ pid, current pid ≠ some pgdir) : holders pids current pgdir = 0 := by
  unfold holders
  exact tally_none fun pid => decide_eq_false (nobody pid)

theorem holders_zero (living : current pid ≠ none → pid ∈ pids)
    (nobody : holders pids current pgdir = 0) : current pid ≠ some pgdir := by
  intro holds
  have none := tally_eq_zero nobody (living (holds ▸ Option.some_ne_none _))
  exact of_decide_eq_false none holds

end Holders

/-! ## Steps -/

/-- What every other `mm` sees is as before. -/
def OthersKept (state after : Spaces) (acts : Option Nat) : Prop :=
  ∀ root mm, state.mms root = some mm → acts ≠ some root →
    (∃ mm', after.mms root = some mm' ∧ mm'.areas.mmapList = mm.areas.mmapList) ∧
      ∀ la < userTop, Kept state.memory after.memory root la

theorem OthersKept.refl (acts : Option Nat) : OthersKept state state acts :=
  fun root mm isMm _ => ⟨⟨mm, isMm, rfl⟩, fun _ _ => .refl root⟩

theorem OthersKept.any {after : Spaces} (kept : OthersKept state after none) (acts : Option Nat) :
    OthersKept state after acts :=
  fun root mm isMm _ => kept root mm isMm (Option.some_ne_none root).symm

theorem OthersKept.trans {first last : Spaces} {acts : Option Nat} (early : OthersKept state first acts)
    (late : OthersKept first last acts) : OthersKept state last acts := by
  intro root mm isMm apart
  obtain ⟨⟨mm', isMm', sameAreas⟩, kept⟩ := early root mm isMm apart
  obtain ⟨⟨mm'', isMm'', stillSame⟩, keptNext⟩ := late root mm' isMm' apart
  exact ⟨⟨mm'', isMm'', stillSame.trans sameAreas⟩, fun la user => (kept la user).trans (keptNext la user)⟩

/-- What happens to an `mm` that was made on the way. -/
theorem OthersKept.made {first last : Spaces} (early : OthersKept state first none)
    (isNew : state.mms pgdir = none) (late : OthersKept first last (some pgdir)) :
    OthersKept state last none := by
  intro root mm isMm apart
  obtain ⟨⟨mm', isMm', sameAreas⟩, kept⟩ := early root mm isMm apart
  have differ : some pgdir ≠ some root := by
    intro same
    rw [Option.some.inj same, isMm] at isNew
    cases isNew
  obtain ⟨⟨mm'', isMm'', stillSame⟩, keptNext⟩ := late root mm' isMm' differ
  exact ⟨⟨mm'', isMm'', stillSame.trans sameAreas⟩, fun la user => (kept la user).trans (keptNext la user)⟩

theorem Spaces.mm_eq {mm : AddressSpace} (isMm : state.mms pgdir = some mm) :
    state.mm pgdir = .ok mm := by
  unfold Spaces.mm
  rw [isMm]

theorem Spaces.setMm_self {mm : Option AddressSpace} : (state.setMm pgdir mm).mms pgdir = mm :=
  Function.update_self _ _ _

theorem Spaces.setMm_of_ne {mm : Option AddressSpace} {name : Nat} (apart : name ≠ pgdir) :
    (state.setMm pgdir mm).mms name = state.mms name := Function.update_of_ne apart _ _

theorem Spaces.setMm_same {mm : AddressSpace} (isMm : state.mms pgdir = some mm) :
    state.setMm pgdir (some mm) = state := by
  unfold Spaces.setMm
  rw [← isMm, Function.update_eq_self]

/-- `target` maps what `source` maps, with the same rights, in pages that were free. -/
def CopyOf (memory after : Memory) (source target : Nat) : Prop :=
  ∀ la < userTop, (pteTarget (memory.pteAt source la) = none → after.pteAt target la = 0) ∧
    ∀ page, pteTarget (memory.pteAt source la) = some page → ∃ npage ∈ memory.free,
      pteTarget (after.pteAt target la) = some npage ∧
        after.pteAt target la &&& pteUser = memory.pteAt source la &&& pteUser ∧
        after.bytes npage = memory.bytes page

section Sound

variable {mm : AddressSpace} (sound : SpacesSound boot state dirs pids tables)

include sound

/-- The entries, areas and counts of other `mm`s do not matter to one of them. -/
theorem SpacesSound.changed {fresh within : Nat → Prop} {areas : CachedMm}
    (isMm : state.mms pgdir = some mm) (moved : PagesMoved state.memory after dirs tables tables' fresh)
    (confined : Confined state.memory after dirs pgdir within) (areasSound : MmSound areas)
    (backed : Backed after pgdir areas.mmapList) :
    SpacesSound boot ((state.setMemory after).setMm pgdir (some { mm with areas := areas })) dirs
        pids tables' ∧
      OthersKept state ((state.setMemory after).setMm pgdir (some { mm with areas := areas }))
        (some pgdir) := by
  have others : ∀ root, root ≠ pgdir → root ∈ dirs → ∀ la < userTop, Kept state.memory after root la :=
    fun root apart isRoot la user => confined.kept root isRoot la user fun both => apart both.1
  refine ⟨⟨moved.counted, sound.isBoot.moved moved, ?_, ?_, ?_,
    confined.isPrivate sound.counted sound.isPrivate, sound.living, sound.held, ?_⟩, ?_⟩
  · intro name
    by_cases same : name = pgdir
    · subst same
      exact iff_of_true ((sound.known name).mpr ⟨mm, isMm⟩) ⟨_, Spaces.setMm_self⟩
    · rw [Spaces.setMm_of_ne same]
      exact sound.known name
  · intro name mm' isMm'
    by_cases same : name = pgdir
    · subst same
      rw [Spaces.setMm_self] at isMm'
      rw [← Option.some.inj isMm']
      exact areasSound
    · rw [Spaces.setMm_of_ne same] at isMm'
      exact sound.areas name mm' isMm'
  · intro name mm' isMm'
    by_cases same : name = pgdir
    · subst same
      rw [Spaces.setMm_self] at isMm'
      rw [← Option.some.inj isMm']
      exact backed
    · rw [Spaces.setMm_of_ne same] at isMm'
      intro la user leads
      apply sound.backed name mm' isMm' la user
      rw [← (others name same ((sound.known name).mpr ⟨mm', isMm'⟩) la user).pte]
      exact leads
  · intro name mm' isMm'
    by_cases same : name = pgdir
    · subst same
      rw [Spaces.setMm_self] at isMm'
      rw [← Option.some.inj isMm']
      exact sound.counts name mm isMm
    · rw [Spaces.setMm_of_ne same] at isMm'
      exact sound.counts name mm' isMm'
  · intro root mm' isMm' apart
    have differ : root ≠ pgdir := fun same => apart (same ▸ rfl)
    exact ⟨⟨mm', (Spaces.setMm_of_ne differ).trans isMm', rfl⟩,
      others root differ ((sound.known root).mpr ⟨mm', isMm'⟩)⟩

/-- Areas change alone. -/
theorem SpacesSound.setAreas {areas : CachedMm} (isMm : state.mms pgdir = some mm)
    (areasSound : MmSound areas) (more : ∀ vma ∈ mm.areas.mmapList, vma ∈ areas.mmapList) :
    SpacesSound boot (state.setMm pgdir (some { mm with areas := areas })) dirs pids tables ∧
      OthersKept state (state.setMm pgdir (some { mm with areas := areas })) (some pgdir) := by
  have known := (sound.known pgdir).mpr ⟨mm, isMm⟩
  have confined : Confined state.memory state.memory dirs pgdir fun _ => True :=
    .of_old sound.counted known (fun root _ _ _ _ => .refl root) fun _ _ _ leads => leads
  have moved : PagesMoved state.memory state.memory dirs tables tables fun _ => False :=
    .refl sound.counted
  refine sound.changed isMm moved confined areasSound ?_
  intro la user leads
  obtain ⟨vma, member, contains⟩ := sound.backed pgdir mm isMm la user leads
  exact ⟨vma, more vma member, contains⟩

theorem SpacesSound.store {bytes : Bytes} (isMm : state.mms pgdir = some mm) (user : la < userTop) :
    SpacesSound boot (state.store pgdir la bytes) dirs pids tables ∧
      OthersKept state (state.store pgdir la bytes) (some pgdir) := by
  unfold Spaces.store
  cases leads : pteTarget (state.memory.pteAt pgdir la) with
  | none => exact ⟨sound, .refl _⟩
  | some page =>
      have known := (sound.known pgdir).mpr ⟨mm, isMm⟩
      have data := sound.counted.paged.dataPage known (pdx1_lt_two user) leads
      have same : ∀ root ∈ dirs, ∀ there, (state.memory.setBytes page bytes).pteAt root there =
          state.memory.pteAt root there := sound.counted.setBytes_pteAt data bytes
      have moved := sound.counted.setBytes_moved data bytes
      refine ⟨⟨moved.counted, sound.isBoot.moved moved, sound.known, sound.areas, ?_,
        sound.isPrivate.congr (Finset.Subset.refl _) fun root isRoot there _ => same root isRoot there,
        sound.living, sound.held, sound.counts⟩, ?_⟩
      · intro name mm' isMm' there inUser isEntry
        apply sound.backed name mm' isMm' there inUser
        rw [← same name ((sound.known name).mpr ⟨mm', isMm'⟩) there]
        exact isEntry
      · intro root mm' isMm' apart
        have isRoot := (sound.known root).mpr ⟨mm', isMm'⟩
        refine ⟨⟨mm', isMm', rfl⟩, fun there inUser => ⟨same root isRoot there, fun target isTarget => ?_⟩⟩
        apply Function.update_of_ne
        rintro rfl
        exact apart (congrArg some (sound.isPrivate pgdir known la user root isRoot there inUser target
          leads isTarget).1)

/-- Counting a call of the allocator changes nothing. -/
theorem SpacesSound.asked (count : Nat) :
    SpacesSound boot (state.setMemory { state.memory with allocs := count }) dirs pids tables ∧
      OthersKept state (state.setMemory { state.memory with allocs := count }) none := by
  have moved := sound.counted.asked count
  refine ⟨⟨moved.counted, sound.isBoot.moved moved, sound.known, sound.areas, sound.backed,
    sound.isPrivate, sound.living, sound.held, sound.counts⟩, fun root mm isMm _ => ?_⟩
  exact ⟨⟨mm, isMm, rfl⟩, fun _ _ => ⟨rfl, fun _ _ => rfl⟩⟩

section Planted

variable (isFree : page ∈ state.memory.free)

include isFree

theorem SpacesSound.notDir : page ∉ dirs := by
  intro known
  have unowned := (sound.counted.paged.spare page isFree).2.1
  rw [sound.counted.paged.owner_dir known] at unowned
  cases unowned

theorem SpacesSound.isNew : state.mms page = none := by
  cases present : state.mms page with
  | none => rfl
  | some mm => exact absurd ((sound.known page).mpr ⟨mm, present⟩) (sound.notDir isFree)

theorem SpacesSound.planted_kept {root : Nat} (isRoot : root ∈ dirs) (user : la < userTop) :
    Kept state.memory (state.memory.planted page boot) root la := by
  refine ⟨sound.counted.planted_pteAt isFree root isRoot la, fun target leads => ?_⟩
  have used := (sound.counted.paged.dataPage isRoot (pdx1_lt_two user) leads).used
  have apart : target ≠ page := fun same => used (same ▸ isFree)
  exact Function.update_of_ne apart _ _

/-- A new `mm` that nobody holds and that maps nothing. -/
theorem SpacesSound.planted :
    SpacesSound boot ((state.setMemory (state.memory.planted page boot)).setMm page
        (some ⟨CachedMm.mmCreate, 0⟩)) (insert page dirs) pids (tables.plant page) ∧
      OthersKept state ((state.setMemory (state.memory.planted page boot)).setMm page
        (some ⟨CachedMm.mmCreate, 0⟩)) none := by
  have notDir := sound.notDir isFree
  have apart : ∀ name mm, state.mms name = some mm → name ≠ page := by
    rintro name mm isMm rfl
    exact notDir ((sound.known name).mpr ⟨mm, isMm⟩)
  have bare : ∀ la < userTop, (state.memory.planted page boot).pteAt page la = 0 :=
    fun la user => sound.isBoot.planted_pteAt user
  have kept : ∀ root ∈ dirs, ∀ la < userTop,
      Kept state.memory (state.memory.planted page boot) root la :=
    fun root isRoot la user => sound.planted_kept isFree isRoot user
  have mapsOld : ∀ root ∈ insert page dirs, ∀ la < userTop, ∀ target,
      pteTarget ((state.memory.planted page boot).pteAt root la) = some target →
        root ∈ dirs ∧ pteTarget (state.memory.pteAt root la) = some target := by
    intro root isRoot la user target leads
    rcases Finset.mem_insert.mp isRoot with rfl | isOld
    · rw [bare la user, pteTarget_zero] at leads
      cases leads
    · rw [(kept root isOld la user).pte] at leads
      exact ⟨isOld, leads⟩
  refine ⟨⟨sound.counted.planted sound.isBoot isFree, .planted sound.counted sound.isBoot isFree,
    ?_, ?_, ?_, ?_, sound.living, ?_, ?_⟩, ?_⟩
  · intro name
    by_cases same : name = page
    · subst same
      exact iff_of_true (Finset.mem_insert_self _ _) ⟨_, Spaces.setMm_self⟩
    · rw [Spaces.setMm_of_ne same, Finset.mem_insert, or_iff_right same]
      exact sound.known name
  · intro name mm isMm
    by_cases same : name = page
    · subst same
      rw [Spaces.setMm_self] at isMm
      rw [← Option.some.inj isMm]
      exact MmSound.mmCreate
    · rw [Spaces.setMm_of_ne same] at isMm
      exact sound.areas name mm isMm
  · intro name mm isMm la user leads
    by_cases same : name = page
    · subst same
      exact absurd ((congrArg pteTarget (bare la user)).trans pteTarget_zero) leads
    · rw [Spaces.setMm_of_ne same] at isMm
      have isOld := (sound.known name).mpr ⟨mm, isMm⟩
      have entry : (state.memory.planted page boot).pteAt name la = state.memory.pteAt name la :=
        (kept name isOld la user).pte
      exact sound.backed name mm isMm la user fun none => leads ((congrArg pteTarget entry).trans none)
  · intro root isRoot la user other isOther there otherUser target leads same
    obtain ⟨isOld, old⟩ := mapsOld root isRoot la user target leads
    obtain ⟨otherOld, alsoOld⟩ := mapsOld other isOther there otherUser target same
    exact sound.isPrivate root isOld la user other otherOld there otherUser target old alsoOld
  · exact fun pid name holds => Finset.mem_insert_of_mem (sound.held pid name holds)
  · intro name mm isMm
    by_cases same : name = page
    · subst same
      rw [Spaces.setMm_self] at isMm
      rw [← Option.some.inj isMm]
      exact (holders_none fun pid holds => notDir (sound.held pid name holds)).symm
    · rw [Spaces.setMm_of_ne same] at isMm
      exact sound.counts name mm isMm
  · intro root mm isMm _
    exact ⟨⟨mm, (Spaces.setMm_of_ne (apart root mm isMm)).trans isMm, rfl⟩,
      kept root ((sound.known root).mpr ⟨mm, isMm⟩)⟩

end Planted

/-- Only the counts and the processes change. -/
theorem SpacesSound.recount (after : Spaces) (pids' : Finset Nat) (sameMemory : after.memory = state.memory)
    (sameAreas : ∀ name, (after.mms name).map (·.areas) = (state.mms name).map (·.areas))
    (living : ∀ pid, after.current pid ≠ none → pid ∈ pids')
    (held : ∀ pid pgdir, after.current pid = some pgdir → pgdir ∈ dirs)
    (counts : ∀ name mm, after.mms name = some mm → mm.count = holders pids' after.current name) :
    SpacesSound boot after dirs pids' tables ∧ OthersKept state after none := by
  have back : ∀ name mm, after.mms name = some mm →
      ∃ old, state.mms name = some old ∧ mm.areas = old.areas := by
    intro name mm isMm
    have same := sameAreas name
    rw [isMm, Option.map_some, eq_comm, Option.map_eq_some_iff] at same
    obtain ⟨old, isOld, areas⟩ := same
    exact ⟨old, isOld, areas.symm⟩
  have forth : ∀ name mm, state.mms name = some mm →
      ∃ new, after.mms name = some new ∧ new.areas = mm.areas := by
    intro name mm isMm
    have same := sameAreas name
    rw [isMm, Option.map_some, Option.map_eq_some_iff] at same
    exact same
  refine ⟨⟨sameMemory ▸ sound.counted, sameMemory ▸ sound.isBoot, ?_, ?_, ?_,
    sameMemory ▸ sound.isPrivate, living, held, counts⟩, ?_⟩
  · intro name
    rw [sound.known name]
    constructor
    · rintro ⟨mm, isMm⟩
      obtain ⟨new, isNew, _⟩ := forth name mm isMm
      exact ⟨new, isNew⟩
    · rintro ⟨mm, isMm⟩
      obtain ⟨old, isOld, _⟩ := back name mm isMm
      exact ⟨old, isOld⟩
  · intro name mm isMm
    obtain ⟨old, isOld, areas⟩ := back name mm isMm
    rw [areas]
    exact sound.areas name old isOld
  · intro name mm isMm
    obtain ⟨old, isOld, areas⟩ := back name mm isMm
    rw [areas, sameMemory]
    exact sound.backed name old isOld
  · intro root mm isMm _
    obtain ⟨new, isNew, areas⟩ := forth root mm isMm
    exact ⟨⟨new, isNew, congrArg (fun areas => areas.mmapList) areas⟩, fun la _ => sameMemory ▸ .refl root⟩

omit sound in
/-- Changing a count leaves the areas. -/
theorem Spaces.setCount_areas (isMm : state.mms pgdir = some mm) (count : Int) (name : Nat) :
    ((state.setMm pgdir (some { mm with count := count })).mms name).map (·.areas) =
      (state.mms name).map (·.areas) := by
  by_cases same : name = pgdir
  · subst same
    rw [Spaces.setMm_self, isMm]
    rfl
  · rw [Spaces.setMm_of_ne same]

/-- A process that has no `mm` gets one. -/
theorem SpacesSound.adopt {pid : Nat} (isMm : state.mms pgdir = some mm)
    (without : state.current pid = none) : ∃ after, state.adopt pid pgdir = .ok after ∧
      SpacesSound boot after dirs (insert pid pids) tables ∧ OthersKept state after none ∧
      after.memory = state.memory ∧
      after.mms pgdir = some { mm with count := mm.count + 1 } ∧
      after.current = Function.update state.current pid (some pgdir) := by
  have sameAreas := Spaces.setCount_areas isMm (mm.count + 1)
  have living : ∀ other, Function.update state.current pid (some pgdir) other ≠ none →
      other ∈ insert pid pids := by
    intro other holds
    by_cases same : other = pid
    · exact Finset.mem_insert.mpr (Or.inl same)
    · rw [Function.update_of_ne same] at holds
      exact Finset.mem_insert_of_mem (sound.living other holds)
  have held : ∀ other name, Function.update state.current pid (some pgdir) other = some name →
      name ∈ dirs := by
    intro other name holds
    by_cases same : other = pid
    · subst same
      rw [Function.update_self] at holds
      exact Option.some.inj holds ▸ (sound.known pgdir).mpr ⟨mm, isMm⟩
    · rw [Function.update_of_ne same] at holds
      exact sound.held other name holds
  have counts : ∀ name new,
      (state.setMm pgdir (some { mm with count := mm.count + 1 })).mms name = some new →
        new.count = holders (insert pid pids) (Function.update state.current pid (some pgdir)) name := by
    intro name new isNew
    rw [holders_adopt without]
    by_cases same : name = pgdir
    · subst same
      rw [Spaces.setMm_self] at isNew
      rw [← Option.some.inj isNew, if_pos rfl, ← sound.counts name mm isMm]
    · rw [Spaces.setMm_of_ne same] at isNew
      rw [if_neg same, add_zero]
      exact sound.counts name new isNew
  unfold Spaces.adopt
  simp only [Spaces.mm_eq isMm, bind, Except.bind]
  obtain ⟨later, kept⟩ := sound.recount
    ((state.setMm pgdir (some { mm with count := mm.count + 1 })).setCurrent pid (some pgdir))
    (insert pid pids) rfl sameAreas living held counts
  exact ⟨_, rfl, later, kept, rfl, Spaces.setMm_self, rfl⟩

omit sound in
theorem Spaces.discard_eq {emptied : Memory} (isMm : state.mms pgdir = some mm)
    (exited : exitMmap allocator mm.count pgdir mm.areas.mmapList state.memory = .ok emptied)
    (put : emptied.putPgdir pgdir = .ok after) :
    state.discard allocator pgdir = .ok ((state.setMemory after).setMm pgdir none) := by
  unfold Spaces.discard
  simp only [Spaces.mm_eq isMm, exited, put, bind, Except.bind]
  rfl

/-- Nobody holds the `mm`. -/
theorem SpacesSound.discard (isMm : state.mms pgdir = some mm) (unused : mm.count = 0)
    (allocator : PageAllocator) :
    ∃ emptied after tables',
      exitMmap allocator mm.count pgdir mm.areas.mmapList state.memory = .ok emptied ∧
      emptied.putPgdir pgdir = .ok after ∧
      SpacesSound boot ((state.setMemory after).setMm pgdir none) (dirs.erase pgdir) pids tables' ∧
      OthersKept state ((state.setMemory after).setMm pgdir none) (some pgdir) ∧
      TornDown state.memory after dirs tables tables' pgdir mm.areas.mmapList := by
  have known := (sound.known pgdir).mpr ⟨mm, isMm⟩
  obtain ⟨emptied, after, tables', exited, put, torn⟩ := sound.counted.tearDown known
    (sound.backed pgdir mm isMm) (sound.areas pgdir mm isMm).vmas.each allocator
  rw [← unused] at exited
  have others : ∀ name mm', ((state.setMemory after).setMm pgdir none).mms name = some mm' →
      name ≠ pgdir ∧ state.mms name = some mm' := by
    intro name mm' isMm'
    by_cases same : name = pgdir
    · subst same
      rw [Spaces.setMm_self] at isMm'
      cases isMm'
    · rw [Spaces.setMm_of_ne same] at isMm'
      exact ⟨same, isMm'⟩
  refine ⟨emptied, after, tables', exited, put, ⟨torn.counted, ?_, ?_, ?_, ?_, ?_, sound.living, ?_, ?_⟩,
    ?_, torn⟩
  · exact sound.isBoot.kept torn.window (Memory.entry_of_bytes
      (torn.windowBytes boot (sound.isBoot.window ▸ Option.some_ne_none 0)))
  · intro name
    rw [Finset.mem_erase, sound.known name]
    constructor
    · rintro ⟨apart, mm', isMm'⟩
      exact ⟨mm', (Spaces.setMm_of_ne apart).trans isMm'⟩
    · rintro ⟨mm', isMm'⟩
      obtain ⟨apart, was⟩ := others name mm' isMm'
      exact ⟨apart, mm', was⟩
  · exact fun name mm' isMm' => sound.areas name mm' (others name mm' isMm').2
  · intro name mm' isMm' la user leads
    obtain ⟨apart, was⟩ := others name mm' isMm'
    apply sound.backed name mm' was la user
    rw [← (torn.kept name ((sound.known name).mpr ⟨mm', was⟩) apart la user).pte]
    exact leads
  · apply sound.isPrivate.congr (Finset.erase_subset _ _)
    intro root isRoot la user
    obtain ⟨apart, isOld⟩ := Finset.mem_erase.mp isRoot
    exact (torn.kept root isOld apart la user).pte
  · intro pid name holds
    refine Finset.mem_erase.mpr ⟨?_, sound.held pid name holds⟩
    rintro rfl
    exact holders_zero (sound.living pid) ((sound.counts name mm isMm).symm.trans unused) holds
  · exact fun name mm' isMm' => sound.counts name mm' (others name mm' isMm').2
  · intro root mm' isMm' apart
    have differ : root ≠ pgdir := fun same => apart (same ▸ rfl)
    exact ⟨⟨mm', (Spaces.setMm_of_ne differ).trans isMm', rfl⟩,
      torn.kept root ((sound.known root).mpr ⟨mm', isMm'⟩) differ⟩

section Exit

variable {pid : Nat} (holds : state.current pid = some pgdir) (isMm : state.mms pgdir = some mm)

include holds isMm

/-- The state in which a process has given its `mm` up, and the `mm` is still there. -/
theorem SpacesSound.dropped :
    SpacesSound boot ((state.setMm pgdir (some { mm with count := mm.count - 1 })).setCurrent pid none)
        dirs pids tables ∧
      OthersKept state
        ((state.setMm pgdir (some { mm with count := mm.count - 1 })).setCurrent pid none) none := by
  have living := sound.living pid (holds ▸ Option.some_ne_none _)
  have fewer : ∀ {other name}, Function.update state.current pid none other = some name →
      state.current other = some name := by
    intro other name still
    by_cases same : other = pid
    · subst same
      rw [Function.update_self] at still
      cases still
    · rwa [Function.update_of_ne same] at still
  apply sound.recount
    ((state.setMm pgdir (some { mm with count := mm.count - 1 })).setCurrent pid none) pids rfl
    (Spaces.setCount_areas isMm (mm.count - 1))
  · intro other still
    obtain ⟨name, isName⟩ := Option.ne_none_iff_exists'.mp still
    exact sound.living other (fewer isName ▸ Option.some_ne_none _)
  · exact fun other name still => sound.held other name (fewer still)
  · intro name new isNew
    have count : holders pids (Function.update state.current pid none) name =
        holders pids state.current name - if name = pgdir then 1 else 0 := holders_exit living holds
    refine Eq.trans ?_ count.symm
    by_cases same : name = pgdir
    · subst same
      rw [show new = { mm with count := mm.count - 1 } from
        (Option.some.inj ((Spaces.setMm_self).symm.trans isNew)).symm, if_pos rfl,
        ← sound.counts name mm isMm]
    · rw [if_neg same, sub_zero]
      exact sound.counts name new ((Spaces.setMm_of_ne same).symm.trans isNew)

/-- The last process that holds an `mm` gives it up. -/
theorem SpacesSound.exitMm_last (last : mm.count = 1) (allocator : PageAllocator) :
    ∃ after left tables', state.exitMm allocator pid = .ok left ∧ left.memory = after ∧
      left.mms = Function.update state.mms pgdir none ∧
      left.current = Function.update state.current pid none ∧
      SpacesSound boot left (dirs.erase pgdir) pids tables' ∧ OthersKept state left (some pgdir) ∧
      TornDown state.memory after dirs tables tables' pgdir mm.areas.mmapList := by
  obtain ⟨soundDropped, keptDropped⟩ := sound.dropped holds isMm
  have zero : mm.count - 1 = 0 := by omega
  have isDropped : ((state.setMm pgdir (some { mm with count := mm.count - 1 })).setCurrent pid
      none).mms pgdir = some { mm with count := mm.count - 1 } := Spaces.setMm_self
  obtain ⟨emptied, after, tables', exited, put, later, kept, torn⟩ :=
    soundDropped.discard isDropped zero allocator
  have discarded : (state.setMm pgdir (some { mm with count := mm.count - 1 })).discard allocator pgdir =
      .ok (((state.setMm pgdir (some { mm with count := mm.count - 1 })).setMemory after).setMm pgdir none) := Spaces.discard_eq Spaces.setMm_self exited put
  refine ⟨after, _, tables', ?_, rfl, ?_, rfl, later, (keptDropped.any _).trans kept, torn⟩
  · unfold Spaces.exitMm
    simp only [holds, Spaces.mm_eq isMm, bind, Except.bind]
    rw [if_pos zero, discarded]
    rfl
  · exact Function.update_idem _ _ _

theorem SpacesSound.exitMm_shared (more : mm.count ≠ 1) (allocator : PageAllocator) :
    ∃ left, state.exitMm allocator pid = .ok left ∧ SpacesSound boot left dirs pids tables ∧
      OthersKept state left none := by
  obtain ⟨soundDropped, keptDropped⟩ := sound.dropped holds isMm
  refine ⟨_, ?_, soundDropped, keptDropped⟩
  unfold Spaces.exitMm
  simp only [holds, Spaces.mm_eq isMm, bind, Except.bind]
  rw [if_neg fun zero => more (by omega)]
  rfl

end Exit

/-! ## Copies -/

/-- What `dup_mmap` has made when it returns. -/
theorem SpacesSound.dupPages {vmas : Vma → Bool} {old : AddressSpace} {source : Nat} {areas : CachedMm}
    {copied : Bool} (isNew : state.mms pgdir = some ⟨CachedMm.mmCreate, 0⟩)
    (bare : Bare state.memory pgdir) (isOld : state.mms source = some old) (apart : source ≠ pgdir)
    (ran : Mm.dupPages allocator vmas pgdir source CachedMm.mmCreate old.areas state.memory =
      .ok (copied, areas, after)) : ∃ tables',
    SpacesSound boot ((state.setMemory after).setMm pgdir (some ⟨areas, 0⟩)) dirs pids tables' ∧
      OthersKept state ((state.setMemory after).setMm pgdir (some ⟨areas, 0⟩)) (some pgdir) ∧
      (copied = true → areas.mmapList = old.areas.mmapList ∧ CopyOf state.memory after source pgdir) := by
  have known := (sound.known pgdir).mpr ⟨_, isNew⟩
  have knownSource := (sound.known source).mpr ⟨old, isOld⟩
  obtain ⟨areasSound, tables', moved, confined, backed, whole⟩ := sound.counted.dupPages known
    knownSource apart bare (sound.areas source old isOld) ran
  obtain ⟨later, kept⟩ := sound.changed isNew moved confined areasSound backed
  refine ⟨tables', later, kept, fun isDone => ?_⟩
  obtain ⟨sameAreas, forked⟩ := whole isDone
  refine ⟨sameAreas, fun la user => ⟨fun none => forked.absent la user fun both => both.2 none, ?_⟩⟩
  intro page leads
  exact forked.copy la user (sound.backed source old isOld la user (leads ▸ Option.some_ne_none _)) page
    leads

/-- The outcomes of `mm_create` with `setup_pgdir`. -/
theorem SpacesSound.mmCreate (allocator : PageAllocator) (kmalloc : Bool) :
    (∃ made, state.mmCreate allocator boot kmalloc = .ok (none, made) ∧
      SpacesSound boot made dirs pids tables ∧ OthersKept state made none ∧ made.mms = state.mms ∧
      made.current = state.current) ∨
    ∃ page ∈ state.memory.free, state.mmCreate allocator boot kmalloc = .ok (some page,
      (state.setMemory (state.memory.planted page boot)).setMm page
        (some ⟨CachedMm.mmCreate, 0⟩)) := by
  unfold Spaces.mmCreate
  cases kmalloc with
  | false => exact Or.inl ⟨state, rfl, sound, .refl _, rfl, rfl⟩
  | true =>
      rw [if_neg (by decide)]
      rcases sound.counted.setupPgdir allocator with none | ⟨page, isFree, made⟩
      · rw [none]
        obtain ⟨later, kept⟩ := sound.asked (state.memory.allocs + 1)
        exact Or.inl ⟨_, rfl, later, kept, rfl, rfl⟩
      · rw [made]
        exact Or.inr ⟨page, isFree, rfl⟩

/-- A copy made in a directory that was planted for it. -/
theorem SpacesSound.planted_copy {source : Nat} (isFree : page ∈ state.memory.free)
    (isSource : source ∈ dirs)
    (copy : CopyOf (state.memory.planted page boot) after source page) :
    CopyOf state.memory after source page := by
  intro la user
  have kept : Kept state.memory (state.memory.planted page boot) source la :=
    sound.planted_kept isFree isSource user
  obtain ⟨absent, present⟩ := copy la user
  rw [kept.pte] at absent present
  refine ⟨absent, fun target leads => ?_⟩
  obtain ⟨npage, stillFree, isCopy, rights, contents⟩ := present target leads
  exact ⟨npage, Finset.mem_of_mem_erase stillFree, isCopy, rights,
    contents.trans (kept.bytes target leads)⟩

/-- What a copy of `source` by `copy_mm` leaves. -/
def CopyMmDone (state after : Spaces) (source child : Nat) : Bool → Prop
  | true => ∃ target old copy, state.mms target = none ∧ state.mms source = some old ∧
      after.mms target = some copy ∧ copy.areas.mmapList = old.areas.mmapList ∧ copy.count = 1 ∧
      after.current = Function.update state.current child (some target) ∧
      CopyOf state.memory after.memory source target
  | false => after.mms = state.mms ∧ after.current = state.current

/-- `copy_mm` comes to a page for whose contents there is no page. -/
def Spaces.CopyMmStops (state : Spaces) (allocator : PageAllocator) (boot source : Nat) (kmalloc : Bool)
    (vmas : Vma → Bool) : Prop :=
  ∃ old target made, state.mms source = some old ∧
    state.mmCreate allocator boot kmalloc = .ok (some target, made) ∧
    DupStops allocator vmas target source old.areas.mmapList.reverse made.memory

omit sound in
theorem Spaces.copyMmStops_iff {source : Nat} {old : AddressSpace} {name : Option Nat} {made : Spaces}
    {allocator : PageAllocator} {kmalloc : Bool} {vmas : Vma → Bool} (isOld : state.mms source = some old)
    (create : state.mmCreate allocator boot kmalloc = .ok (name, made)) :
    state.CopyMmStops allocator boot source kmalloc vmas ↔ ∃ target, name = some target ∧
      DupStops allocator vmas target source old.areas.mmapList.reverse made.memory := by
  constructor
  · rintro ⟨other, target, made', isOther, create', stops⟩
    rw [isOld] at isOther
    rw [create] at create'
    obtain rfl := Option.some.inj isOther
    obtain ⟨rfl, rfl⟩ := Prod.mk.inj (Except.ok.inj create')
    exact ⟨target, rfl, stops⟩
  · rintro ⟨target, rfl, stops⟩
    exact ⟨old, target, made, isOld, create, stops⟩

/-- `copy_mm` without `CLONE_VM` returns exactly where it does not come to such a page. -/
theorem SpacesSound.copyNew_returns {parent child source : Nat} (without : state.current child = none)
    (holds : state.current parent = some source) (kmalloc : Bool) (vmas : Vma → Bool)
    (allocator : PageAllocator) :
    (state.CopyMmStops allocator boot source kmalloc vmas ∧
      state.copyMm allocator boot false parent child kmalloc vmas = .error .assertFailed) ∨
    (¬ state.CopyMmStops allocator boot source kmalloc vmas ∧ ∃ success after,
      state.copyMm allocator boot false parent child kmalloc vmas = .ok (success, after) ∧
      (∃ dirs' pids' tables', SpacesSound boot after dirs' pids' tables') ∧
      OthersKept state after none ∧ CopyMmDone state after source child success) := by
  have isSource := sound.held parent source holds
  obtain ⟨old, isOld⟩ := (sound.known source).mp isSource
  unfold Spaces.copyMm
  simp only [holds]
  rw [if_neg (by decide)]
  rcases sound.mmCreate allocator kmalloc with ⟨made, create, later, kept, sameMms, sameCurrent⟩ |
    ⟨page, isFree, create⟩
  · rw [Spaces.copyMmStops_iff isOld create, create]
    refine Or.inr ⟨?_, _, _, rfl, ⟨_, _, _, later⟩, kept, sameMms, sameCurrent⟩
    rintro ⟨_, impossible, _⟩
    cases impossible
  · obtain ⟨later, kept⟩ := sound.planted isFree
    have notDir := sound.notDir isFree
    have isNew := sound.isNew isFree
    have apart : source ≠ page := fun same => notDir (same ▸ isSource)
    have bare : Bare (state.memory.planted page boot) page :=
      fun la user _ => sound.isBoot.planted_pteAt user
    have isOldStill : ((state.setMemory (state.memory.planted page boot)).setMm page
        (some ⟨CachedMm.mmCreate, 0⟩)).mms source = some old := (Spaces.setMm_of_ne apart).trans isOld
    have known := (later.known page).mpr ⟨_, Spaces.setMm_self⟩
    have knownSource := (later.known source).mpr ⟨old, isOldStill⟩
    rw [Spaces.copyMmStops_iff isOld create, create]
    simp only [bind, Except.bind, Spaces.mm_eq isOldStill]
    rcases later.counted.dupPages_returns known knownSource (sound.areas source old isOld) with
      ⟨missing, stops⟩ | ⟨goesOn, copied, areas, memory, dup⟩
    · rw [stops]
      exact Or.inl ⟨⟨page, rfl, missing⟩, rfl⟩
    · obtain ⟨tables', soundCopy, keptCopy, whole⟩ :=
        later.dupPages Spaces.setMm_self bare isOldStill apart dup
      rw [dup]
      refine Or.inr ⟨?_, ?_⟩
      · rintro ⟨_, same, stops⟩
        cases same
        exact goesOn stops
      cases copied with
      | true =>
          obtain ⟨after, adopts, soundAfter, keptAfter, sameMemory, isMm, isCurrent⟩ :=
            soundCopy.adopt Spaces.setMm_self without
          obtain ⟨sameAreas, copyOf⟩ := whole rfl
          simp only [if_true]
          rw [adopts]
          refine ⟨true, after, rfl, ⟨_, _, _, soundAfter⟩,
            kept.made isNew (keptCopy.trans (keptAfter.any _)), page, old, _,
            isNew, isOld, isMm, sameAreas, rfl, isCurrent, ?_⟩
          rw [sameMemory]
          exact sound.planted_copy isFree isSource copyOf
      | false =>
          obtain ⟨emptied, last, tables'', exited, put, soundLast, keptLast, _⟩ :=
            soundCopy.discard Spaces.setMm_self rfl allocator
          have discarded := Spaces.discard_eq Spaces.setMm_self exited put
          simp only [Bool.false_eq_true, if_false]
          rw [discarded]
          refine ⟨false, _, rfl, ⟨_, _, _, soundLast⟩,
            kept.made isNew (keptCopy.trans keptLast), ?_, rfl⟩
          funext name
          by_cases same : name = page
          · rw [same, Spaces.setMm_self, isNew]
          · rw [Spaces.setMm_of_ne same]
            exact (Spaces.setMm_of_ne same).trans (Spaces.setMm_of_ne same)

theorem SpacesSound.copyNew {parent child source : Nat} {kmalloc success : Bool} {vmas : Vma → Bool}
    {after : Spaces} (without : state.current child = none) (holds : state.current parent = some source)
    (ran : state.copyMm allocator boot false parent child kmalloc vmas = .ok (success, after)) :
    (∃ dirs' pids' tables', SpacesSound boot after dirs' pids' tables') ∧
      OthersKept state after none ∧ CopyMmDone state after source child success := by
  rcases sound.copyNew_returns without holds kmalloc vmas allocator with
    ⟨_, stops⟩ | ⟨_, success', after', returns, outcome⟩
  · rw [stops] at ran
    cases ran
  · rw [returns] at ran
    obtain ⟨rfl, rfl⟩ := Prod.mk.inj (Except.ok.inj ran)
    exact outcome

end Sound

end UCore.Mm
