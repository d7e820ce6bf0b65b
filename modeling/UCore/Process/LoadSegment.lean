import UCore.Process.LoadIcode

/-!
Contract: the loops of `load_icode` that fill one segment.

Owns:
- loading as a run of the calls on address spaces, all of them for the new `mm`;
- the arithmetic of the loops where no sum wraps;
- what the loops have mapped and written when they end.

Does not own: the loop over the program headers.
-/

set_option autoImplicit false

namespace UCore.Process

open UCore.Lib UCore.Mm

variable {memory middle after : Memory} {areas areas' : CachedMm} {boot pgdir page perm la stop : Nat}
  {base : Spaces} {allocator : PageAllocator} {within : Nat → Prop} {content : Nat → UInt8}

/-! ## What a process sees -/

/-- The entry of an address stays, and the byte there. -/
structure SameAt (memory after : Memory) (pgdir address : Nat) : Prop where
  pte : after.pteAt pgdir address = memory.pteAt pgdir address
  byte : ∀ page, pteTarget (memory.pteAt pgdir address) = some page →
    after.bytes page (address % pgSize) = memory.bytes page (address % pgSize)

theorem SameAt.refl (memory : Memory) (pgdir address : Nat) : SameAt memory memory pgdir address :=
  ⟨rfl, fun _ _ => rfl⟩

theorem SameAt.of_kept {address : Nat} (kept : Kept memory after pgdir address) :
    SameAt memory after pgdir address :=
  ⟨kept.pte, fun page leads => congrFun (kept.bytes page leads) _⟩

theorem SameAt.trans {address : Nat} (first : SameAt memory middle pgdir address)
    (second : SameAt middle after pgdir address) : SameAt memory after pgdir address := by
  refine ⟨second.pte.trans first.pte, fun page leads => ?_⟩
  have still : pteTarget (middle.pteAt pgdir address) = some page := by
    rw [first.pte]
    exact leads
  exact (second.byte page still).trans (first.byte page leads)

/-- The addresses from `low` to `high` are mapped with the rights `perm`. -/
def Granted (memory : Memory) (pgdir perm low high : Nat) : Prop :=
  ∀ address, low ≤ address → address < high → ∃ page,
    memory.pteAt pgdir address = pteCreate page (pteV ||| perm) ∧
      pteTarget (memory.pteAt pgdir address) = some page

/-- The addresses from `low` to `high` are mapped with the rights `perm`, and hold `content`. -/
def Filled (memory : Memory) (pgdir perm low high : Nat) (content : Nat → UInt8) : Prop :=
  ∀ address, low ≤ address → address < high → ∃ page,
    memory.pteAt pgdir address = pteCreate page (pteV ||| perm) ∧
      pteTarget (memory.pteAt pgdir address) = some page ∧
        memory.bytes page (address % pgSize) = content address

theorem Filled.same {low high : Nat} (filled : Filled memory pgdir perm low high content)
    (same : ∀ address, low ≤ address → address < high → SameAt memory after pgdir address) :
    Filled after pgdir perm low high content := by
  intro address above below
  obtain ⟨page, entry, leads, byte⟩ := filled address above below
  obtain ⟨samePte, sameByte⟩ := same address above below
  exact ⟨page, samePte.trans entry, samePte.symm ▸ leads, (sameByte page leads).trans byte⟩

theorem Filled.append {low middle high : Nat} (first : Filled memory pgdir perm low middle content)
    (second : Filled memory pgdir perm middle high content) :
    Filled memory pgdir perm low high content := by
  intro address above below
  by_cases inFirst : address < middle
  · exact first address above inFirst
  · exact second address (not_lt.mp inFirst) below

theorem Filled.nothing {low high : Nat} (empty : high ≤ low) :
    Filled memory pgdir perm low high content := by
  intro address above below
  omega

theorem Filled.congr {low high : Nat} {other : Nat → UInt8}
    (filled : Filled memory pgdir perm low high content)
    (same : ∀ address, low ≤ address → address < high → content address = other address) :
    Filled memory pgdir perm low high other := by
  intro address above below
  obtain ⟨page, entry, leads, byte⟩ := filled address above below
  exact ⟨page, entry, leads, byte.trans (same address above below)⟩

/-! ## Runs of the loader -/

/-- The state while an `mm` is loaded that nobody holds yet. -/
def loading (base : Spaces) (pgdir : Nat) (memory : Memory) (areas : CachedMm) : Spaces :=
  (base.setMemory memory).setMm pgdir (some ⟨areas, 0⟩)

theorem loading_mm : (loading base pgdir memory areas).mms pgdir = some ⟨areas, 0⟩ :=
  Spaces.setMm_self

theorem loading_areas : (loading base pgdir memory areas).setMm pgdir (some ⟨areas', 0⟩) =
    loading base pgdir memory areas' := by
  unfold loading Spaces.setMm
  rw [Function.update_idem]

/-- The calls that are for the new `mm`. -/
def ForMm (pgdir : Nat) (state : Spaces) (label : PageAllocator × SpaceCall) : Prop :=
  label.2.acts state = some pgdir

/-- Between calls while an `mm` is loaded. -/
def LoadSound (boot : Nat) (base : Spaces) (pgdir : Nat) (memory : Memory) (areas : CachedMm) : Prop :=
  ∃ dirs pids tables, SpacesSound boot (loading base pgdir memory areas) dirs pids tables

/-- The loader went on by calls for the new `mm`, and changed what is seen at addresses `within`. -/
structure Loads (boot : Nat) (base : Spaces) (pgdir : Nat) (memory : Memory) (areas : CachedMm)
    (after : Memory) (areas' : CachedMm) (within : Nat → Prop) : Prop where
  run : ∃ calls, Run ((spaceMachine boot).StepMeeting (ForMm pgdir)) (loading base pgdir memory areas)
    calls (loading base pgdir after areas')
  same : ∀ address < userTop, ¬ within address → SameAt memory after pgdir address

theorem Loads.refl (boot : Nat) (base : Spaces) (pgdir : Nat) (memory : Memory) (areas : CachedMm)
    (within : Nat → Prop) : Loads boot base pgdir memory areas memory areas within :=
  ⟨⟨[], .nil _⟩, fun address _ _ => .refl memory pgdir address⟩

theorem Loads.trans {last : Memory} {areas'' : CachedMm}
    (first : Loads boot base pgdir memory areas middle areas' within)
    (second : Loads boot base pgdir middle areas' last areas'' within) :
    Loads boot base pgdir memory areas last areas'' within := by
  obtain ⟨calls, run⟩ := first.run
  obtain ⟨more, runs⟩ := second.run
  exact ⟨⟨calls ++ more, run.append runs⟩, fun address user outside =>
    (first.same address user outside).trans (second.same address user outside)⟩

theorem Loads.weaken {wider : Nat → Prop} (loads : Loads boot base pgdir memory areas after areas' within)
    (weaker : ∀ address, within address → wider address) :
    Loads boot base pgdir memory areas after areas' wider :=
  ⟨loads.run, fun address user outside => loads.same address user fun inside =>
    outside (weaker address inside)⟩

theorem Loads.steps (loads : Loads boot base pgdir memory areas after areas' within) :
    ∃ calls, Run (spaceMachine boot).Step (loading base pgdir memory areas) calls
      (loading base pgdir after areas') := by
  obtain ⟨calls, run⟩ := loads.run
  exact ⟨calls, run.mono fun _ _ _ step => step.1⟩

theorem LoadSound.loads (sound : LoadSound boot base pgdir memory areas)
    (loads : Loads boot base pgdir memory areas after areas' within) :
    LoadSound boot base pgdir after areas' := by
  obtain ⟨dirs, pids, tables, sound⟩ := sound
  obtain ⟨calls, run⟩ := loads.steps
  exact sound.run run

/-- No other `mm` notices the loading. -/
theorem LoadSound.others (sound : LoadSound boot base pgdir memory areas)
    (loads : Loads boot base pgdir memory areas after areas' within) :
    OthersKept (loading base pgdir memory areas) (loading base pgdir after areas') (some pgdir) := by
  obtain ⟨dirs, pids, tables, sound⟩ := sound
  obtain ⟨calls, run⟩ := loads.run
  intro root mm isMm apart
  refine sound.sameSpace (run.mono fun _ _ _ step => ⟨step.1, fun forRoot => apart ?_⟩) mm isMm
  exact step.2.symm.trans forRoot

/-- The page of an address. -/
def SamePage (la address : Nat) : Prop := address / pgSize = la / pgSize

theorem SamePage.pteAt {address : Nat} (same : SamePage la address) (user : la < userTop) :
    memory.pteAt pgdir address = memory.pteAt pgdir la := by
  apply Memory.pteAt_congr
  apply (pagePath_eq _ user).mpr same
  unfold SamePage pgSize at same
  unfold userTop at user ⊢
  omega

theorem SamePage.above {address : Nat} (same : SamePage la address) (aligned : la % pgSize = 0) :
    la ≤ address := by
  unfold pgSize at aligned
  unfold SamePage pgSize at same
  omega

/-- `pgdir_alloc_page` at an address of an area. -/
theorem LoadSound.allocates (sound : LoadSound boot base pgdir memory areas) (flags : perm < 2 ^ 10)
    (covered : Covered areas.mmapList la) (allocator : PageAllocator) :
    ∃ result after, memory.pgdirAllocPage allocator pgdir la perm = .ok (result, after) ∧
      Loads boot base pgdir memory areas after areas (SamePage la) ∧
      ∀ page, result = some page → after.pteAt pgdir la = pteCreate page (pteV ||| perm) ∧
        pteTarget (after.pteAt pgdir la) = some page := by
  obtain ⟨dirs, pids, tables, sound⟩ := sound
  have known := (sound.known pgdir).mpr ⟨_, loading_mm⟩
  have user : la < userTop := by
    obtain ⟨vma, member, contains⟩ := covered
    exact Nat.lt_of_lt_of_le contains.2 ((sound.areas pgdir _ loading_mm).vmas.each vma member).user.2.2
  obtain ⟨result, after, tables', ran, moved, _, confined, isEntry⟩ :=
    sound.counted.pgdirAllocPage known user flags allocator
  have called : (SpaceCall.pgdirAllocPage pgdir la perm).run boot allocator
      (loading base pgdir memory areas) = .ok (loading base pgdir after areas) := by
    have allocated : (loading base pgdir memory areas).memory.pgdirAllocPage allocator pgdir la perm =
        .ok (result, after) := ran
    unfold SpaceCall.run
    simp only [allocated, bind, Except.bind]
    rfl
  have step : (spaceMachine boot).StepMeeting (ForMm pgdir) (loading base pgdir memory areas)
      (allocator, .pgdirAllocPage pgdir la perm) (loading base pgdir after areas) :=
    ⟨⟨⟨flags, _, loading_mm, covered⟩, called⟩, rfl⟩
  refine ⟨result, after, ran, ⟨⟨_, .single step⟩, fun address inUser outside => ?_⟩, isEntry⟩
  apply SameAt.of_kept
  exact confined.kept pgdir known address inUser fun here =>
    outside ((pagePath_eq inUser user).mp here.2)

/-- Bytes written in the page of an address. -/
theorem LoadSound.writes {off size : Nat} (source : Bytes)
    (sound : LoadSound boot base pgdir memory areas) (user : la < userTop) (aligned : la % pgSize = 0)
    (leads : pteTarget (memory.pteAt pgdir la) = some page) (inPage : off + size ≤ pgSize)
    (allocator : PageAllocator) : ∃ after, writePage memory page off size source = .ok after ∧
      Loads boot base pgdir memory areas after areas
        (fun address => la + off ≤ address ∧ address < la + off + size) ∧
      (∀ address, after.pteAt pgdir address = memory.pteAt pgdir address) ∧
      ∀ position < size, after.bytes page (off + position) = source position := by
  obtain ⟨dirs, pids, tables, sound⟩ := sound
  have known := (sound.known pgdir).mpr ⟨_, loading_mm⟩
  have data := sound.counted.paged.dataPage known (pdx1_lt_two user) leads
  have entries : ∀ address, (memory.setBytes page ((memory.bytes page).overlay off size source)).pteAt
      pgdir address = memory.pteAt pgdir address :=
    sound.counted.setBytes_pteAt data _ pgdir known
  have stored : (loading base pgdir memory areas).store pgdir la
      ((memory.bytes page).overlay off size source) =
        loading base pgdir (memory.setBytes page ((memory.bytes page).overlay off size source)) areas := by
    have here : pteTarget ((loading base pgdir memory areas).memory.pteAt pgdir la) = some page := leads
    unfold Spaces.store
    rw [here]
    rfl
  have step : (spaceMachine boot).StepMeeting (ForMm pgdir) (loading base pgdir memory areas)
      (allocator, .store pgdir la ((memory.bytes page).overlay off size source))
      (loading base pgdir (memory.setBytes page ((memory.bytes page).overlay off size source)) areas) :=
    ⟨⟨⟨loading_mm ▸ Option.some_ne_none _, user⟩, congrArg Except.ok stored⟩, rfl⟩
  refine ⟨memory.setBytes page ((memory.bytes page).overlay off size source), if_pos inPage,
    ⟨⟨_, .single step⟩, fun address inUser outside => ⟨entries address, fun target isTarget => ?_⟩⟩,
    entries, fun position small => ?_⟩
  · by_cases same : target = page
    · subst same
      have path := (sound.isPrivate pgdir known la user pgdir known address inUser target leads
        isTarget).2
      have samePage := (pagePath_eq user inUser).mp path
      have written : (memory.setBytes target ((memory.bytes target).overlay off size source)).bytes
          target = (memory.bytes target).overlay off size source := Function.update_self _ _ _
      rw [written]
      apply Bytes.overlay_outside
      unfold pgSize at aligned samePage ⊢
      omega
    · exact congrFun (Function.update_of_ne same _ _) _
  · have written : (memory.setBytes page ((memory.bytes page).overlay off size source)).bytes page =
        (memory.bytes page).overlay off size source := Function.update_self _ _ _
    rw [written, Bytes.overlay_inside (by omega) (by omega)]
    congr 1
    omega

/-! ## One page -/

theorem add64_of_lt {left right : Nat} (small : left + right < 2 ^ 64) : add64 left right = left + right :=
  Nat.mod_eq_of_lt small

theorem sub64_of_le {left right : Nat} (small : left < 2 ^ 64) (below : right ≤ left) :
    sub64 left right = left - right := by
  unfold sub64
  omega

/-- The sums of a round, where no sum wraps. -/
structure RoundSums (cursor : Cursor) (stop : Nat) : Prop where
  off : sub64 cursor.start cursor.la = cursor.start - cursor.la
  next : add64 cursor.la pgSize = cursor.la + pgSize
  size : cutSize (cursor.start - cursor.la) (cursor.la + pgSize) stop =
    min stop (cursor.la + pgSize) - cursor.start
  start : add64 cursor.start (min stop (cursor.la + pgSize) - cursor.start) =
    min stop (cursor.la + pgSize)

theorem roundSums {cursor : Cursor} (low : cursor.la ≤ cursor.start)
    (high : cursor.start < cursor.la + pgSize) (more : cursor.start < stop) (top : stop ≤ userTop) :
    RoundSums cursor stop := by
  unfold userTop at top
  unfold pgSize at high
  have small : sub64 4096 (cursor.start - cursor.la) = 4096 - (cursor.start - cursor.la) :=
    sub64_of_le (by omega) (by omega)
  refine ⟨sub64_of_le (by omega) low, add64_of_lt (by unfold pgSize; omega), ?_,
    (add64_of_lt (by unfold pgSize; omega)).trans (by unfold pgSize; omega)⟩
  unfold cutSize pgSize
  rw [small]
  split_ifs with cut
  · have gap : sub64 (cursor.la + 4096) stop = cursor.la + 4096 - stop :=
      sub64_of_le (by omega) (by omega)
    rw [gap, sub64_of_le (by omega) (by omega)]
    omega
  · omega

/-- Where the loops stand between two pages: at the page of `start`, or, when the last page was not
filled, at the one behind it. -/
structure AtPage (memory : Memory) (pgdir perm : Nat) (cursor : Cursor) (stop : Nat) : Prop where
  aligned : cursor.la % pgSize = 0
  before : cursor.start ≤ stop
  place : cursor.la ≤ cursor.start ∧ cursor.start < cursor.la + pgSize ∨
    cursor.start = stop ∧ cursor.start < cursor.la ∧ cursor.la ≤ cursor.start + pgSize ∧
      memory.pteAt pgdir (cursor.la - pgSize) = pteCreate cursor.page (pteV ||| perm) ∧
        pteTarget (memory.pteAt pgdir (cursor.la - pgSize)) = some cursor.page

/-- The cursor after a round. -/
def Cursor.next (cursor : Cursor) (stop page : Nat) : Cursor :=
  ⟨min stop (cursor.la + pgSize), cursor.la + pgSize,
    add64 cursor.offset (min stop (cursor.la + pgSize) - cursor.start), page⟩

theorem samePage_within {off size address : Nat} (aligned : la % pgSize = 0)
    (inPage : off + size ≤ pgSize) (above : la + off ≤ address) (below : address < la + off + size) :
    SamePage la address := by
  unfold pgSize at aligned inPage
  unfold SamePage pgSize
  omega

section Round

variable {cursor : Cursor} (aligned : cursor.la % pgSize = 0) (low : cursor.la ≤ cursor.start)
  (high : cursor.start < cursor.la + pgSize)

/-- A round gets on, and stays in its page. -/
theorem round_size (low : cursor.la ≤ cursor.start) (high : cursor.start < cursor.la + pgSize)
    (more : cursor.start < stop) : cursor.start < min stop (cursor.la + pgSize) ∧
      cursor.start - cursor.la + (min stop (cursor.la + pgSize) - cursor.start) ≤ pgSize := by
  omega

include aligned

theorem Cursor.next_atPage (low : cursor.la ≤ cursor.start) (more : cursor.start < stop)
    (entry : memory.pteAt pgdir cursor.la = pteCreate page (pteV ||| perm))
    (leads : pteTarget (memory.pteAt pgdir cursor.la) = some page) :
    AtPage memory pgdir perm (cursor.next stop page) stop := by
  have stillAligned : (cursor.la + pgSize) % pgSize = 0 := (Nat.add_mod_right _ _).trans aligned
  unfold Cursor.next
  refine ⟨stillAligned, Nat.min_le_left _ _, ?_⟩
  by_cases full : cursor.la + pgSize ≤ stop
  · left
    simp only [Nat.min_eq_right full]
    exact ⟨Nat.le_refl _, Nat.lt_add_of_pos_right (by decide)⟩
  · right
    have short := not_le.mp full
    simp only [Nat.min_eq_left (Nat.le_of_lt short), Nat.add_sub_cancel]
    exact ⟨trivial, short, Nat.add_le_add_right (Nat.le_trans low (Nat.le_of_lt more)) _, entry, leads⟩

include low high

/-- The addresses of a round, in their page. -/
theorem round_place {address : Nat} (above : cursor.start ≤ address)
    (below : address < min stop (cursor.la + pgSize)) : SamePage cursor.la address ∧
      address % pgSize = cursor.start - cursor.la + (address - cursor.start) := by
  unfold pgSize at aligned high below
  unfold SamePage pgSize
  omega

/-- What a round has filled. -/
theorem round_filled {bytes : Bytes} (user : cursor.la < userTop)
    (entry : after.pteAt pgdir cursor.la = pteCreate page (pteV ||| perm))
    (leads : pteTarget (after.pteAt pgdir cursor.la) = some page)
    (written : ∀ position < min stop (cursor.la + pgSize) - cursor.start,
      after.bytes page (cursor.start - cursor.la + position) = bytes position)
    (isContent : ∀ position < min stop (cursor.la + pgSize) - cursor.start,
      bytes position = content (cursor.start + position)) :
    Filled after pgdir perm cursor.start (min stop (cursor.la + pgSize)) content := by
  intro address above below
  obtain ⟨same, place⟩ := round_place aligned low high above below
  have sameEntry : after.pteAt pgdir address = after.pteAt pgdir cursor.la := same.pteAt user
  have inside : address - cursor.start < min stop (cursor.la + pgSize) - cursor.start :=
    Nat.sub_lt_sub_right above below
  have isTarget : pteTarget (after.pteAt pgdir address) = some page := by
    rw [sameEntry]
    exact leads
  refine ⟨page, sameEntry.trans entry, isTarget, ?_⟩
  rw [place, written _ inside, isContent _ inside, Nat.add_sub_cancel' above]

end Round

/-- What `fetch` gives is the content of the addresses, where `tied` says which offset belongs to an
address. -/
structure Delivers (fetch : Memory → Nat → Nat → Except LoadError Bytes) (tied : Nat → Nat → Prop)
    (content : Nat → UInt8) : Prop where
  bytes : ∀ memory start offset size bytes, tied start offset → fetch memory offset size = .ok bytes →
    ∀ position < size, bytes position = content (start + position)
  next : ∀ memory start offset size bytes, tied start offset → fetch memory offset size = .ok bytes →
    tied (start + size) (add64 offset size)

/-- The outcome of a loop that fills up to `stop`, from `cursor` on. -/
structure FillDone (boot : Nat) (base : Spaces) (pgdir perm stop : Nat) (vma : Vma)
    (content : Nat → UInt8) (memory : Memory) (areas : CachedMm) (cursor : Cursor)
    (failed : Option LoadError) (after : Memory) (cursor' : Cursor) : Prop where
  loads : Loads boot base pgdir memory areas after areas fun address =>
    cursor.la ≤ address ∧ vma.Contains address
  done : failed = none → cursor'.start = stop ∧ AtPage after pgdir perm cursor' stop ∧
    Filled after pgdir perm cursor.start stop content ∧ (stop ≤ cursor'.la ∨ cursor' = cursor)

theorem rounds_left {rounds : Nat} (below : la < stop)
    (enough : stop ≤ la + (rounds + 1 - 1) * pgSize) :
    0 < rounds ∧ stop ≤ la + pgSize + (rounds - 1) * pgSize := by
  unfold pgSize at enough ⊢
  omega

section Fill

variable {fetch : Memory → Nat → Nat → Except LoadError Bytes} {tied : Nat → Nat → Prop} {vma : Vma}
  {cursor : Cursor}

theorem LoadSound.vma_sound (sound : LoadSound boot base pgdir memory areas)
    (member : vma ∈ areas.mmapList) : vma.Sound := by
  obtain ⟨dirs, pids, tables, sound⟩ := sound
  exact (sound.areas pgdir _ loading_mm).vmas.each vma member

/-- The loops end within their rounds, and a page that they do not finish is the last one. -/
theorem LoadSound.fills (delivers : Delivers fetch tied content) (flags : perm < 2 ^ 10)
    (member : vma ∈ areas.mmapList) (top : stop ≤ userTop) (allocator : PageAllocator) {rounds : Nat}
    (sound : LoadSound boot base pgdir memory areas) (atPage : AtPage memory pgdir perm cursor stop)
    (isTied : tied cursor.start cursor.offset)
    (inArea : ∀ address, cursor.la ≤ address → address < stop → vma.Contains address)
    (some' : 0 < rounds) (enough : stop ≤ cursor.la + (rounds - 1) * pgSize) :
    ∃ failed after cursor',
      fillLoop fetch allocator pgdir perm stop rounds memory cursor = .ok (failed, after, cursor') ∧
        FillDone boot base pgdir perm stop vma content memory areas cursor failed after cursor' := by
  induction rounds generalizing memory cursor with
  | zero => exact absurd some' (Nat.lt_irrefl 0)
  | succ rounds inductionHypothesis =>
      unfold fillLoop
      by_cases more : cursor.start < stop
      · rw [if_pos more]
        have aligned := atPage.aligned
        obtain ⟨low, high⟩ : cursor.la ≤ cursor.start ∧ cursor.start < cursor.la + pgSize :=
          atPage.place.resolve_right fun last => Nat.ne_of_lt more last.1
        have sums := roundSums low high more top
        obtain ⟨progress, inPageSize⟩ := round_size low high more
        have below : cursor.la < stop := Nat.lt_of_le_of_lt low more
        have here := inArea cursor.la (Nat.le_refl _) below
        have user : cursor.la < userTop := Nat.lt_of_lt_of_le below top
        have inPage : ∀ address, SamePage cursor.la address →
            cursor.la ≤ address ∧ vma.Contains address :=
          fun address same => ⟨same.above aligned, (sound.vma_sound member).contains_page here same⟩
        obtain ⟨result, allocated, ran, loadsAlloc, isEntry⟩ :=
          sound.allocates flags ⟨vma, member, here⟩ allocator
        simp only [ran, bind, Except.bind]
        cases result with
        | none =>
            exact ⟨some .noMem, allocated, cursor, rfl, loadsAlloc.weaken inPage,
              fun impossible => by cases impossible⟩
        | some page =>
            obtain ⟨entry, leads⟩ := isEntry page rfl
            have soundAlloc := sound.loads loadsAlloc
            simp only [sums.off, sums.next, sums.size]
            cases fetched : fetch allocated cursor.offset
                (min stop (cursor.la + pgSize) - cursor.start) with
            | error error =>
                exact ⟨some error, allocated, cursor, rfl, loadsAlloc.weaken inPage,
                  fun impossible => by cases impossible⟩
            | ok bytes =>
                obtain ⟨written, wrote, loadsWrite, entries, isWritten⟩ :=
                  soundAlloc.writes bytes user aligned leads inPageSize allocator
                simp only [wrote, sums.start]
                have entryStays := entries cursor.la
                have filled : Filled written pgdir perm cursor.start (min stop (cursor.la + pgSize))
                    content := round_filled aligned low high user (entryStays.trans entry)
                  (entryStays.symm ▸ leads) isWritten (delivers.bytes _ _ _ _ _ isTied fetched)
                have moved : Loads boot base pgdir memory areas written areas fun address =>
                    cursor.la ≤ address ∧ vma.Contains address :=
                  (loadsAlloc.weaken inPage).trans (loadsWrite.weaken fun address inside =>
                    inPage address (samePage_within aligned inPageSize inside.1 inside.2))
                have next : AtPage written pgdir perm (cursor.next stop page) stop :=
                  Cursor.next_atPage aligned low more (entryStays.trans entry) (entryStays.symm ▸ leads)
                have tiedNext : tied (cursor.next stop page).start (cursor.next stop page).offset := by
                  have after := delivers.next _ _ _ _ _ isTied fetched
                  rwa [Nat.add_sub_cancel' (Nat.le_of_lt progress)] at after
                obtain ⟨roundsLeft, enoughLeft⟩ := rounds_left below enough
                obtain ⟨failed, after, cursor', ranRest, rest⟩ := inductionHypothesis
                  (soundAlloc.loads loadsWrite) next tiedNext
                  (fun address above => inArea address (Nat.le_trans (Nat.le_add_right _ _) above))
                  roundsLeft enoughLeft
                have isNext : (⟨min stop (cursor.la + pgSize), cursor.la + pgSize, add64 cursor.offset
                    (min stop (cursor.la + pgSize) - cursor.start), page⟩ : Cursor) =
                      cursor.next stop page := rfl
                have later : Loads boot base pgdir written areas after areas fun address =>
                    cursor.la ≤ address ∧ vma.Contains address :=
                  rest.loads.weaken fun address inside =>
                    ⟨Nat.le_trans (Nat.le_add_right _ _) inside.1, inside.2⟩
                rw [isNext]
                refine ⟨failed, after, cursor', ranRest, moved.trans later, ?_⟩
                · intro succeeded
                  obtain ⟨isStop, atStop, filledRest, passed⟩ := rest.done succeeded
                  refine ⟨isStop, atStop, Filled.append (filled.same ?_) filledRest, Or.inl ?_⟩
                  swap
                  · rcases passed with behind | same
                    · exact behind
                    · rw [same] at isStop ⊢
                      exact Nat.le_trans (Nat.le_of_eq isStop.symm) (Nat.min_le_right _ _)
                  intro address _ inRound
                  have beforeStop : address < stop := Nat.lt_of_lt_of_le inRound (Nat.min_le_left _ _)
                  refine rest.loads.same address (Nat.lt_of_lt_of_le beforeStop top) fun inside => ?_
                  have inNext : cursor.la + pgSize ≤ address := inside.1
                  exact absurd (Nat.lt_of_lt_of_le inRound (Nat.min_le_right _ _)) (not_lt.mpr inNext)
      · rw [if_neg more]
        have same : cursor.start = stop := Nat.le_antisymm atPage.before (not_lt.mp more)
        exact ⟨none, memory, cursor, rfl, .refl _ _ _ _ _ _,
          fun _ => ⟨same, atPage, .nothing (Nat.le_of_eq same.symm), Or.inr rfl⟩⟩

/-- The rest of the page that the file ends in holds zeros. -/
structure RestCleared (boot : Nat) (base : Spaces) (pgdir perm stop : Nat) (memory : Memory)
    (areas : CachedMm) (cursor : Cursor) (after : Memory) (cursor' : Cursor) : Prop where
  loads : Loads boot base pgdir memory areas after areas fun address =>
    cursor.start ≤ address ∧ address < cursor'.start
  atPage : AtPage after pgdir perm cursor' stop
  la : cursor'.la = cursor.la
  start : cursor.start ≤ cursor'.start
  filled : Filled after pgdir perm cursor.start cursor'.start fun _ => 0
  bounded : cursor'.start ≤ cursor.la ∨ cursor'.start = cursor.start

/-- The sums for the rest of a page, where no sum wraps. -/
theorem restSums (before : cursor.start < cursor.la) (near : cursor.la ≤ cursor.start + pgSize)
    (more : cursor.start < stop) (top : stop ≤ userTop) :
    sub64 (add64 cursor.start pgSize) cursor.la = cursor.start + pgSize - cursor.la ∧
      cutSize (cursor.start + pgSize - cursor.la) cursor.la stop =
        min stop cursor.la - cursor.start ∧
      add64 cursor.start (min stop cursor.la - cursor.start) = min stop cursor.la := by
  unfold userTop at top
  unfold pgSize at near ⊢
  have sum : add64 cursor.start 4096 = cursor.start + 4096 := add64_of_lt (by omega)
  have off : sub64 (cursor.start + 4096) cursor.la = cursor.start + 4096 - cursor.la :=
    sub64_of_le (by omega) near
  have size : sub64 4096 (cursor.start + 4096 - cursor.la) = 4096 - (cursor.start + 4096 - cursor.la) :=
    sub64_of_le (by omega) (by omega)
  refine ⟨by rw [sum, off], ?_, (add64_of_lt (by omega)).trans (by omega)⟩
  unfold cutSize pgSize
  rw [size]
  split_ifs with cut
  · have gap : sub64 cursor.la stop = cursor.la - stop := sub64_of_le (by omega) (by omega)
    rw [gap, sub64_of_le (by omega) (by omega)]
    omega
  · omega

theorem restPlace (aligned : cursor.la % pgSize = 0) (before : cursor.start < cursor.la)
    (near : cursor.la ≤ cursor.start + pgSize) : pgSize ≤ cursor.la ∧
      (cursor.la - pgSize) % pgSize = 0 ∧ cursor.la - pgSize ≤ cursor.start := by
  unfold pgSize at aligned near ⊢
  omega

theorem LoadSound.clears (top : stop ≤ userTop) {reached : Nat}
    (sound : LoadSound boot base pgdir memory areas) (atPage : AtPage memory pgdir perm cursor reached)
    (isEnd : cursor.start = reached) (more : reached ≤ stop) (allocator : PageAllocator) :
    ∃ after cursor', clearRest memory cursor stop = .ok (after, cursor') ∧
      RestCleared boot base pgdir perm stop memory areas cursor after cursor' := by
  unfold clearRest
  by_cases rest : cursor.start < cursor.la ∧ cursor.start ≠ stop
  · rw [if_pos rest]
    obtain ⟨before, notStop⟩ := rest
    obtain ⟨_, _, near, entry, leads⟩ := atPage.place.resolve_left fun first =>
      absurd first.1 (not_le.mpr before)
    have inStop : cursor.start < stop := Nat.lt_of_le_of_ne (isEnd.trans_le more) notStop
    obtain ⟨isOff, isSize, isStart⟩ := restSums before near inStop top
    obtain ⟨room, aligned, low⟩ := restPlace atPage.aligned before near
    have high : cursor.start < cursor.la - pgSize + pgSize := by
      rw [Nat.sub_add_cancel room]
      exact before
    have progress : cursor.start < min stop cursor.la := lt_min inStop before
    have user : cursor.la - pgSize < userTop := by omega
    have fits : cursor.start + pgSize - cursor.la + (min stop cursor.la - cursor.start) ≤ pgSize := by
      omega
    obtain ⟨after, wrote, loads, entries, isWritten⟩ :=
      sound.writes Bytes.zeros user aligned leads fits allocator
    have entryStays := entries (cursor.la - pgSize)
    have filled : Filled after pgdir perm cursor.start (min stop cursor.la) fun _ => 0 := by
      have samePlace : cursor.start + pgSize - cursor.la = cursor.start - (cursor.la - pgSize) := by
        omega
      have general := @round_filled after pgdir cursor.page perm stop (fun _ => 0)
        ⟨cursor.start, cursor.la - pgSize, cursor.offset, cursor.page⟩ aligned low high Bytes.zeros user
        (entryStays.trans entry) (entryStays.symm ▸ leads)
      simp only [Nat.sub_add_cancel room, ← samePlace] at general
      exact general isWritten fun _ _ => rfl
    have check : stop < cursor.la ∧ min stop cursor.la = stop ∨
        cursor.la ≤ stop ∧ min stop cursor.la = cursor.la := by omega
    have atRest : AtPage after pgdir perm { cursor with start := min stop cursor.la } stop := by
      refine ⟨atPage.aligned, Nat.min_le_left _ _, ?_⟩
      rcases check with ⟨short, isMin⟩ | ⟨_, isMin⟩
      · right
        simp only [isMin]
        exact ⟨trivial, short, by omega, entryStays.trans entry, entryStays.symm ▸ leads⟩
      · left
        simp only [isMin]
        exact ⟨Nat.le_refl _, Nat.lt_add_of_pos_right (by decide)⟩
    simp only [isOff, isSize, wrote, isStart, bind, Except.bind]
    rw [if_pos check]
    refine ⟨after, _, rfl, loads.weaken ?_, atRest, rfl, Nat.le_of_lt progress, filled,
      Or.inl (Nat.min_le_right _ _)⟩
    intro address inside
    constructor
    · omega
    · show address < min stop cursor.la
      omega
  · rw [if_neg rest]
    refine ⟨memory, cursor, rfl, .refl _ _ _ _ _ _, ⟨atPage.aligned, isEnd.trans_le more, ?_⟩, rfl,
      Nat.le_refl _, .nothing (Nat.le_refl _), Or.inr rfl⟩
    by_cases before : cursor.start < cursor.la
    · obtain ⟨_, _, rest'⟩ := atPage.place.resolve_left fun first =>
        absurd first.1 (not_le.mpr before)
      exact Or.inr ⟨not_not.mp fun differ => rest ⟨before, differ⟩, before, rest'⟩
    · exact Or.inl (atPage.place.resolve_right fun last => before last.2.1)

end Fill

/-! ## One segment -/

/-- The byte of a segment at an address. -/
def ProgHdr.byte (file : ExecFile) (ph : ProgHdr) (address : Nat) : UInt8 :=
  if address < ph.pVa + ph.pFilesz then file.content (ph.pOffset + (address - ph.pVa)) else 0

/-- The area that `mm_map` makes for a segment. -/
def ProgHdr.vma (ph : ProgHdr) : Vma := mapVma ph.pVa ph.pMemsz ph.vmFlags

/-- The sums of a header do not wrap. -/
structure ProgHdr.Fits (ph : ProgHdr) : Prop where
  inFile : ph.pFilesz ≤ ph.pMemsz
  noWrap : ph.pVa + ph.pMemsz < 2 ^ 64

theorem ProgHdr.perm_lt (ph : ProgHdr) : ph.perm < 2 ^ 10 := by
  have five : ph.perm < 2 ^ 5 := by
    unfold ProgHdr.perm
    refine Nat.or_lt_two_pow (Nat.or_lt_two_pow (Nat.or_lt_two_pow (by decide) ?_) ?_) ?_
    all_goals split_ifs <;> decide
  exact Nat.lt_trans five (by decide)

section Segment

variable {ph : ProgHdr} {file : ExecFile}

/-- The area of a segment spans it. -/
theorem ProgHdr.Fits.span (fits : ph.Fits) (sound : ph.vma.Sound) :
    ph.vma.vmStart = roundDown ph.pVa pgSize ∧ ph.pVa + ph.pMemsz ≤ ph.vma.vmEnd := by
  refine ⟨rfl, ?_⟩
  have nonempty := sound.nonempty
  have noWrap := fits.noWrap
  unfold ProgHdr.vma mapVma mapStart mapEnd roundUp64 roundDown pgSize at nonempty ⊢
  simp only at nonempty ⊢
  rw [Nat.mod_eq_of_lt noWrap] at nonempty ⊢
  omega

theorem ProgHdr.Fits.top (fits : ph.Fits) (sound : ph.vma.Sound) : ph.pVa + ph.pMemsz ≤ userTop :=
  Nat.le_trans (fits.span sound).2 sound.user.2.2

theorem ExecFile.delivers (file : ExecFile) (ph : ProgHdr) :
    Delivers file.read (fun start offset => ph.pVa ≤ start ∧ offset = ph.pOffset + (start - ph.pVa))
      fun address => file.content (ph.pOffset + (address - ph.pVa)) where
  bytes memory start offset size bytes isTied fetched position small := by
    obtain ⟨above, rfl⟩ := isTied
    rw [file.read_content _ _ _ _ fetched position small]
    congr 1
    omega
  next memory start offset size bytes isTied fetched := by
    obtain ⟨above, rfl⟩ := isTied
    have inRange := file.read_small _ _ _ _ fetched
    rw [add64_of_lt (by omega)]
    exact ⟨by omega, by omega⟩

theorem zeros_deliver : Delivers (fun _ _ _ => .ok Bytes.zeros) (fun _ _ => True) fun _ => 0 where
  bytes memory start offset size bytes isTied fetched position small := by
    rw [← Except.ok.inj fetched]
    rfl
  next _ _ _ _ _ _ _ := trivial

theorem roundDown_near (address : Nat) :
    roundDown address pgSize ≤ address ∧ address < roundDown address pgSize + pgSize := by
  unfold roundDown pgSize
  omega

/-- The rounds that the loops are given suffice. -/
theorem rounds_enough (la stop : Nat) : stop ≤ la + (stop / pgSize + 2 - 1) * pgSize := by
  unfold pgSize
  omega

/-- A segment whose area was made is filled. No sum wraps, no write leaves its page, and the assertion
holds. -/
theorem LoadSound.fillSegment (sound : LoadSound boot base pgdir memory areas)
    (member : ph.vma ∈ areas.mmapList) (fits : ph.Fits) (file : ExecFile) (allocator : PageAllocator) :
    ∃ failed after, fillSegment file allocator pgdir ph memory = .ok (failed, after) ∧
      Loads boot base pgdir memory areas after areas ph.vma.Contains ∧
      (failed = none →
        Filled after pgdir ph.perm ph.pVa (ph.pVa + ph.pMemsz) (ph.byte file)) := by
  have whole := sound.vma_sound member
  obtain ⟨isStart, isEnd⟩ := fits.span whole
  have top := fits.top whole
  have inFile := fits.inFile
  have fileTop : ph.pVa + ph.pFilesz ≤ userTop := Nat.le_trans (Nat.add_le_add_left inFile _) top
  have small : userTop < 2 ^ 64 := by decide
  have fileEnd : add64 ph.pVa ph.pFilesz = ph.pVa + ph.pFilesz :=
    add64_of_lt (Nat.lt_of_le_of_lt fileTop small)
  have segmentEnd : add64 ph.pVa ph.pMemsz = ph.pVa + ph.pMemsz :=
    add64_of_lt (Nat.lt_of_le_of_lt top small)
  obtain ⟨low, high⟩ := roundDown_near ph.pVa
  have inArea : ∀ address, roundDown ph.pVa pgSize ≤ address → address < ph.pVa + ph.pMemsz →
      ph.vma.Contains address :=
    fun address above below => ⟨isStart ▸ above, Nat.lt_of_lt_of_le below isEnd⟩
  unfold Process.fillSegment
  rw [fileEnd, segmentEnd]
  have atStart : AtPage memory pgdir ph.perm ph.cursor (ph.pVa + ph.pFilesz) :=
    ⟨roundDown_aligned _, Nat.le_add_right _ _, Or.inl ⟨low, high⟩⟩
  have isTied : ph.pVa ≤ ph.cursor.start ∧
      ph.cursor.offset = ph.pOffset + (ph.cursor.start - ph.pVa) :=
    ⟨Nat.le_refl _, by rw [show ph.cursor.start = ph.pVa from rfl, Nat.sub_self]; rfl⟩
  obtain ⟨failed, afterFile, cursor, ranFile, isFile⟩ := sound.fills (file.delivers ph) ph.perm_lt
    member fileTop allocator atStart isTied
    (fun address above below => inArea address above
      (Nat.lt_of_lt_of_le below (Nat.add_le_add_left inFile _)))
    (Nat.succ_pos _) (rounds_enough _ _)
  have loadsFile := isFile.loads.weaken fun address inside => inside.2
  simp only [ranFile, bind, Except.bind]
  cases failed with
  | some error => exact ⟨some error, afterFile, rfl, loadsFile, fun impossible => by cases impossible⟩
  | none =>
      obtain ⟨isStop, atFile, filled, passed⟩ := isFile.done rfl
      have soundFile := sound.loads loadsFile
      have laLow : roundDown ph.pVa pgSize ≤ cursor.la := by
        rcases passed with behind | same
        · omega
        · rw [same]
          exact Nat.le_refl _
      obtain ⟨afterRest, cursor', ranRest, rest⟩ := soundFile.clears top atFile isStop
        (Nat.add_le_add_left inFile _) allocator
      have restBelow : cursor'.start ≤ ph.pVa + ph.pMemsz := rest.atPage.before
      have restLow := rest.start
      have loadsRest := rest.loads.weaken fun address inside =>
        inArea address (by omega) (by omega)
      have soundRest := soundFile.loads loadsRest
      obtain ⟨failed, after, cursor'', ranZero, isZero⟩ := soundRest.fills zeros_deliver ph.perm_lt
        member top allocator rest.atPage trivial
        (fun address above below => inArea address (by rw [rest.la] at above; omega) below)
        (Nat.succ_pos _) (rounds_enough _ _)
      have loadsZero := isZero.loads.weaken fun address inside => inside.2
      simp only [ranRest, ranZero]
      refine ⟨failed, after, rfl, (loadsFile.trans loadsRest).trans loadsZero, fun succeeded => ?_⟩
      obtain ⟨_, _, filledZero, _⟩ := isZero.done succeeded
      have user : ∀ address, address < ph.pVa + ph.pMemsz → address < userTop :=
        fun address below => Nat.lt_of_lt_of_le below top
      have fromFile : Filled after pgdir ph.perm ph.pVa (ph.pVa + ph.pFilesz) (ph.byte file) := by
        have isByte : Filled afterFile pgdir ph.perm ph.pVa (ph.pVa + ph.pFilesz) (ph.byte file) :=
          filled.congr fun address _ below => (if_pos below).symm
        have stays : Filled afterRest pgdir ph.perm ph.pVa (ph.pVa + ph.pFilesz) (ph.byte file) :=
          isByte.same fun address _ below =>
            rest.loads.same address (user address (by omega)) fun inside => by omega
        refine stays.same fun address above below =>
          isZero.loads.same address (user address (by omega)) fun inside => ?_
        have fromLa : cursor.la ≤ address := rest.la ▸ inside.1
        rcases passed with behind | same
        · omega
        · have noFile : ph.cursor.start = ph.pVa + ph.pFilesz := same ▸ isStop
          have isVa : ph.cursor.start = ph.pVa := rfl
          omega
      have zeros : ∀ address, ph.pVa + ph.pFilesz ≤ address → 0 = ph.byte file address :=
        fun address above => (if_neg (not_lt.mpr above)).symm
      have fromRest : Filled after pgdir ph.perm (ph.pVa + ph.pFilesz) cursor'.start (ph.byte file) := by
        rw [← isStop]
        have isByte : Filled afterRest pgdir ph.perm cursor.start cursor'.start (ph.byte file) :=
          rest.filled.congr fun address above _ => zeros address (isStop ▸ above)
        refine isByte.same fun address above below => ?_
        refine isZero.loads.same address (user address (by omega)) fun inside => ?_
        have fromLa : cursor.la ≤ address := rest.la ▸ inside.1
        rcases rest.bounded with bounded | same <;> omega
      refine (fromFile.append fromRest).append (filledZero.congr fun address above _ => ?_)
      exact zeros address (by omega)

end Segment

end UCore.Process
