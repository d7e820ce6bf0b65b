import UCore.Process.LoadSegment

/-!
Contract: what `load_icode` has made of a file when it returns.

Owns:
- the loop over the program headers, and the stack;
- the two ways in which it stops the kernel: an area that reaches into an earlier one, and a missing
  page of the stack;
- the image: every segment in its area, with the bytes of the file and zeros behind them, and the top
  of the stack.

Does not own: the loops inside one segment, which are in `Process.LoadSegment`.
-/

set_option autoImplicit false

namespace UCore.Process

open UCore.Lib UCore.Mm

variable {memory middle after : Memory} {areas areas' : CachedMm} {boot pgdir page perm la stop : Nat}
  {base : Spaces} {allocator : PageAllocator} {ph : ProgHdr} {file : ExecFile} {kmalloc : Bool}

/-! ## The headers of a file -/

def ExecFile.elf (file : ExecFile) : ElfHdr := .ofBytes file.content

def ExecFile.header (file : ExecFile) (i : Nat) : ProgHdr :=
  .ofBytes (file.content.drop (add64 file.elf.ePhoff (progHdrSize * i)))

/-- The segments to load among the first headers. -/
def ExecFile.firstSegments (file : ExecFile) (count : Nat) : List ProgHdr :=
  ((List.range count).map file.header).filter fun ph => ph.pType = elfPtLoad

def ExecFile.segments (file : ExecFile) : List ProgHdr := file.firstSegments file.elf.ePhnum

theorem ProgHdr.ofBytes_congr {bytes other : Bytes}
    (same : ∀ place width, place + width ≤ progHdrSize →
      bytes.number place width = other.number place width) : ofBytes bytes = ofBytes other := by
  unfold ofBytes
  rw [same 0 4 (by decide), same 4 4 (by decide), same 8 8 (by decide), same 16 8 (by decide),
    same 32 8 (by decide), same 40 8 (by decide)]

theorem ElfHdr.ofBytes_congr {bytes other : Bytes}
    (same : ∀ place width, place + width ≤ elfHdrSize →
      bytes.number place width = other.number place width) : ofBytes bytes = ofBytes other := by
  unfold ofBytes
  rw [same 0 4 (by decide), same 32 8 (by decide), same 56 2 (by decide)]

/-- A read delivers the numbers of the file. -/
theorem ExecFile.read_number {offset len : Nat} {bytes : Bytes}
    (ran : file.read memory offset len = .ok bytes) (place width : Nat) (inside : place + width ≤ len) :
    bytes.number place width = (file.content.drop offset).number place width :=
  Bytes.number_congr fun position _ below =>
    file.read_content _ _ _ _ ran position (Nat.lt_of_lt_of_le below inside)

theorem ExecFile.read_header {i : Nat} {bytes : Bytes}
    (ran : file.read memory (add64 file.elf.ePhoff (progHdrSize * i)) progHdrSize = .ok bytes) :
    ProgHdr.ofBytes bytes = file.header i :=
  ProgHdr.ofBytes_congr (file.read_number ran)

theorem ExecFile.read_elf {bytes : Bytes} (ran : file.read memory 0 elfHdrSize = .ok bytes) :
    ElfHdr.ofBytes bytes = file.elf := by
  have same : file.content.drop 0 = file.content := by
    funext position
    exact congrArg file.content (Nat.zero_add position)
  apply ElfHdr.ofBytes_congr
  have numbers := file.read_number ran
  rwa [same] at numbers

/-! ## Areas -/

/-- `mm_map`: an error and the areas as they were, or one more area apart from the others. -/
theorem LoadSound.maps {addr len vmFlags : Nat} (sound : LoadSound boot base pgdir memory areas)
    (kmalloc : Bool) (allocator : PageAllocator) :
    (¬ MapMeets areas addr len kmalloc ∧ mmMap areas addr len vmFlags kmalloc = .error .assertFailed) ∨
    ∃ made areas',
      mmMap areas addr len vmFlags kmalloc = .ok (made, areas') ∧
      Loads boot base pgdir memory areas memory areas' (fun _ => False) ∧
      ((∃ error, made = .error error) ∨
        (∃ vma, made = .ok vma) ∧
          (∀ vma, vma ∈ areas'.mmapList ↔ vma = mapVma addr len vmFlags ∨ vma ∈ areas.mmapList) ∧
          ∀ address, (mapVma addr len vmFlags).Contains address → ¬ Covered areas.mmapList address) := by
  obtain ⟨dirs, pids, tables, isSound⟩ := id sound
  have areasSound := isSound.areas pgdir _ loading_mm
  by_cases meets : MapMeets areas addr len kmalloc
  · obtain ⟨made, areas', ran, mapped, sound'⟩ := mmMap_returns areasSound meets vmFlags
    have called : (SpaceCall.mmMap pgdir addr len vmFlags kmalloc).run boot allocator
        (loading base pgdir memory areas) = .ok (loading base pgdir memory areas') := by
      unfold SpaceCall.run
      simp only [Spaces.mm_eq loading_mm, ran, bind, Except.bind]
      exact congrArg Except.ok loading_areas
    have present : (loading base pgdir memory areas).mms pgdir ≠ none := by
      rw [loading_mm]
      exact Option.some_ne_none _
    have step : (spaceMachine boot).StepMeeting (ForMm pgdir) (loading base pgdir memory areas)
        (allocator, .mmMap pgdir addr len vmFlags kmalloc) (loading base pgdir memory areas') :=
      ⟨⟨present, called⟩, rfl⟩
    refine Or.inr ⟨made, areas', ran,
      ⟨⟨_, .single step⟩, fun address _ _ => .refl memory pgdir address⟩, ?_⟩
    rcases mapped with ⟨error, isError, _⟩ | ⟨isOk, before, rest, split, joined⟩
    · exact Or.inl ⟨error, isError⟩
    · refine Or.inr ⟨⟨_, isOk⟩, fun vma => ?_, fun address inNew => ?_⟩
      · rw [joined, split, List.mem_append, List.mem_append, List.mem_cons]
        exact or_left_comm
      · rintro ⟨vma, member, inOld⟩
        have apart := sound'.vmas.apart
        rw [joined] at apart
        rw [split, List.mem_append] at member
        obtain ⟨_, behind, between⟩ := List.pairwise_append.mp apart
        rcases member with isBefore | isBehind
        · have order := between vma isBefore _ (List.mem_cons_self ..)
          exact absurd (Nat.lt_of_lt_of_le inOld.2 order) (not_lt.mpr inNew.1)
        · have order := (List.pairwise_cons.mp behind).1 vma isBehind
          exact absurd (Nat.lt_of_lt_of_le inNew.2 order) (not_lt.mpr inOld.1)
  · exact Or.inl ⟨meets, mmMap_stops areasSound meets vmFlags⟩

/-! ## Segments -/

/-- The segments `done` are in their areas, and there are no other areas. -/
structure Image (file : ExecFile) (pgdir : Nat) (done : List ProgHdr) (memory : Memory)
    (areas : CachedMm) : Prop where
  areas : ∀ vma, vma ∈ areas.mmapList ↔ ∃ ph ∈ done, vma = ph.vma
  fits : ∀ ph ∈ done, ph.Fits
  filled : ∀ ph ∈ done, Filled memory pgdir ph.perm ph.pVa (ph.pVa + ph.pMemsz) (ph.byte file)

/-- A segment lies in its area. -/
theorem ProgHdr.Fits.contains {address : Nat} (fits : ph.Fits) (sound : ph.vma.Sound)
    (above : ph.pVa ≤ address) (below : address < ph.pVa + ph.pMemsz) : ph.vma.Contains address := by
  obtain ⟨isStart, isEnd⟩ := fits.span sound
  exact ⟨isStart ▸ Nat.le_trans (roundDown_near ph.pVa).1 above, Nat.lt_of_lt_of_le below isEnd⟩

theorem Image.kept {done : List ProgHdr} (image : Image file pgdir done memory areas)
    (sound : LoadSound boot base pgdir memory areas)
    (same : ∀ address < userTop, Covered areas.mmapList address → SameAt memory after pgdir address) :
    ∀ ph ∈ done, Filled after pgdir ph.perm ph.pVa (ph.pVa + ph.pMemsz) (ph.byte file) := by
  intro ph isDone
  have member := (image.areas ph.vma).mpr ⟨ph, isDone, rfl⟩
  have whole := sound.vma_sound member
  have fits := image.fits ph isDone
  refine (image.filled ph isDone).same fun address above below => same address ?_ ?_
  · exact Nat.lt_of_lt_of_le below (fits.top whole)
  · exact ⟨ph.vma, member, fits.contains whole above below⟩

/-- A new area starts below the area of an earlier segment and reaches into it. `mm_map` looks only at
the area of its first page, and an assertion of `insert_vma_struct` fails. -/
def ReachesInto (done : List ProgHdr) (addr len : Nat) : Prop :=
  UserAccess (mapStart addr) (mapEnd addr len) ∧ (∀ ph ∈ done, ¬ ph.vma.Contains (mapStart addr)) ∧
    ∃ ph ∈ done, mapStart addr < ph.vma.vmStart ∧ ph.vma.vmStart < mapEnd addr len

theorem reachesInto_of_not_meets {done : List ProgHdr} {addr len : Nat}
    (isArea : ∀ vma, vma ∈ areas.mmapList ↔ ∃ ph ∈ done, vma = ph.vma)
    (fails : ¬ MapMeets areas addr len kmalloc) : ReachesInto done addr len := by
  unfold MapMeets at fails
  obtain ⟨user, rest⟩ := Classical.not_imp.mp fails
  obtain ⟨_, neither⟩ := Classical.not_imp.mp rest
  obtain ⟨noneContains, someStarts⟩ := not_or.mp neither
  obtain ⟨vma, isBehind⟩ := not_forall.mp someStarts
  obtain ⟨member, behind⟩ := Classical.not_imp.mp isBehind
  obtain ⟨ph, isDone, rfl⟩ := (isArea vma).mp member
  refine ⟨user, fun other isOther contains => noneContains ?_, ph, isDone, not_not.mp behind⟩
  exact ⟨other.vma, (isArea other.vma).mpr ⟨other, isOther, rfl⟩, contains⟩

/-- The outcome of a part of the loading: an assertion fails because of `stops`, an error, or an
image. -/
def LoadOutcome (boot : Nat) (base : Spaces) (pgdir : Nat) (memory : Memory) (areas : CachedMm)
    (stops : Prop) (done : Memory → CachedMm → Prop)
    (outcome : Except Stop (Option LoadError × Memory × CachedMm)) : Prop :=
  (stops ∧ outcome = .error .assertFailed) ∨ ∃ failed after areas', outcome = .ok (failed, after, areas') ∧
    Loads boot base pgdir memory areas after areas' (fun address => ¬ Covered areas.mmapList address) ∧
      (failed = none → done after areas')

theorem LoadSound.loadSegment {done : List ProgHdr} (sound : LoadSound boot base pgdir memory areas)
    (image : Image file pgdir done memory areas) (isLoad : ph.pType = elfPtLoad)
    (noWrap : ph.pVa + ph.pMemsz < 2 ^ 64) (kmalloc : Bool) (allocator : PageAllocator) :
    LoadOutcome boot base pgdir memory areas
      (ph.pFilesz ≤ ph.pMemsz ∧ ReachesInto done ph.pVa ph.pMemsz) (Image file pgdir (done ++ [ph]))
      (loadSegment file allocator pgdir kmalloc ph memory areas) := by
  unfold Process.loadSegment
  rw [if_neg (not_not.mpr isLoad)]
  by_cases tooLong : ph.pFilesz > ph.pMemsz
  · rw [if_pos tooLong]
    exact Or.inr ⟨_, _, _, rfl, .refl _ _ _ _ _ _, fun impossible => by cases impossible⟩
  · rw [if_neg tooLong]
    have fits : ph.Fits := ⟨not_lt.mp tooLong, noWrap⟩
    rcases sound.maps kmalloc allocator with ⟨fails, stops⟩ | ⟨made, areas', ran, loads, outcome⟩
    · rw [stops]
      exact Or.inl ⟨⟨fits.inFile, reachesInto_of_not_meets image.areas fails⟩, rfl⟩
    · rw [ran]
      have loadsMap : Loads boot base pgdir memory areas memory areas'
          fun address => ¬ Covered areas.mmapList address :=
        loads.weaken fun _ impossible => impossible.elim
      rcases outcome with ⟨error, rfl⟩ | ⟨⟨vma, rfl⟩, members, apart⟩
      · exact Or.inr ⟨_, _, _, rfl, loadsMap, fun impossible => by cases impossible⟩
      · have soundMap := sound.loads loads
        have member : ph.vma ∈ areas'.mmapList := (members ph.vma).mpr (Or.inl rfl)
        obtain ⟨failed, after, ranFill, loadsFill, filled⟩ :=
          soundMap.fillSegment member fits file allocator
        refine Or.inr ⟨failed, after, areas', ?_, loadsMap.trans (loadsFill.weaken apart),
          fun succeeded => ?_⟩
        · simp only [bind, Except.bind, ranFill]
          rfl
        · refine ⟨fun vma => ?_, ?_, ?_⟩
          · rw [members vma, image.areas vma]
            simp only [List.mem_append, List.mem_singleton, or_and_right, exists_or, exists_eq_left]
            exact or_comm
          · intro other isOther
            rcases List.mem_append.mp isOther with isDone | isNew
            · exact image.fits other isDone
            · rw [List.mem_singleton.mp isNew]
              exact fits
          · intro other isOther
            rcases List.mem_append.mp isOther with isDone | isNew
            · refine image.kept sound (fun address user covered => ?_) other isDone
              exact loadsFill.same address user fun inside => apart address inside covered
            · rw [List.mem_singleton.mp isNew]
              exact filled succeeded

theorem ExecFile.firstSegments_succ (file : ExecFile) (count : Nat) :
    file.firstSegments (count + 1) = file.firstSegments count ++
      if (file.header count).pType = elfPtLoad then [file.header count] else [] := by
  unfold ExecFile.firstSegments
  rw [List.range_succ, List.map_append, List.filter_append]
  congr 1
  simp only [List.map_cons, List.map_nil, List.filter_cons, List.filter_nil, decide_eq_true_eq]

theorem ExecFile.header_mem {i : Nat} (inTable : i < file.elf.ePhnum)
    (isLoad : (file.header i).pType = elfPtLoad) : file.header i ∈ file.segments :=
  List.mem_filter.mpr ⟨List.mem_map.mpr ⟨i, List.mem_range.mpr inTable, rfl⟩, decide_eq_true isLoad⟩

/-- More segments cover more. -/
theorem Image.covers {done more : List ProgHdr} (image : Image file pgdir done memory areas)
    (later : Image file pgdir (done ++ more) after areas') {address : Nat}
    (covered : Covered areas.mmapList address) : Covered areas'.mmapList address := by
  obtain ⟨vma, member, contains⟩ := covered
  obtain ⟨ph, isDone, same⟩ := (image.areas vma).mp member
  exact ⟨vma, (later.areas vma).mpr ⟨ph, List.mem_append_left _ isDone, same⟩, contains⟩

/-- Segment `i` reaches into the area of an earlier one. -/
def ExecFile.Overlaps (file : ExecFile) (i : Nat) : Prop :=
  (file.header i).pType = elfPtLoad ∧ (file.header i).pFilesz ≤ (file.header i).pMemsz ∧
    ReachesInto (file.firstSegments i) (file.header i).pVa (file.header i).pMemsz

/-- The loop comes to such a segment. -/
def SegmentsStop (file : ExecFile) (allocator : PageAllocator) (pgdir : Nat) (kmalloc : Nat → Bool)
    (remaining i : Nat) (memory : Memory) (areas : CachedMm) : Prop :=
  ∃ count middle areas', count < remaining ∧
    loadSegments file allocator pgdir kmalloc file.elf.ePhoff count i memory areas =
      .ok (none, middle, areas') ∧ file.Overlaps (i + count)

theorem LoadSound.loadSegments (noWrap : ∀ ph ∈ file.segments, ph.pVa + ph.pMemsz < 2 ^ 64)
    (kmalloc : Nat → Bool) (allocator : PageAllocator) {remaining i : Nat}
    (sound : LoadSound boot base pgdir memory areas)
    (image : Image file pgdir (file.firstSegments i) memory areas)
    (total : i + remaining = file.elf.ePhnum) :
    LoadOutcome boot base pgdir memory areas
      (SegmentsStop file allocator pgdir kmalloc remaining i memory areas)
      (Image file pgdir file.segments)
      (loadSegments file allocator pgdir kmalloc file.elf.ePhoff remaining i memory areas) := by
  induction remaining generalizing i memory areas with
  | zero =>
      rw [Nat.add_zero] at total
      subst total
      exact Or.inr ⟨none, memory, areas, rfl, .refl _ _ _ _ _ _, fun _ => image⟩
  | succ remaining inductionHypothesis =>
      have nextTotal : i + 1 + remaining = file.elf.ePhnum := by omega
      unfold Process.loadSegments
      cases ran : file.read memory (add64 file.elf.ePhoff (progHdrSize * i)) progHdrSize with
      | error error =>
          exact Or.inr ⟨some error, memory, areas, rfl, .refl _ _ _ _ _ _,
            fun impossible => by cases impossible⟩
      | ok bytes =>
          simp only [file.read_header ran]
          -- where the loop stops behind this segment
          have stopsLater : ∀ middle areas', Process.loadSegment file allocator pgdir (kmalloc i)
              (file.header i) memory areas = .ok (none, middle, areas') →
              SegmentsStop file allocator pgdir kmalloc remaining (i + 1) middle areas' →
              SegmentsStop file allocator pgdir kmalloc (remaining + 1) i memory areas := by
            rintro middle areas' isSegment ⟨count, last, areas'', inRange, isRest, overlaps⟩
            refine ⟨count + 1, last, areas'', Nat.succ_lt_succ inRange, ?_, ?_⟩
            · unfold Process.loadSegments
              simp only [ran, file.read_header ran, bind, Except.bind, isSegment]
              exact isRest
            · rw [Nat.add_assoc, Nat.add_comm 1 count] at overlaps
              exact overlaps
          by_cases isLoad : (file.header i).pType = elfPtLoad
          · rcases sound.loadSegment image isLoad
              (noWrap _ (file.header_mem (by omega) isLoad)) (kmalloc i) allocator with
              ⟨⟨inFile, reaches⟩, stops⟩ | ⟨failed, after, areas', isSegment, loads, isDone⟩
            · rw [stops]
              exact Or.inl ⟨⟨0, memory, areas, Nat.succ_pos remaining, rfl, isLoad, inFile, reaches⟩, rfl⟩
            · rw [isSegment]
              cases failed with
              | some error =>
                  exact Or.inr ⟨some error, after, areas', rfl, loads,
                    fun impossible => by cases impossible⟩
              | none =>
                  have later := isDone rfl
                  have next : Image file pgdir (file.firstSegments (i + 1)) after areas' := by
                    rw [file.firstSegments_succ, if_pos isLoad]
                    exact later
                  rcases inductionHypothesis (sound.loads loads) next nextTotal with
                    ⟨cause, stops⟩ | ⟨failed, last, areas'', isRest, loadsRest, isLast⟩
                  · exact Or.inl ⟨stopsLater after areas' isSegment cause, stops⟩
                  · refine Or.inr ⟨failed, last, areas'', isRest, loads.trans ?_, isLast⟩
                    exact loadsRest.weaken fun address outside covered =>
                      outside (image.covers later covered)
          · have skips : Process.loadSegment file allocator pgdir (kmalloc i) (file.header i) memory areas =
                .ok (none, memory, areas) := if_pos isLoad
            have next : Image file pgdir (file.firstSegments (i + 1)) memory areas := by
              rw [file.firstSegments_succ, if_neg isLoad, List.append_nil]
              exact image
            rw [skips]
            exact (inductionHypothesis sound next nextTotal).imp_left fun stops =>
              ⟨stopsLater memory areas skips stops.1, stops.2⟩

/-! ## The stack -/

def stackVma : Vma := mapVma (uStackTop - uStackSize) uStackSize stackFlags

/-- The page that is `number` pages below the top of the stack is mapped. -/
def StackPage (memory : Memory) (pgdir number : Nat) : Prop :=
  ∃ page, memory.pteAt pgdir (uStackTop - number * pgSize) = pteCreate page (pteV ||| pteUser) ∧
    pteTarget (memory.pteAt pgdir (uStackTop - number * pgSize)) = some page

/-- Where the pages of the stack are. -/
theorem stackPlace {number count address : Nat} (positive : 1 ≤ number) (inRange : number ≤ count)
    (few : count ≤ uStackPage) (same : SamePage (uStackTop - number * pgSize) address) :
    uStackTop - count * pgSize ≤ address ∧ address < uStackTop := by
  unfold uStackPage at few
  unfold SamePage uStackTop userTop pgSize at *
  omega

theorem stackPlace_inj {number other : Nat} (few : number ≤ uStackPage) (otherFew : other ≤ uStackPage)
    (same : SamePage (uStackTop - number * pgSize) (uStackTop - other * pgSize)) : other = number := by
  unfold uStackPage at few otherFew
  unfold SamePage uStackTop userTop pgSize at same
  omega

/-- A page of the stack is missing, behind those that were allocated before it. -/
def StackStops (allocator : PageAllocator) (pgdir : Nat) (numbers : List Nat) (memory : Memory) : Prop :=
  ∃ before number rest middle after, numbers = before ++ number :: rest ∧
    stackPages allocator pgdir before memory = .ok middle ∧
    middle.pgdirAllocPage allocator pgdir (uStackTop - number * pgSize) pteUser = .ok (none, after)

theorem LoadSound.stackPages {count : Nat} (few : count ≤ uStackPage)
    (member : stackVma ∈ areas.mmapList) (allocator : PageAllocator) {numbers : List Nat}
    (each : ∀ number ∈ numbers, 1 ≤ number ∧ number ≤ count)
    (sound : LoadSound boot base pgdir memory areas) :
    (StackStops allocator pgdir numbers memory ∧
      stackPages allocator pgdir numbers memory = .error .assertFailed) ∨ ∃ after,
      stackPages allocator pgdir numbers memory = .ok after ∧
      Loads boot base pgdir memory areas after areas
        (fun address => uStackTop - count * pgSize ≤ address ∧ address < uStackTop) ∧
      ∀ number, 1 ≤ number → number ≤ count → number ∈ numbers ∨ StackPage memory pgdir number →
        StackPage after pgdir number := by
  induction numbers generalizing memory with
  | nil =>
      exact Or.inr ⟨memory, rfl, .refl _ _ _ _ _ _,
        fun number _ _ isMapped => isMapped.resolve_left List.not_mem_nil⟩
  | cons number rest inductionHypothesis =>
      obtain ⟨positive, inRange⟩ := each number List.mem_cons_self
      have here : SamePage (uStackTop - number * pgSize) (uStackTop - number * pgSize) := rfl
      have inStack : ∀ address, SamePage (uStackTop - number * pgSize) address →
          uStackTop - count * pgSize ≤ address ∧ address < uStackTop :=
        fun address same => stackPlace positive inRange few same
      have covered : Covered areas.mmapList (uStackTop - number * pgSize) :=
        ⟨stackVma, member, stackPlace positive (Nat.le_trans inRange few) (Nat.le_refl _) here⟩
      obtain ⟨result, allocated, ran, loads, isEntry⟩ :=
        sound.allocates (show pteUser < 2 ^ 10 by decide) covered allocator
      unfold Process.stackPages
      rw [ran]
      cases result with
      | none => exact Or.inl ⟨⟨[], number, rest, memory, allocated, rfl, rfl, ran⟩, rfl⟩
      | some page =>
          have loadsHere := loads.weaken inStack
          rcases inductionHypothesis (fun other isOther => each other (List.mem_cons_of_mem _ isOther))
            (sound.loads loads) with
            ⟨⟨before, missing, behind, middle, last, rfl, isBefore, isMissing⟩, stops⟩ |
            ⟨after, ranRest, loadsRest, mapped⟩
          · refine Or.inl ⟨⟨number :: before, missing, behind, middle, last, rfl, ?_, isMissing⟩, stops⟩
            unfold Process.stackPages
            simp only [ran, bind, Except.bind]
            exact isBefore
          · refine Or.inr ⟨after, ranRest, loadsHere.trans loadsRest, ?_⟩
            intro other otherPositive otherRange isMapped
            apply mapped other otherPositive otherRange
            by_cases same : other = number
            · subst same
              exact Or.inr ⟨page, isEntry page rfl⟩
            · rcases isMapped with isListed | wasMapped
              · exact Or.inl ((List.mem_cons.mp isListed).resolve_left same)
              · right
                have entry : allocated.pteAt pgdir (uStackTop - other * pgSize) =
                    memory.pteAt pgdir (uStackTop - other * pgSize) := by
                  refine (loads.same _ (stackPlace otherPositive otherRange few rfl).2 fun inPage => ?_).pte
                  exact same (stackPlace_inj (Nat.le_trans inRange few)
                    (Nat.le_trans otherRange few) inPage)
                unfold StackPage
                rw [entry]
                exact wasMapped

/-- The page of an address at the top of the stack. -/
theorem stackNumber {address : Nat} (above : uStackTop - 4 * pgSize ≤ address)
    (below : address < uStackTop) : ∃ number, 1 ≤ number ∧ number ≤ 4 ∧
      SamePage (uStackTop - number * pgSize) address := by
  refine ⟨(uStackTop - 1 - address) / pgSize + 1, ?_⟩
  unfold SamePage uStackTop userTop pgSize at *
  omega

/-- What is mapped is in an area. -/
theorem LoadSound.covered {address : Nat} (sound : LoadSound boot base pgdir memory areas)
    (user : address < userTop) (leads : pteTarget (memory.pteAt pgdir address) ≠ none) :
    Covered areas.mmapList address := by
  obtain ⟨dirs, pids, tables, sound⟩ := sound
  exact sound.backed pgdir _ loading_mm address user leads

/-- The program is in memory, and its stack. -/
structure Loaded (file : ExecFile) (pgdir : Nat) (memory : Memory) (areas : CachedMm) : Prop where
  magic : file.elf.eMagic = elfMagic
  areas : ∀ vma, vma ∈ areas.mmapList ↔ vma = stackVma ∨ ∃ ph ∈ file.segments, vma = ph.vma
  fits : ∀ ph ∈ file.segments, ph.Fits
  filled : ∀ ph ∈ file.segments,
    Filled memory pgdir ph.perm ph.pVa (ph.pVa + ph.pMemsz) (ph.byte file)
  /-- of the stack the last four pages are mapped -/
  stack : Granted memory pgdir pteUser (uStackTop - 4 * pgSize) uStackTop
  below : ∀ address, uStackTop - uStackSize ≤ address → address < uStackTop - 4 * pgSize →
    pteTarget (memory.pteAt pgdir address) = none

theorem LoadSound.loadStack (sound : LoadSound boot base pgdir memory areas)
    (image : Image file pgdir file.segments memory areas) (magic : file.elf.eMagic = elfMagic)
    (kmalloc : Bool) (allocator : PageAllocator) :
    LoadOutcome boot base pgdir memory areas
      (ReachesInto file.segments (uStackTop - uStackSize) uStackSize ∨
        StackStops allocator pgdir [1, 2, 3, 4] memory) (Loaded file pgdir)
      (loadStack allocator pgdir kmalloc memory areas) := by
  unfold Process.loadStack
  rcases sound.maps kmalloc allocator with ⟨fails, stops⟩ | ⟨made, areas', ran, loads, outcome⟩
  · rw [stops]
    exact Or.inl ⟨Or.inl (reachesInto_of_not_meets image.areas fails), rfl⟩
  · rw [ran]
    have loadsMap : Loads boot base pgdir memory areas memory areas'
        fun address => ¬ Covered areas.mmapList address :=
      loads.weaken fun _ impossible => impossible.elim
    rcases outcome with ⟨error, rfl⟩ | ⟨⟨vma, rfl⟩, members, apart⟩
    · exact Or.inr ⟨_, _, _, rfl, loadsMap, fun impossible => by cases impossible⟩
    · have soundMap := sound.loads loads
      have member : stackVma ∈ areas'.mmapList := (members stackVma).mpr (Or.inl rfl)
      have four : (4 : Nat) ≤ uStackPage := by decide
      have each : ∀ number ∈ [1, 2, 3, 4], 1 ≤ number ∧ number ≤ 4 := by decide
      rcases soundMap.stackPages four member allocator each with
        ⟨cause, stops⟩ | ⟨after, ranPages, loadsPages, mapped⟩
      · refine Or.inl ⟨Or.inr cause, ?_⟩
        simp only [bind, Except.bind, stops]
      · have inVma : ∀ address, uStackTop - 4 * pgSize ≤ address ∧ address < uStackTop →
            stackVma.Contains address :=
          fun address inside => ⟨Nat.le_trans (by decide) inside.1, inside.2⟩
        have outside : ∀ address, stackVma.Contains address → ¬ Covered areas.mmapList address := apart
        refine Or.inr ⟨none, after, areas', ?_, loadsMap.trans (loadsPages.weaken fun address inside =>
          outside address (inVma address inside)), fun _ => ?_⟩
        · simp only [bind, Except.bind, ranPages]
          rfl
        · refine ⟨magic, fun vma => ?_, image.fits, ?_, ?_, ?_⟩
          · rw [members vma, image.areas vma]
            rfl
          · refine image.kept sound fun address user covered => ?_
            exact loadsPages.same address user fun inside =>
              outside address (inVma address inside) covered
          · intro address above below
            obtain ⟨number, positive, inRange, same⟩ := stackNumber above below
            have isListed : number ∈ [1, 2, 3, 4] := by
              simp only [List.mem_cons, List.not_mem_nil, or_false]
              omega
            obtain ⟨page, entry, leads⟩ := mapped number positive inRange (Or.inl isListed)
            have user : uStackTop - number * pgSize < userTop := (stackPlace positive inRange four rfl).2
            have sameEntry : after.pteAt pgdir address =
                after.pteAt pgdir (uStackTop - number * pgSize) := same.pteAt user
            rw [sameEntry]
            exact ⟨page, entry, leads⟩
          · intro address above below
            have inStack : stackVma.Contains address := ⟨above, Nat.lt_of_lt_of_le below (by decide)⟩
            have stays := loadsPages.same address inStack.2 fun inside =>
              absurd inside.1 (not_le.mpr below)
            rw [stays.pte]
            by_contra leads
            exact outside address inStack (sound.covered inStack.2 leads)

/-- Why loading stops the kernel: an area reaches into an earlier one, or a page of the stack is
missing. -/
def ImageStops (file : ExecFile) (allocator : PageAllocator) (pgdir : Nat) (kmalloc : Nat → Bool)
    (memory : Memory) : Prop :=
  SegmentsStop file allocator pgdir kmalloc file.elf.ePhnum 0 memory .mmCreate ∨
    ∃ middle areas, loadSegments file allocator pgdir kmalloc file.elf.ePhoff file.elf.ePhnum 0 memory
        .mmCreate = .ok (none, middle, areas) ∧
      (ReachesInto file.segments (uStackTop - uStackSize) uStackSize ∨
        StackStops allocator pgdir [1, 2, 3, 4] middle)

theorem LoadSound.loadImage (noWrap : ∀ ph ∈ file.segments, ph.pVa + ph.pMemsz < 2 ^ 64)
    (sound : LoadSound boot base pgdir memory .mmCreate) (kmalloc : Nat → Bool)
    (allocator : PageAllocator) :
    LoadOutcome boot base pgdir memory .mmCreate (ImageStops file allocator pgdir kmalloc memory)
      (Loaded file pgdir) (loadImage file allocator pgdir kmalloc memory) := by
  unfold Process.loadImage
  cases ran : file.read memory 0 elfHdrSize with
  | error error =>
      exact Or.inr ⟨_, _, _, rfl, .refl _ _ _ _ _ _, fun impossible => by cases impossible⟩
  | ok bytes =>
      simp only [file.read_elf ran]
      by_cases magic : file.elf.eMagic = elfMagic
      · rw [if_neg (not_not.mpr magic)]
        have nothing : Image file pgdir (file.firstSegments 0) memory .mmCreate := by
          refine ⟨fun vma => ?_, fun ph isIn => ?_, fun ph isIn => ?_⟩
          · exact iff_of_false List.not_mem_nil fun ⟨_, isIn, _⟩ => List.not_mem_nil isIn
          · exact absurd isIn List.not_mem_nil
          · exact absurd isIn List.not_mem_nil
        rcases sound.loadSegments noWrap kmalloc allocator nothing (Nat.zero_add _) with
          ⟨cause, stops⟩ | ⟨failed, after, areas', ranSegments, loads, isImage⟩
        · rw [stops]
          exact Or.inl ⟨Or.inl cause, rfl⟩
        · rw [ranSegments]
          cases failed with
          | some error =>
              exact Or.inr ⟨some error, after, areas', rfl, loads, fun impossible => by cases impossible⟩
          | none =>
              rcases (sound.loads loads).loadStack (isImage rfl) magic (kmalloc file.elf.ePhnum) allocator
                with ⟨cause, stops⟩ | ⟨failed, last, areas'', ranStack, loadsStack, isLoaded⟩
              · exact Or.inl ⟨Or.inr ⟨after, areas', ranSegments, cause⟩, stops⟩
              · refine Or.inr ⟨failed, last, areas'', ranStack, loads.trans (loadsStack.weaken ?_), isLoaded⟩
                rintro address _ ⟨vma, isIn, _⟩
                exact absurd isIn List.not_mem_nil
      · rw [if_pos magic]
        exact Or.inr ⟨_, _, _, rfl, .refl _ _ _ _ _ _, fun impossible => by cases impossible⟩

/-! ## `load_icode` -/

/-- What `load_icode` leaves: the image in a new `mm` that the process holds, or nothing. -/
def IcodeDone (file : ExecFile) (state after : Spaces) (pid : Nat) : Option LoadError → Prop
  | none => ∃ pgdir mm, state.mms pgdir = none ∧ after.current pid = some pgdir ∧
      after.mms pgdir = some mm ∧ mm.count = 1 ∧ Loaded file pgdir after.memory mm.areas
  | some _ => after.mms = state.mms ∧ after.current = state.current

section Out

variable {state : Spaces} {pid : Nat} {failed : Option LoadError}

theorem icode_stops {kmallocMm : Bool} {kmalloc : Nat → Bool} (without : state.current pid = none)
    (create : state.mmCreate allocator boot kmallocMm =
      .ok (some pgdir, loading state pgdir memory .mmCreate))
    (stops : loadImage file allocator pgdir kmalloc memory = .error .assertFailed) :
    loadIcode state file allocator boot pid kmallocMm kmalloc = .error .assertFailed := by
  have isImage : loadImage file allocator pgdir kmalloc (loading state pgdir memory .mmCreate).memory =
      .error .assertFailed := stops
  unfold loadIcode
  rw [if_neg (not_not.mpr without), create]
  simp only [bind, Except.bind, isImage]

theorem icode_goes {kmallocMm : Bool} {kmalloc : Nat → Bool} (without : state.current pid = none)
    (create : state.mmCreate allocator boot kmallocMm =
      .ok (some pgdir, loading state pgdir memory .mmCreate))
    (ran : loadImage file allocator pgdir kmalloc memory = .ok (failed, after, areas)) :
    loadIcode state file allocator boot pid kmallocMm kmalloc =
      icodeOut allocator pgdir pid failed (loading state pgdir after areas) := by
  have isImage : loadImage file allocator pgdir kmalloc (loading state pgdir memory .mmCreate).memory =
      .ok (failed, after, areas) := ran
  have again : ((loading state pgdir memory .mmCreate).setMemory after).setMm pgdir (some ⟨areas, 0⟩) =
      loading state pgdir after areas := loading_areas
  unfold loadIcode
  rw [if_neg (not_not.mpr without), create]
  simp only [bind, Except.bind, isImage, again]

/-- The way out, once everything is loaded or something failed. -/
theorem LoadSound.icodeOut (sound : LoadSound boot state pgdir memory areas)
    (isNew : state.mms pgdir = none) (without : state.current pid = none)
    (isLoaded : failed = none → Loaded file pgdir memory areas) (allocator : PageAllocator) :
    ∃ after call, icodeOut allocator pgdir pid failed (loading state pgdir memory areas) =
        .ok (failed, after) ∧
      (spaceMachine boot).Step (loading state pgdir memory areas) (allocator, call) after ∧
      OthersKept (loading state pgdir memory areas) after (some pgdir) ∧
      IcodeDone file state after pid failed := by
  obtain ⟨dirs, pids, tables, sound⟩ := sound
  have present : (loading state pgdir memory areas).mms pgdir ≠ none := by
    rw [loading_mm]
    exact Option.some_ne_none _
  unfold Process.icodeOut
  cases failed with
  | none =>
      obtain ⟨after, ran, _, kept, sameMemory, isMm, isCurrent⟩ := sound.adopt loading_mm
        (show (loading state pgdir memory areas).current pid = none from without)
      rw [if_pos rfl, ran]
      refine ⟨after, .adopt pid pgdir, rfl, ⟨⟨without, present⟩, ran⟩, kept.any _, pgdir, _, isNew, ?_,
        isMm, rfl, ?_⟩
      · rw [isCurrent, Function.update_self]
      · rw [sameMemory]
        exact isLoaded rfl
  | some error =>
      obtain ⟨emptied, after, tables', exited, put, _, kept, _⟩ := sound.discard loading_mm rfl allocator
      have ran := Spaces.discard_eq loading_mm exited put
      rw [if_neg (Option.some_ne_none error), ran]
      refine ⟨_, .discard pgdir, rfl, ⟨⟨_, loading_mm, rfl⟩, ran⟩, kept, ?_, rfl⟩
      funext name
      by_cases same : name = pgdir
      · rw [same, Spaces.setMm_self, isNew]
      · rw [Spaces.setMm_of_ne same]
        exact Spaces.setMm_of_ne same

end Out

/-- Why `load_icode` stops the kernel. -/
def IcodeStops (state : Spaces) (file : ExecFile) (allocator : PageAllocator) (boot : Nat)
    (kmallocMm : Bool) (kmalloc : Nat → Bool) : Prop :=
  ∃ pgdir made, state.mmCreate allocator boot kmallocMm = .ok (some pgdir, made) ∧
    ImageStops file allocator pgdir kmalloc made.memory

/-- `load_icode` stops for one of these reasons, or is a run of the calls on address spaces. -/
theorem loadIcode_done {state : Spaces} {pid : Nat} {dirs pids : Finset Nat} {tables : TableMap}
    (sound : SpacesSound boot state dirs pids tables) (without : state.current pid = none)
    (noWrap : ∀ ph ∈ file.segments, ph.pVa + ph.pMemsz < 2 ^ 64) (kmallocMm : Bool)
    (kmalloc : Nat → Bool) (allocator : PageAllocator) :
    (IcodeStops state file allocator boot kmallocMm kmalloc ∧
      loadIcode state file allocator boot pid kmallocMm kmalloc = .error .assertFailed) ∨
    ∃ failed after more,
      loadIcode state file allocator boot pid kmallocMm kmalloc = .ok (failed, after) ∧
      Run (spaceMachine boot).Step state more after ∧ OthersKept state after none ∧
        IcodeDone file state after pid failed := by
  rcases sound.mmCreate allocator kmallocMm with ⟨made, create, _, kept, sameMms, sameCurrent⟩ |
    ⟨page, isFree, create⟩
  · have ran : loadIcode state file allocator boot pid kmallocMm kmalloc = .ok (some .noMem, made) := by
      unfold loadIcode
      rw [if_neg (not_not.mpr without), create]
      rfl
    exact Or.inr ⟨_, made, [(allocator, .mmCreate kmallocMm)], ran,
      .single ⟨trivial, SpaceCall.run_mmCreate create⟩, kept, sameMms, sameCurrent⟩
  · have isNew := sound.isNew isFree
    obtain ⟨soundNew, keptNew⟩ := sound.planted isFree
    have start : LoadSound boot state page (state.memory.planted page boot) .mmCreate :=
      ⟨_, _, _, soundNew⟩
    have created : (spaceMachine boot).Step state (allocator, .mmCreate kmallocMm)
        (loading state page (state.memory.planted page boot) .mmCreate) :=
      ⟨trivial, SpaceCall.run_mmCreate create⟩
    rcases start.loadImage noWrap kmalloc allocator with
      ⟨cause, stops⟩ | ⟨failed, memory, areas, ran, loads, isLoaded⟩
    · exact Or.inl ⟨⟨page, _, create, cause⟩, icode_stops without create stops⟩
    · have soundLoaded := start.loads loads
      obtain ⟨steps, loadRun⟩ := loads.steps
      obtain ⟨after, call, out, step, kept, done⟩ :=
        soundLoaded.icodeOut isNew without isLoaded allocator
      have whole : Run (spaceMachine boot).Step state
          ((allocator, .mmCreate kmallocMm) :: (steps ++ [(allocator, call)])) after :=
        .cons created (loadRun.append (.single step))
      exact Or.inr ⟨failed, after, _, (icode_goes without create ran).trans out, whole,
        keptNew.made isNew ((start.others loads).trans kept), done⟩

/-- `load_icode`, where the sums of no segment wrap. It stops only where an area reaches into an earlier
one, at an assertion under `mm_map`, or where a page of the stack is missing; otherwise it is a run of
the calls on address spaces, and when it succeeds, every segment is in its area, with the bytes of the
file and zeros behind them. -/
theorem load_icode_exact {first state : Spaces} {window : Nat → Option Nat} {pid : Nat}
    {kmallocMm : Bool} {kmalloc : Nat → Bool} {calls : List (PageAllocator × SpaceCall)}
    (fresh : FreshSpaces boot first window) (run : Run (spaceMachine boot).Step first calls state)
    (without : state.current pid = none)
    (noWrap : ∀ ph ∈ file.segments, ph.pVa + ph.pMemsz < 2 ^ 64) :
    (IcodeStops state file allocator boot kmallocMm kmalloc ∧
      loadIcode state file allocator boot pid kmallocMm kmalloc = .error .assertFailed) ∨
      ∃ failed after more,
        loadIcode state file allocator boot pid kmallocMm kmalloc = .ok (failed, after) ∧
        Run (spaceMachine boot).Step state more after ∧ SpacesApart after ∧ OthersKept state after none ∧
          IcodeDone file state after pid failed := by
  obtain ⟨dirs, pids, tables, sound⟩ := fresh.reaches run
  rcases loadIcode_done sound without noWrap kmallocMm kmalloc allocator with
    stops | ⟨failed, after, more, ran, whole, kept, done⟩
  · exact Or.inl stops
  · obtain ⟨_, _, _, soundAfter⟩ := sound.run whole
    exact Or.inr ⟨failed, after, more, ran, whole, soundAfter.apart, kept, done⟩

/-- A header, and one program header behind it: 16 bytes of the file at 0x800000, and as many zeros. -/
def tinyContent : Bytes :=
  [(0, 4, elfMagic), (32, 8, 64), (56, 2, 1), (64, 4, 1), (68, 4, 5), (80, 8, 0x800000), (96, 8, 16),
    (104, 8, 32)].foldl (fun bytes field => bytes.overlay field.1 field.2.1 (Bytes.ofNumber field.2.2))
      Bytes.zeros

def tinyFile : ExecFile where
  content := tinyContent
  read _ offset len :=
    if offset + len ≤ pgSize then .ok (tinyContent.drop offset) else .error (.read (-1))
  read_small memory offset len bytes ran := by
    split_ifs at ran with inFile
    exact Nat.lt_of_le_of_lt inFile (by decide)
  read_content memory offset len bytes ran position _ := by
    split_ifs at ran with inFile
    rw [← Except.ok.inj ran]
    rfl

theorem tinyFile_fits : ∀ ph ∈ tinyFile.segments, ph.pVa + ph.pMemsz < 2 ^ 64 := by decide +kernel

set_option maxRecDepth 20000 in
theorem tinyFile_loads : ((loadIcode sixteenSpaces tinyFile lowestFree 0 7 true fun _ =>
    true).toOption.any fun result => decide (result.1 = none)) = true := by decide +kernel

theorem load_icode_exact_tiny : ∃ after,
    loadIcode sixteenSpaces tinyFile lowestFree 0 7 true (fun _ => true) = .ok (none, after) ∧
      IcodeDone tinyFile sixteenSpaces after 7 none := by
  have loads := tinyFile_loads
  have nobody : sixteenSpaces.current 7 = none := rfl
  have run : Run (spaceMachine 0).Step sixteenSpaces [] sixteenSpaces := .nil _
  rcases load_icode_exact sixteenSpaces_fresh run nobody tinyFile_fits with
    ⟨_, stops⟩ | ⟨failed, after, _, ran, _, _, _, done⟩
  · rw [stops] at loads
    cases loads
  · rw [ran] at loads
    obtain rfl : failed = none := of_decide_eq_true loads
    exact ⟨after, ran, done⟩

end UCore.Process
