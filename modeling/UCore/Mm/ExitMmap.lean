import UCore.Mm.DupMmap
import UCore.Mm.ExitRange

/-!
Contract: giving up the memory of a process, `exit_mmap` of `kern/mm/vmm.c` with `put_pgdir`.

Owns:
- `exit_mmap` over the areas of an `mm` that maps nothing outside of them;
- which pages are free afterwards: the pages that no other directory maps, the directory, and the
  tables that `exit_range` frees;
- that no other directory notices.

Does not own: who calls it.
-/

set_option autoImplicit false

namespace UCore.Mm

open UCore.Lib

variable {memory middle after : Memory} {dirs : Finset Nat} {tables tables' : TableMap}
  {dir la page frame : Nat} {place : List Nat} {areas : List Vma} {allocator : PageAllocator}

/-- The first loop of `exit_mmap`. -/
def unmapAreas (allocator : PageAllocator) (pgdir : Nat) : List Vma → Memory → Except Stop Memory
  | [], memory => .ok memory
  | vma :: rest, memory => do
      let memory ← memory.unmapRange allocator pgdir vma.vmStart vma.vmEnd
      unmapAreas allocator pgdir rest memory

/-- The second loop of `exit_mmap`. -/
def exitAreas (pgdir : Nat) : List Vma → Memory → Except Stop Memory
  | [], memory => .ok memory
  | vma :: rest, memory => do
      let memory ← memory.exitRange pgdir vma.vmStart vma.vmEnd
      exitAreas pgdir rest memory

def exitMmap (allocator : PageAllocator) (mmCount : Int) (pgdir : Nat) (areas : List Vma)
    (memory : Memory) : Except Stop Memory :=
  if mmCount = 0 then do
    let memory ← unmapAreas allocator pgdir areas memory
    exitAreas pgdir areas memory
  else .error .assertFailed

/-! ## The pages -/

/-- An entry that leads nowhere is 0. -/
theorem Paged.pteAt_none (paged : Paged memory dirs tables) (known : dir ∈ dirs) (user : la < userTop)
    (missing : pteTarget (memory.pteAt dir la) = none) : memory.pteAt dir la = 0 := by
  cases found : memory.findPte dir la with
  | none => exact Memory.findPte_none found
  | some slot =>
      obtain ⟨position, value⟩ := Memory.findPte_some found
      have here := paged.findPte_owner known (pdx1_lt_two user) found
      rw [value] at missing ⊢
      exact paged.owned.clean _ _ _ _ here ⟨position ▸ ptx_lt la, fun impossible => by cases impossible⟩
        missing

/-- The entries of the areas are cleared in one directory. -/
structure AreasUnmapped (memory after : Memory) (dirs : Finset Nat) (dir : Nat) (areas : List Vma) :
    Prop where
  gone : ∀ la < userTop, Covered areas la → after.pteAt dir la = 0
  kept : ∀ root ∈ dirs, ∀ la < userTop, ¬ (root = dir ∧ Covered areas la) → Kept memory after root la

theorem Vma.Sound.checks {vma : Vma} (sound : vma.Sound) :
    (vma.vmStart % pgSize = 0 ∧ vma.vmEnd % pgSize = 0) ∧ UserAccess vma.vmStart vma.vmEnd :=
  ⟨⟨sound.alignedStart, sound.alignedEnd⟩, sound.user⟩

theorem Counted.unmapAreas (counted : Counted memory dirs tables) (known : dir ∈ dirs)
    (sound : ∀ vma ∈ areas, vma.Sound) (allocator : PageAllocator) : ∃ after,
    Mm.unmapAreas allocator dir areas memory = .ok after ∧
      PagesMoved memory after dirs tables tables (fun _ => False) ∧
      AreasUnmapped memory after dirs dir areas := by
  induction areas generalizing memory with
  | nil =>
      refine ⟨memory, rfl, .refl counted, ⟨?_, fun root _ _ _ _ => .refl root⟩⟩
      rintro la _ ⟨_, impossible, _⟩
      cases impossible
  | cons vma rest inductionHypothesis =>
      obtain ⟨middle, ran, moved, unmapped⟩ :=
        counted.unmapRange known (sound vma List.mem_cons_self).checks allocator
      obtain ⟨after, ranRest, later, areasUnmapped⟩ := inductionHypothesis moved.counted
        fun other member => sound other (List.mem_cons_of_mem _ member)
      unfold Mm.unmapAreas
      simp only [ran, bind, Except.bind]
      refine ⟨after, ranRest, moved.trans later, ⟨?_, ?_⟩⟩
      · intro la user covered
        by_cases there : Covered rest la
        · exact areasUnmapped.gone la user there
        · have here := (covered_cons.mp covered).resolve_right there
          rw [(areasUnmapped.kept dir known la user fun both => there both.2).pte]
          exact unmapped.gone la user here.1 here.2
      · intro root isRoot la user outside
        exact (unmapped.kept root isRoot la user fun here =>
            outside ⟨here.1, covered_cons.mpr (Or.inl here.2)⟩).trans
          (areasUnmapped.kept root isRoot la user fun here =>
            outside ⟨here.1, covered_cons.mpr (Or.inr here.2)⟩)

/-! ## The tables -/

/-- The tables that the second loop gives up, of those at the places `held`. -/
def goneAreas (held : Set (List Nat)) : List Vma → Set (List Nat)
  | [] => ∅
  | vma :: rest =>
      gonePlaces held vma.vmStart vma.vmEnd ∪
        goneAreas (held \ gonePlaces held vma.vmStart vma.vmEnd) rest

/-- The tables that it frees. -/
def freedAreas (held : Set (List Nat)) : List Vma → Set (List Nat)
  | [] => ∅
  | vma :: rest =>
      freedPlaces held vma.vmStart vma.vmEnd ∪
        freedAreas (held \ gonePlaces held vma.vmStart vma.vmEnd) rest \
          gonePlaces held vma.vmStart vma.vmEnd

theorem Counted.exitAreas (counted : Counted memory dirs tables) (known : dir ∈ dirs)
    (bare : Bare memory dir) (sound : ∀ vma ∈ areas, vma.Sound) : ∃ after tables',
    Mm.exitAreas dir areas memory = .ok after ∧
      Exits memory after dirs tables tables' dir (freedAreas (Tables tables dir) areas)
        (goneAreas (Tables tables dir) areas) := by
  induction areas generalizing memory tables with
  | nil => exact ⟨memory, tables, rfl, .nothing counted (fun _ _ inside => inside) fun _ _ inside => inside⟩
  | cons vma rest inductionHypothesis =>
      obtain ⟨middle, tables', ran, exits⟩ :=
        counted.exitRange known bare (sound vma List.mem_cons_self).checks
      obtain ⟨after, tables'', ranRest, later⟩ := inductionHypothesis exits.cleared.counted
        (exits.cleared.bare known bare) fun other member => sound other (List.mem_cons_of_mem _ member)
      unfold Mm.exitAreas
      simp only [ran, bind, Except.bind]
      rw [exits.tables_eq] at later
      exact ⟨after, tables'', ranRest, exits.trans later freedPlaces_subset⟩

/-! ## The directory -/

/-- The memory in which a directory is freed. -/
def Memory.uprooted (memory : Memory) (dir : Nat) : Memory :=
  { memory with
    free := insert dir memory.free
    ref := Function.update memory.ref dir 0 }

section Uproot

variable (counted : Counted memory dirs tables) (known : dir ∈ dirs)

include counted known

theorem Counted.putPgdir_eq : memory.putPgdir dir = .ok (memory.uprooted dir) := by
  have used : dir ∉ memory.free := by
    intro isFree
    have isRoot := counted.paged.owner_dir known
    rw [(counted.paged.spare dir isFree).2.1] at isRoot
    cases isRoot
  unfold Memory.putPgdir Memory.freePage
  rw [if_neg used]
  rfl

theorem Counted.uprooted_paged :
    Paged (memory.uprooted dir) (dirs.erase dir) (tables.cutOff dir [] dir) := by
  have paged := counted.paged
  have isDir := paged.owner_dir known
  have stays : ∀ {other root position}, Radix.prune tables.owner dir [] other = some (root, position) ↔
      tables.owner other = some (root, position) ∧ root ≠ dir := by
    intro other root position
    rw [Radix.prune_some]
    exact and_congr_right fun _ => not_congr (and_iff_left List.nil_prefix)
  have windowKept : ∀ other, tables.owner other = none →
      (tables.cutOff dir [] dir).window other = tables.window other :=
    fun other unowned => TableMap.cutOff_window unowned
  have unowned : ∀ other, tables.window other ≠ none → tables.owner other = none :=
    fun other isWindow => (paged.window_apart isWindow).1
  constructor
  · apply paged.owned.prune
    intro other root position slot _
    rw [if_neg]
    · rfl
    · exact fun atCut => List.append_ne_nil_of_right_ne_nil _ (List.cons_ne_nil _ _) atCut.2.symm
  · intro other root
    refine stays.trans ?_
    rw [paged.root other root, Finset.mem_erase]
    exact ⟨fun both => ⟨both.1.1, both.2, both.1.2⟩, fun both => ⟨⟨both.1, both.2.2⟩, both.2.1⟩⟩
  · exact paged.small
  · intro other isFree
    rcases Finset.mem_insert.mp isFree with rfl | wasFree
    · refine ⟨(paged.inside _ _ isDir).1, ?_, ?_⟩
      · cases still : (tables.cutOff other [] other).owner other with
        | none => rfl
        | some kept =>
            obtain ⟨isKept, differ⟩ := stays.mp (show _ = some (kept.1, kept.2) from still)
            exact absurd (Prod.mk.inj (Option.some.inj (isKept.symm.trans isDir))).1 differ
      · rw [TableMap.cutOff_window_eq, if_neg fun both => both.1 rfl]
        exact (paged.inside _ _ isDir).2
    · obtain ⟨inRange, isNone, unwindowed⟩ := paged.spare other wasFree
      exact ⟨inRange, prune_none isNone, (windowKept other isNone).trans unwindowed⟩
  · intro other kept still
    have isOwned := (stays.mp (show _ = some (kept.1, kept.2) from still)).1
    refine ⟨(paged.inside _ _ isOwned).1, ?_⟩
    rw [TableMap.cutOff_window_eq, if_neg fun both => both.2 (still.trans isOwned.symm)]
    exact (paged.inside _ _ isOwned).2
  · intro other root position slot target still lowest inTable leads
    have data := paged.mapped _ _ _ _ _ (stays.mp still).1 lowest inTable leads
    refine ⟨data.inRange, prune_none data.unowned, (windowKept _ data.unowned).trans data.unwindowed,
      fun isFree => ?_⟩
    rcases Finset.mem_insert.mp isFree with rfl | wasFree
    · rw [data.unowned] at isDir
      cases isDir
    · exact data.used wasFree
  · intro root isRoot slot high inTable below leads
    have isWindow := paged.windowTop root (Finset.mem_of_mem_erase isRoot) slot high inTable below leads
    rw [windowKept below (unowned below (isWindow ▸ Option.some_ne_none _)), isWindow]
  · intro other isWindow slot inTable below leads
    have wasWindow : tables.window other = some 1 := by
      rw [TableMap.cutOff_window_eq] at isWindow
      split_ifs at isWindow with isLost
      · cases isWindow
      · exact isWindow
    have belowWindow := paged.windowNext other wasWindow slot inTable below leads
    rw [windowKept below (unowned below (belowWindow ▸ Option.some_ne_none _)), belowWindow]

omit counted known in
/-- A directory that maps no user address counts for nothing. -/
theorem Counted.uprooted_mappings (bare : Bare memory dir) (page : Nat) :
    (memory.uprooted dir).mappings (dirs.erase dir) page = memory.mappings dirs page := by
  refine (tally_extend (Finset.product_subset_product_left (Finset.erase_subset _ _)) ?_).symm
  rintro ⟨root, number⟩ within outside
  rw [Finset.mem_product, Finset.mem_range] at within outside
  have isDir : root = dir := by
    by_contra differ
    exact outside ⟨Finset.mem_erase.mpr ⟨differ, within.1⟩, within.2⟩
  have user : number * pgSize < userTop := by
    have small : number < userTop / pgSize := within.2
    unfold userTop pgSize at small
    unfold userTop pgSize
    omega
  have none : (memory.uprooted dir).pteAt dir (number * pgSize) = 0 := bare _ user trivial
  simp only [isDir, none, pteTarget_zero]
  simp

theorem Counted.uprooted (bare : Bare memory dir) :
    Counted (memory.uprooted dir) (dirs.erase dir) (tables.cutOff dir [] dir) where
  paged := counted.uprooted_paged known
  exact page data := by
    have apart : page ≠ dir := fun same => data.used (Finset.mem_insert.mpr (Or.inl same))
    have unowned : tables.owner page = none := by
      have isNone := data.unwindowed
      rw [TableMap.cutOff_window_eq] at isNone
      split_ifs at isNone with isLost
      rw [← not_not.mp fun differ => isLost ⟨apart, differ⟩]
      exact data.unowned
    have before : DataPage memory tables page :=
      ⟨data.inRange, unowned, (TableMap.cutOff_window unowned).symm.trans data.unwindowed,
        fun isFree => data.used (Finset.mem_insert_of_mem isFree)⟩
    rw [Counted.uprooted_mappings bare page, ← counted.exact page before]
    exact Function.update_of_ne apart _ _
  idle page isFree := by
    by_cases same : page = dir
    · subst same
      exact Function.update_self _ _ _
    · have wasFree := (Finset.mem_insert.mp isFree).resolve_left same
      exact (Function.update_of_ne same _ _).trans (counted.idle page wasFree)

end Uproot

/-! ## All of it -/

/-- What the directory maps is in the areas. -/
def Backed (memory : Memory) (dir : Nat) (areas : List Vma) : Prop :=
  ∀ la < userTop, pteTarget (memory.pteAt dir la) ≠ none → Covered areas la

/-- What is left when a directory is given up. -/
structure TornDown (memory after : Memory) (dirs : Finset Nat) (tables tables' : TableMap) (dir : Nat)
    (areas : List Vma) : Prop where
  counted : Counted after (dirs.erase dir) tables'
  npage : after.npage = memory.npage
  kept : ∀ root ∈ dirs, root ≠ dir → ∀ la < userTop, Kept memory after root la
  window : ∀ frame, tables.window frame ≠ none → tables'.window frame = tables.window frame
  windowBytes : ∀ frame, tables.window frame ≠ none → after.bytes frame = memory.bytes frame
  /-- free are the pages that were free, those that only the directory mapped, the directory, and the
  tables that `exit_range` frees -/
  free : ∀ page, page ∈ after.free ↔ page ∈ memory.free ∨
    ((∃ la < userTop, pteTarget (memory.pteAt dir la) = some page) ∧
      ¬ memory.Maps (dirs.erase dir) page) ∨
    ∃ place, tables.owner page = some (dir, place) ∧
      (place = [] ∨ place ∈ freedAreas (Tables tables dir) areas)

section Teardown

variable (counted : Counted memory dirs tables) (known : dir ∈ dirs) (backed : Backed memory dir areas)

include counted known backed

theorem AreasUnmapped.bare (unmapped : AreasUnmapped memory after dirs dir areas) : Bare after dir := by
  intro la user _
  by_cases covered : Covered areas la
  · exact unmapped.gone la user covered
  · rw [(unmapped.kept dir known la user fun both => covered both.2).pte]
    have missing : pteTarget (memory.pteAt dir la) = none := by
      by_contra leads
      exact covered (backed la user leads)
    exact counted.paged.pteAt_none known user missing

/-- Clearing the areas frees what no other directory maps. -/
theorem AreasUnmapped.free (unmapped : AreasUnmapped memory after dirs dir areas)
    (moved : PagesMoved memory after dirs tables tables fun _ => False) (page : Nat) :
    page ∈ after.free ↔ page ∈ memory.free ∨
      ((∃ la < userTop, pteTarget (memory.pteAt dir la) = some page) ∧
        ¬ memory.Maps (dirs.erase dir) page) := by
  have bare := unmapped.bare counted known backed
  have others : ∀ root ∈ dirs, root ≠ dir → ∀ la < userTop, after.pteAt root la = memory.pteAt root la :=
    fun root isRoot differ la user => (unmapped.kept root isRoot la user fun both => differ both.1).pte
  have mapsAfter : after.Maps dirs page → memory.Maps (dirs.erase dir) page := by
    rintro ⟨root, isRoot, la, user, leads⟩
    have differ : root ≠ dir := by
      rintro rfl
      rw [bare la user trivial, pteTarget_zero] at leads
      cases leads
    rw [others root isRoot differ la user] at leads
    exact ⟨root, Finset.mem_erase.mpr ⟨differ, isRoot⟩, la, user, leads⟩
  have maps_erase : memory.Maps (dirs.erase dir) page → memory.Maps dirs page := by
    rintro ⟨root, isRoot, rest⟩
    exact ⟨root, Finset.mem_of_mem_erase isRoot, rest⟩
  constructor
  · intro isFree
    by_cases wasFree : page ∈ memory.free
    · exact Or.inl wasFree
    · have noOther : ¬ memory.Maps (dirs.erase dir) page := by
        rintro ⟨root, isRoot, la, user, leads⟩
        obtain ⟨differ, inDirs⟩ := Finset.mem_erase.mp isRoot
        rw [← others root inDirs differ la user] at leads
        exact moved.counted.maps_used ⟨root, inDirs, la, user, leads⟩ isFree
      obtain ⟨root, isRoot, la, user, leads⟩ := moved.freed page wasFree isFree
      have isDir : root = dir := by
        by_contra differ
        exact noOther ⟨root, Finset.mem_erase.mpr ⟨differ, isRoot⟩, la, user, leads⟩
      exact Or.inr ⟨⟨la, user, isDir ▸ leads⟩, noOther⟩
  · intro here
    have isData : tables.owner page = none ∧ ¬ memory.Maps (dirs.erase dir) page := by
      rcases here with isFree | ⟨⟨la, user, leads⟩, noOther⟩
      · exact ⟨(counted.paged.spare page isFree).2.1,
          fun maps => counted.maps_used (maps_erase maps) isFree⟩
      · exact ⟨(counted.paged.dataPage known (pdx1_lt_two user) leads).unowned, noOther⟩
    have placed := moved.placed page (here.imp_right fun both => by
      obtain ⟨la, user, leads⟩ := both.1
      exact ⟨dir, known, la, user, leads⟩)
    rcases placed with isFree | isTable | maps
    · exact isFree
    · exact absurd isData.1 isTable
    · exact absurd (mapsAfter maps) isData.2

/-- `exit_mmap` and `put_pgdir` return, and no other directory notices. -/
theorem Counted.tearDown (sound : ∀ vma ∈ areas, vma.Sound) (allocator : PageAllocator) :
    ∃ emptied after tables', exitMmap allocator 0 dir areas memory = .ok emptied ∧
      emptied.putPgdir dir = .ok after ∧ TornDown memory after dirs tables tables' dir areas := by
  obtain ⟨unmapped, ranUnmap, moved, areasUnmapped⟩ := counted.unmapAreas known sound allocator
  have bare := areasUnmapped.bare counted known backed
  obtain ⟨emptied, tables', ranExit, exits⟩ := moved.counted.exitAreas known bare sound
  have later := exits.cleared.counted
  have bareAfter := exits.cleared.bare known bare
  have ran : exitMmap allocator 0 dir areas memory = .ok emptied := by
    unfold exitMmap
    rw [if_pos rfl, ranUnmap]
    exact ranExit
  refine ⟨emptied, emptied.uprooted dir, tables'.cutOff dir [] dir, ran, later.putPgdir_eq known,
    later.uprooted known bareAfter, ?_, ?_, ?_, ?_, ?_⟩
  · exact exits.cleared.npage.trans moved.npage
  · intro root isRoot differ la user
    refine (areasUnmapped.kept root isRoot la user fun both => differ both.1).trans ?_
    have rest : Kept unmapped emptied root la := by
      refine ⟨exits.cleared.pte root isRoot la, fun page leads => exits.cleared.bytes page ?_⟩
      intro place isTable
      rw [(moved.counted.paged.dataPage isRoot (pdx1_lt_two user) leads).unowned] at isTable
      cases isTable
    exact rest.trans ⟨rfl, fun _ _ => rfl⟩
  · intro frame isWindow
    obtain ⟨unowned, _⟩ := counted.paged.window_apart isWindow
    rw [TableMap.cutOff_window (exits.cleared.unowned frame unowned), exits.cleared.window frame unowned]
  · intro frame isWindow
    obtain ⟨unowned, _⟩ := counted.paged.window_apart isWindow
    refine (exits.cleared.bytes frame fun place isTable => ?_).trans (moved.windowBytes frame isWindow)
    rw [unowned] at isTable
    cases isTable
  · intro page
    have isDir : ∀ page, tables.owner page = some (dir, []) ↔ page = dir := fun page => by
      rw [counted.paged.root page dir]
      exact and_iff_left known
    have split : page ∈ (emptied.uprooted dir).free ↔ page = dir ∨ page ∈ emptied.free :=
      Finset.mem_insert
    have cleared : page ∈ emptied.free ↔ page ∈ unmapped.free ∨ ∃ place,
        tables.owner page = some (dir, place) ∧ place ∈ freedAreas (Tables tables dir) areas := by
      constructor
      · intro isFree
        by_cases wasFree : page ∈ unmapped.free
        · exact Or.inl wasFree
        · obtain ⟨place, isTable⟩ := exits.cleared.freed page isFree wasFree
          exact Or.inr ⟨place, isTable, (exits.isFree page place isTable).mp isFree⟩
      · rintro (wasFree | ⟨place, isTable, isFreed⟩)
        · exact exits.cleared.free wasFree
        · exact (exits.isFree page place isTable).mpr isFreed
    rw [split, cleared, areasUnmapped.free counted known backed moved page]
    constructor
    · rintro (same | (wasFree | onlyHere) | ⟨place, isTable, isFreed⟩)
      · exact Or.inr (Or.inr ⟨[], (isDir page).mpr same, Or.inl rfl⟩)
      · exact Or.inl wasFree
      · exact Or.inr (Or.inl onlyHere)
      · exact Or.inr (Or.inr ⟨place, isTable, Or.inr isFreed⟩)
    · rintro (wasFree | onlyHere | ⟨place, isTable, rfl | isFreed⟩)
      · exact Or.inr (Or.inl (Or.inl wasFree))
      · exact Or.inr (Or.inl (Or.inr onlyHere))
      · exact Or.inl ((isDir page).mp isTable)
      · exact Or.inr (Or.inr ⟨place, isTable, isFreed⟩)

end Teardown

end UCore.Mm
