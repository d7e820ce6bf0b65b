import UCore.Lib.Transition
import UCore.Mm.CopyRange

/-!
Contract: runs of the paging functions of `kern/mm/pmm.c` and `kern/process/proc.c`.

Owns:
- the directories that `setup_pgdir` makes from the directory of the kernel;
- the calls on any number of directories, with the pages that `alloc_page` handed out;
- exact reference counts in every state that a run reaches, and what each further call does.

Does not own: giving up directories and their tables.
-/

set_option autoImplicit false

namespace UCore.Mm

open UCore.Lib

variable {memory after : Memory} {dirs : Finset Nat} {tables tables' : TableMap}
  {dir la page boot : Nat} {allocator : PageAllocator}

/-! ## Making a directory -/

/-- The directory of the kernel has no entry for a user address. -/
structure BootDirectory (memory : Memory) (tables : TableMap) (boot : Nat) : Prop where
  window : tables.window boot = some 0
  empty : ∀ index < 2, memory.entry boot index = 0
  top : ∀ index, 2 ≤ index → index < nPteEntry → ∀ below,
    pteTarget (memory.entry boot index) = some below → tables.window below = some 1

/-- Nobody writes the tables of the window. -/
theorem BootDirectory.kept (isBoot : BootDirectory memory tables boot)
    (window : ∀ frame, tables.window frame ≠ none → tables'.window frame = tables.window frame)
    (entry : after.entry boot = memory.entry boot) : BootDirectory after tables' boot := by
  constructor
  · rw [window boot (isBoot.window ▸ Option.some_ne_none 0), isBoot.window]
  · intro index low
    rw [entry, isBoot.empty index low]
  · intro index high inTable below leads
    rw [entry] at leads
    have isWindow := isBoot.top index high inTable below leads
    rw [window below (isWindow ▸ Option.some_ne_none 1), isWindow]

theorem BootDirectory.moved {fresh : Nat → Prop} (isBoot : BootDirectory memory tables boot)
    (moved : PagesMoved memory after dirs tables tables' fresh) : BootDirectory after tables' boot :=
  isBoot.kept (fun frame _ => congrFun moved.window frame)
    (Memory.entry_of_bytes (moved.windowBytes boot (isBoot.window ▸ Option.some_ne_none 0)))

/-- The page is the table of a new directory. -/
def TableMap.plant (tables : TableMap) (page : Nat) : TableMap :=
  { tables with owner := Function.update tables.owner page (some (page, [])) }

section Plant

variable (counted : Counted memory dirs tables) (isBoot : BootDirectory memory tables boot)
  (isFree : page ∈ memory.free)

/-- The memory in which a page that is handed out is a copy of the directory of the kernel. -/
def Memory.planted (memory : Memory) (page boot : Nat) : Memory :=
  (memory.handOut page).copyPage page boot

theorem Memory.planted_entry {frame : Nat} (apart : frame ≠ page) :
    (memory.planted page boot).entry frame = memory.entry frame := by
  unfold Memory.planted Memory.copyPage
  exact Memory.setBytes_entry apart

theorem Memory.planted_entry_self :
    (memory.planted page boot).entry page = memory.entry boot := by
  funext index
  show ((Function.update memory.bytes page (memory.bytes boot)) page).number (8 * index) 8 = _
  rw [Function.update_self]
  rfl

include counted isBoot isFree

theorem Paged.planted : Paged (memory.planted page boot) (insert page dirs) (tables.plant page) := by
  have paged := counted.paged
  obtain ⟨inRange, unowned, unwindowed⟩ := paged.spare page isFree
  have old : ∀ frame, frame ≠ page → (tables.plant page).owner frame = tables.owner frame :=
    fun frame apart => Function.update_of_ne apart _ _
  have new : (tables.plant page).owner page = some (page, []) := Function.update_self _ _ _
  have rooted : ∀ frame root place, tables.owner frame = some (root, place) → root ∈ dirs := by
    intro frame root place here
    obtain ⟨top, isTop⟩ := paged.owned.prefix (show tables.owner frame = some (root, [] ++ place) from here)
    exact ((paged.root top root).mp isTop).2
  have notDir : page ∉ dirs := by
    intro known
    rw [paged.owner_dir known] at unowned
    cases unowned
  constructor
  · apply paged.owned.plant unowned
    · exact fun frame place here => notDir (rooted frame page place here)
    · exact fun frame apart => Memory.planted_entry apart
    · intro index uses
      rw [Memory.planted_entry_self, isBoot.empty index (uses.2 rfl)]
  · intro frame root
    by_cases isPage : frame = page
    · subst isPage
      rw [new, Option.some.injEq, Prod.mk.injEq, Finset.mem_insert]
      constructor
      · rintro ⟨rfl, _⟩
        exact ⟨rfl, Or.inl rfl⟩
      · rintro ⟨rfl, _⟩
        exact ⟨rfl, rfl⟩
    · rw [old frame isPage, paged.root frame root, Finset.mem_insert]
      constructor
      · exact fun both => ⟨both.1, Or.inr both.2⟩
      · rintro ⟨rfl, here⟩
        exact ⟨rfl, here.resolve_left isPage⟩
  · exact paged.small
  · intro other stillFree
    obtain ⟨apart, wasFree⟩ := Finset.mem_erase.mp stillFree
    rw [old other apart]
    exact paged.spare other wasFree
  · intro frame place here
    by_cases isPage : frame = page
    · subst isPage
      exact ⟨inRange, unwindowed⟩
    · rw [old frame isPage] at here
      exact paged.inside frame place here
  · intro frame root place index target here lowest inTable leads
    by_cases isPage : frame = page
    · subst isPage
      rw [new] at here
      rw [← (Prod.mk.inj (Option.some.inj here)).2] at lowest
      cases lowest
    · rw [old frame isPage] at here
      rw [Memory.planted_entry isPage] at leads
      have data := paged.mapped _ _ _ _ _ here lowest inTable leads
      have apart : target ≠ page := fun same => data.used (same ▸ isFree)
      exact ⟨data.inRange, (old target apart).trans data.unowned, data.unwindowed,
        fun stillFree => data.used (Finset.mem_of_mem_erase stillFree)⟩
  · intro root known index high inTable below leads
    by_cases isPage : root = page
    · subst isPage
      rw [Memory.planted_entry_self] at leads
      exact isBoot.top index high inTable below leads
    · rw [Memory.planted_entry isPage] at leads
      exact paged.windowTop root ((Finset.mem_insert.mp known).resolve_left isPage) index high inTable
        below leads
  · intro frame isWindow index inTable below leads
    have apart : frame ≠ page := by
      rintro rfl
      exact Option.some_ne_none _ (isWindow.symm.trans unwindowed)
    rw [Memory.planted_entry apart] at leads
    exact paged.windowNext frame isWindow index inTable below leads

omit isBoot in
theorem Counted.planted_pteAt (root : Nat) (known : root ∈ dirs) (la : Nat) :
    (memory.planted page boot).pteAt root la = memory.pteAt root la := by
  have paged := counted.paged
  obtain ⟨_, unowned, unwindowed⟩ := paged.spare page isFree
  have rootHere := paged.owner_dir known
  have owned_apart : ∀ frame place, tables.owner frame = some place → frame ≠ page := by
    rintro frame place here rfl
    rw [unowned] at here
    cases here
  by_cases user : pdx1 la < 2
  · apply paged.owned.lookup_congr rootHere rfl (usesAll_pagePath user)
    intro frame before index after here _ _
    rw [Memory.planted_entry (owned_apart frame _ here)]
  · apply paged.pteAt_window known (not_lt.mp user)
    · rw [Memory.planted_entry (owned_apart root _ rootHere)]
    · intro frame isWindow
      apply Memory.planted_entry
      rintro rfl
      exact isWindow unwindowed

omit counted isFree in
/-- The new directory maps no user address. -/
theorem BootDirectory.planted_pteAt (user : la < userTop) :
    (memory.planted page boot).pteAt page la = 0 := by
  rw [Memory.pteAt_walk, Memory.planted_entry_self, isBoot.empty _ (pdx1_lt_two user), pteTarget_zero]

theorem Counted.planted_mappings (other : Nat) :
    (memory.planted page boot).mappings (insert page dirs) other = memory.mappings dirs other := by
  have fewer : (memory.planted page boot).mappings (insert page dirs) other =
      (memory.planted page boot).mappings dirs other := by
    apply tally_extend (Finset.product_subset_product_left (Finset.subset_insert _ _))
    rintro ⟨root, number⟩ within outside
    rw [Finset.mem_product, Finset.mem_range] at within outside
    have isNew : root = page :=
      (Finset.mem_insert.mp within.1).resolve_right fun known => outside ⟨known, within.2⟩
    have inUser : number * pgSize < userTop := by
      have small : number < userTop / pgSize := within.2
      unfold userTop pgSize at small
      unfold userTop pgSize
      omega
    simp only [isNew, isBoot.planted_pteAt inUser, pteTarget_zero]
    simp
  rw [fewer]
  exact Memory.mappings_congr fun root known la _ =>
    counted.planted_pteAt isFree root known la

theorem Counted.planted_maps (other : Nat) :
    (memory.planted page boot).Maps (insert page dirs) other ↔ memory.Maps dirs other := by
  rw [Memory.maps_iff, Memory.maps_iff, counted.planted_mappings isBoot isFree]

theorem Counted.planted :
    Counted (memory.planted page boot) (insert page dirs) (tables.plant page) where
  paged := Paged.planted counted isBoot isFree
  exact other data := by
    have apart : other ≠ page := by
      rintro rfl
      have isRoot : (tables.plant other).owner other = some (other, []) := Function.update_self _ _ _
      rw [data.unowned] at isRoot
      cases isRoot
    have unowned : tables.owner other = none := by
      rw [← data.unowned]
      exact (Function.update_of_ne apart _ _).symm
    have used : other ∉ memory.free :=
      fun wasFree => data.used (Finset.mem_erase.mpr ⟨apart, wasFree⟩)
    rw [counted.planted_mappings isBoot isFree]
    exact counted.exact other ⟨data.inRange, unowned, data.unwindowed, used⟩
  idle other stillFree := counted.idle other (Finset.mem_of_mem_erase stillFree)

theorem BootDirectory.planted : BootDirectory (memory.planted page boot) (tables.plant page) boot := by
  have apart : boot ≠ page := by
    rintro rfl
    have spare := (counted.paged.spare boot isFree).2.2
    rw [isBoot.window] at spare
    cases spare
  exact isBoot.kept (fun _ _ => rfl) (Memory.planted_entry apart)

omit isBoot isFree in
/-- `setup_pgdir` plants a directory, unless there is no page. -/
theorem Counted.setupPgdir (allocator : PageAllocator) :
    memory.setupPgdir allocator boot = .ok (none, { memory with allocs := memory.allocs + 1 }) ∨
      ∃ page ∈ memory.free,
        memory.setupPgdir allocator boot = .ok (some page, memory.planted page boot) := by
  unfold Memory.setupPgdir
  cases picked : allocator.pick memory with
  | none =>
      rw [Memory.allocPage_none picked]
      exact Or.inl rfl
  | some page =>
      have isFree := allocator.pick_free memory page picked
      have inside : (memory.handOut page).kaddr page = .ok page :=
        if_pos (counted.paged.spare page isFree).1
      rw [Memory.allocPage_pick picked]
      simp only [inside, bind, Except.bind]
      exact Or.inr ⟨page, isFree, rfl⟩

end Plant

/-! ## Calls -/

/-- Physical memory with the directories that were made. `held` are the pages that `alloc_page`
handed out and that were not mapped yet. -/
structure PageState where
  memory : Memory
  dirs : Finset Nat
  held : Finset Nat

inductive PageCall
  | setupPgdir
  | allocPage
  | pageInsert (pgdir page la perm : Nat)
  | pageRemove (pgdir la : Nat)
  | pgdirAllocPage (pgdir la perm : Nat)
  | unmapRange (pgdir start stop : Nat)
  | copyRange (target source start stop : Nat)

/-- What the callers see to: directories that were made, user addresses, flags below the page
number, and a page that is mapped or was handed out. -/
def PageCall.Admitted (state : PageState) : PageCall → Prop
  | .setupPgdir => True
  | .allocPage => True
  | .pageInsert pgdir page la perm => pgdir ∈ state.dirs ∧ la < userTop ∧ perm < 2 ^ 10 ∧
      (page ∈ state.held ∨ state.memory.Maps state.dirs page)
  | .pageRemove pgdir la => pgdir ∈ state.dirs ∧ la < userTop
  | .pgdirAllocPage pgdir la perm => pgdir ∈ state.dirs ∧ la < userTop ∧ perm < 2 ^ 10
  | .unmapRange pgdir _ _ => pgdir ∈ state.dirs
  | .copyRange target source _ _ => target ∈ state.dirs ∧ source ∈ state.dirs

def PageCall.run (boot : Nat) (allocator : PageAllocator) (state : PageState) :
    PageCall → Except Stop PageState
  | .setupPgdir => do
      match ← state.memory.setupPgdir allocator boot with
      | (none, memory) => pure { state with memory := memory }
      | (some pgdir, memory) =>
          pure { state with memory := memory, dirs := insert pgdir state.dirs }
  | .allocPage =>
      match state.memory.allocPage allocator with
      | (none, memory) => .ok { state with memory := memory }
      | (some page, memory) => .ok { state with memory := memory, held := insert page state.held }
  | .pageInsert pgdir page la perm => do
      let (ret, memory) ← state.memory.pageInsert allocator pgdir page la perm
      pure { state with
        memory := memory
        held := if ret = 0 then state.held.erase page else state.held }
  | .pageRemove pgdir la => do
      let memory ← state.memory.pageRemove allocator pgdir la
      pure { state with memory := memory }
  | .pgdirAllocPage pgdir la perm => do
      let (_, memory) ← state.memory.pgdirAllocPage allocator pgdir la perm
      pure { state with memory := memory }
  | .unmapRange pgdir start stop => do
      let memory ← state.memory.unmapRange allocator pgdir start stop
      pure { state with memory := memory }
  | .copyRange target source start stop => do
      let (_, memory) ← state.memory.copyRange allocator target source start stop
      pure { state with memory := memory }

/-- The allocator may answer each call as it likes. -/
def pageMachine (boot : Nat) : Machine PageState (PageAllocator × PageCall) Stop where
  Admits state label := label.2.Admitted state
  answer state label := label.2.run boot label.1 state

/-! ## The invariant -/

/-- Counts are exact, and the pages that were handed out can be mapped. -/
structure Sound (boot : Nat) (state : PageState) (tables : TableMap) : Prop where
  counted : Counted state.memory state.dirs tables
  isBoot : BootDirectory state.memory tables boot
  held : ∀ page ∈ state.held, DataPage state.memory tables page ∧
    ¬ state.memory.Maps state.dirs page

/-- A memory before any directory was made: no page has a reference, but for the tables of the kernel
window, which `get_pte` made. -/
structure Fresh (boot : Nat) (state : PageState) (window : Nat → Option Nat) : Prop where
  dirs : state.dirs = ∅
  held : state.held = ∅
  small : state.memory.npage ≤ 2 ^ 52
  idle : ∀ page, window page = none → state.memory.ref page = 0
  spare : ∀ page ∈ state.memory.free, page < state.memory.npage ∧ window page = none
  isBoot : BootDirectory state.memory ⟨fun _ => none, window⟩ boot
  windowNext : ∀ frame, window frame = some 1 → ∀ index < nPteEntry, ∀ below,
    pteTarget (state.memory.entry frame index) = some below → window below = some 2

theorem Fresh.sound {state : PageState} {window : Nat → Option Nat} (fresh : Fresh boot state window) :
    Sound boot state ⟨fun _ => none, window⟩ := by
  have none : ∀ page, ¬ state.memory.Maps state.dirs page := by
    rintro page ⟨dir, known, _⟩
    rw [fresh.dirs] at known
    cases known
  refine ⟨⟨⟨⟨?_, ?_, ?_, ?_⟩, ?_, fresh.small, ?_, ?_, ?_, ?_, fresh.windowNext⟩, ?_, ?_⟩,
    fresh.isBoot, ?_⟩
  · intro _ _ _ impossible
    cases impossible
  · intro _ _ _ _ _ impossible
    cases impossible
  · intro _ _ _ _ impossible
    cases impossible
  · intro _ _ _ _ impossible
    cases impossible
  · intro frame dir
    rw [fresh.dirs]
    exact iff_of_false (fun impossible => by cases impossible) fun here => by cases here.2
  · exact fun page isFree => ⟨(fresh.spare page isFree).1, rfl, (fresh.spare page isFree).2⟩
  · intro _ _ impossible
    cases impossible
  · intro _ _ _ _ _ impossible
    cases impossible
  · intro dir known
    rw [fresh.dirs] at known
    cases known
  · exact fun page data => (fresh.idle page data.unwindowed).trans
      (Memory.mappings_eq_zero (none page)).symm
  · exact fun page isFree => fresh.idle page (fresh.spare page isFree).2
  · intro page isHeld
    rw [fresh.held] at isHeld
    cases isHeld

/-! ## What a call does -/

/-- The page is a table for user addresses. -/
def Memory.Table (memory : Memory) (dirs : Finset Nat) (page : Nat) : Prop :=
  ∃ dir ∈ dirs, ∃ la < userTop, pteTarget (memory.entry dir (pdx1 la)) = some page ∨
    ∃ pd0, pteTarget (memory.entry dir (pdx1 la)) = some pd0 ∧
      pteTarget (memory.entry pd0 (pdx0 la)) = some page

theorem Paged.isTable (paged : Paged memory dirs tables) (isOwned : tables.owner page ≠ none)
    (notDir : page ∉ dirs) : memory.Table dirs page := by
  obtain ⟨⟨root, place⟩, here⟩ := Option.ne_none_iff_exists'.mp isOwned
  cases place using List.reverseRecOn with
  | nil =>
      obtain ⟨rfl, known⟩ := (paged.root page root).mp here
      exact absurd known notDir
  | append_singleton above index _ =>
      obtain ⟨inner, uses, up, isUp, leads⟩ := paged.owned.above _ _ _ _ here
      cases above using List.reverseRecOn with
      | nil =>
          obtain ⟨rfl, known⟩ := (paged.root up root).mp isUp
          obtain ⟨user, path⟩ :=
            pathAddress_spec (uses.2 rfl) (show 0 < nPteEntry by decide) (show 0 < nPteEntry by decide)
          have first := (List.cons.inj path).1
          exact ⟨up, known, _, user, Or.inl (by rw [first]; exact leads)⟩
      | append_singleton top first _ =>
          have isTop : top = [] := by
            rw [List.length_append] at inner
            have size : pageRadix.depth = 3 := rfl
            exact List.length_eq_zero_iff.mp (by simp only [List.length_singleton] at inner; omega)
          subst isTop
          obtain ⟨_, usesFirst, root', isRoot, leadsFirst⟩ := paged.owned.above _ _ _ _ isUp
          obtain ⟨rfl, known⟩ := (paged.root root' root).mp isRoot
          obtain ⟨user, path⟩ :=
            pathAddress_spec (usesFirst.2 rfl) uses.1 (show 0 < nPteEntry by decide)
          have isFirst := (List.cons.inj path).1
          have isSecond := (List.cons.inj (List.cons.inj path).2).1
          refine ⟨root', known, _, user, Or.inr ⟨up, ?_, ?_⟩⟩
          · rw [isFirst]
            exact leadsFirst
          · rw [isSecond]
            exact leads

/-- The directory and the address of a call that changes one entry. -/
def PageCall.entry : PageCall → Option (Nat × Nat)
  | .pageInsert pgdir _ la _ => some (pgdir, la)
  | .pageRemove pgdir la => some (pgdir, la)
  | .pgdirAllocPage pgdir la _ => some (pgdir, la)
  | _ => none

/-- A page becomes free when its last mapping goes, and only then; a copy may have taken it again
for a table. A call on one entry leaves the translation of all other addresses. -/
structure CallDone (state : PageState) (call : PageCall) (after : PageState) : Prop where
  freed : ∀ page, page ∉ state.memory.free → page ∈ after.memory.free →
    state.memory.Maps state.dirs page ∧ ¬ after.memory.Maps after.dirs page
  gone : ∀ page, state.memory.Maps state.dirs page → ¬ after.memory.Maps after.dirs page →
    page ∈ after.memory.free ∨ after.memory.Table after.dirs page
  others : ∀ pgdir la, call.entry = some (pgdir, la) →
    LeavesOthers state.memory after.memory state.dirs pgdir la

/-- What the invariant says of a state, and what the call has done. -/
def Settles (boot : Nat) (state : PageState) (call : PageCall) (after : PageState) : Prop :=
  (∃ tables', Sound boot after tables') ∧ CallDone state call after

section Step

variable {state : PageState} {call : PageCall} (sound : Sound boot state tables)

include sound

/-- A call that changes the memory only. -/
theorem Sound.moved {fresh : Nat → Prop} {held : Finset Nat}
    (moved : PagesMoved state.memory after state.dirs tables tables' fresh)
    (fewer : ∀ page ∈ held, page ∈ state.held ∧ ¬ fresh page)
    (others : ∀ pgdir la, call.entry = some (pgdir, la) →
      LeavesOthers state.memory after state.dirs pgdir la) :
    Settles boot state call { state with memory := after, held := held } := by
  refine ⟨⟨tables', moved.counted, sound.isBoot.moved moved, ?_⟩, ?_, ?_, others⟩
  · intro page isHeld
    obtain ⟨wasHeld, notFresh⟩ := fewer page isHeld
    obtain ⟨data, unmapped⟩ := sound.held page wasHeld
    exact moved.idle page data unmapped notFresh
  · intro page used isFree
    exact ⟨moved.freed page used isFree, fun maps => moved.counted.maps_used maps isFree⟩
  · intro page maps unmapped
    rcases moved.placed page (Or.inr maps) with isFree | isOwned | still
    · exact Or.inl isFree
    · refine Or.inr (moved.counted.paged.isTable isOwned fun known => ?_)
      have data := sound.counted.paged.maps_data maps
      have isRoot := sound.counted.paged.owner_dir known
      rw [data.unowned] at isRoot
      cases isRoot
    · exact absurd still unmapped

/-- A call that maps no page that was handed out. -/
theorem Sound.movedAll
    (moved : PagesMoved state.memory after state.dirs tables tables' fun _ => False)
    (others : ∀ pgdir la, call.entry = some (pgdir, la) →
      LeavesOthers state.memory after state.dirs pgdir la) :
    Settles boot state call { state with memory := after } :=
  sound.moved moved (fun _ isHeld => ⟨isHeld, not_false⟩) others

theorem Sound.allocPage (allocator : PageAllocator) : ∃ after,
    PageCall.allocPage.run boot allocator state = .ok after ∧
      Settles boot state .allocPage after := by
  unfold PageCall.run
  cases picked : allocator.pick state.memory with
  | none =>
      simp only [Memory.allocPage_none picked]
      exact ⟨_, rfl, sound.movedAll (sound.counted.asked _) fun _ _ impossible => by cases impossible⟩
  | some page =>
      have isFree := allocator.pick_free _ _ picked
      have handed : Counted (state.memory.handOut page) state.dirs tables :=
        sound.counted.handOut isFree
      simp only [Memory.allocPage_pick picked]
      refine ⟨_, rfl, ⟨tables, handed, ⟨sound.isBoot.window, sound.isBoot.empty, sound.isBoot.top⟩, ?_⟩,
        ?_, ?_, ?_⟩
      · intro other isHeld
        rcases Finset.mem_insert.mp isHeld with rfl | wasHeld
        · have nowhere : ¬ state.memory.Maps state.dirs other := sound.counted.free_unmapped isFree
          exact ⟨sound.counted.handOut_data isFree, nowhere⟩
        · obtain ⟨data, unmapped⟩ := sound.held other wasHeld
          exact ⟨⟨data.inRange, data.unowned, data.unwindowed,
            fun stillFree => data.used (Finset.mem_of_mem_erase stillFree)⟩, unmapped⟩
      · exact fun other used nowFree => absurd (Finset.mem_of_mem_erase nowFree) used
      · exact fun other maps unmapped => absurd maps unmapped
      · exact fun _ _ impossible => by cases impossible

theorem Sound.setupPgdir (allocator : PageAllocator) : ∃ after,
    PageCall.setupPgdir.run boot allocator state = .ok after ∧
      Settles boot state .setupPgdir after := by
  unfold PageCall.run
  rcases sound.counted.setupPgdir allocator with none | ⟨page, isFree, made⟩
  · rw [none]
    exact ⟨_, rfl, sound.movedAll (sound.counted.asked _) fun _ _ impossible => by cases impossible⟩
  · have planted : Counted (state.memory.planted page boot) (insert page state.dirs)
        (tables.plant page) := sound.counted.planted sound.isBoot isFree
    have maps : ∀ other, (state.memory.planted page boot).Maps (insert page state.dirs) other ↔
        state.memory.Maps state.dirs other := sound.counted.planted_maps sound.isBoot isFree
    rw [made]
    refine ⟨⟨state.memory.planted page boot, insert page state.dirs, state.held⟩, rfl,
      ⟨tables.plant page, planted, .planted sound.counted sound.isBoot isFree, ?_⟩, ?_, ?_, ?_⟩
    · intro other isHeld
      obtain ⟨data, unmapped⟩ := sound.held other isHeld
      have apart : other ≠ page := by
        rintro rfl
        exact data.used isFree
      refine ⟨⟨data.inRange, ?_, data.unwindowed,
        fun stillFree => data.used (Finset.mem_of_mem_erase stillFree)⟩, ?_⟩
      · exact (Function.update_of_ne apart _ _).trans data.unowned
      · exact fun isMapped => unmapped ((maps other).mp isMapped)
    · exact fun other used nowFree => absurd (Finset.mem_of_mem_erase nowFree) used
    · exact fun other isMapped unmapped => absurd ((maps other).mpr isMapped) unmapped
    · exact fun _ _ impossible => by cases impossible

variable {pgdir la perm : Nat} (known : pgdir ∈ state.dirs)

include known

theorem Sound.pageInsert (user : la < userTop) (flags : perm < 2 ^ 10)
    (usable : page ∈ state.held ∨ state.memory.Maps state.dirs page) (allocator : PageAllocator) :
    ∃ after, (PageCall.pageInsert pgdir page la perm).run boot allocator state = .ok after ∧
      Settles boot state (.pageInsert pgdir page la perm) after := by
  have data : DataPage state.memory tables page :=
    usable.elim (fun isHeld => (sound.held page isHeld).1) sound.counted.paged.maps_data
  obtain ⟨ret, after, tables', ran, outcome⟩ :=
    sound.counted.pageInsert known user data flags allocator
  unfold PageCall.run
  simp only [ran, bind, Except.bind]
  rcases outcome with ⟨rfl, later, grown⟩ | ⟨rfl, remapped⟩
  · refine ⟨_, rfl, ?_⟩
    rw [if_neg (by decide)]
    refine sound.movedAll (grown.moved sound.counted later.paged) fun other address isEntry => ?_
    obtain ⟨rfl, rfl⟩ := Prod.mk.inj (Option.some.inj isEntry)
    exact grown.leavesOthers sound.counted.paged later.paged
  · refine ⟨_, rfl, ?_⟩
    rw [if_pos rfl]
    apply sound.moved (remapped.moved sound.counted known user)
    · intro other isHeld
      obtain ⟨apart, wasHeld⟩ := Finset.mem_erase.mp isHeld
      rw [pteTarget_mapped data flags sound.counted.paged]
      exact ⟨wasHeld, fun same => apart (Option.some.inj same).symm⟩
    · intro other address isEntry
      obtain ⟨rfl, rfl⟩ := Prod.mk.inj (Option.some.inj isEntry)
      exact remapped.leavesOthers sound.counted.paged

theorem Sound.pageRemove (user : la < userTop) (allocator : PageAllocator) :
    ∃ after, (PageCall.pageRemove pgdir la).run boot allocator state = .ok after ∧
      Settles boot state (.pageRemove pgdir la) after := by
  obtain ⟨after, ran, remapped⟩ := sound.counted.pageRemove known user allocator
  unfold PageCall.run
  simp only [ran, bind, Except.bind]
  refine ⟨_, rfl, ?_⟩
  apply sound.movedAll
  · apply (remapped.moved sound.counted known user).weaken
    intro other leads
    rw [pteTarget_zero] at leads
    cases leads
  · intro other address isEntry
    obtain ⟨rfl, rfl⟩ := Prod.mk.inj (Option.some.inj isEntry)
    exact remapped.leavesOthers sound.counted.paged

theorem Sound.pgdirAllocPage (user : la < userTop) (flags : perm < 2 ^ 10)
    (allocator : PageAllocator) :
    ∃ after, (PageCall.pgdirAllocPage pgdir la perm).run boot allocator state = .ok after ∧
      Settles boot state (.pgdirAllocPage pgdir la perm) after := by
  obtain ⟨result, after, tables', ran, moved, leaves, _⟩ :=
    sound.counted.pgdirAllocPage known user flags allocator
  unfold PageCall.run
  simp only [ran, bind, Except.bind]
  refine ⟨_, rfl, sound.movedAll moved fun other address isEntry => ?_⟩
  obtain ⟨rfl, rfl⟩ := Prod.mk.inj (Option.some.inj isEntry)
  exact leaves

theorem Sound.unmapRange {start stop : Nat}
    (checks : (start % pgSize = 0 ∧ stop % pgSize = 0) ∧ UserAccess start stop)
    (allocator : PageAllocator) :
    ∃ after, (PageCall.unmapRange pgdir start stop).run boot allocator state = .ok after ∧
      Settles boot state (.unmapRange pgdir start stop) after := by
  obtain ⟨after, ran, moved, _⟩ := sound.counted.unmapRange known checks allocator
  unfold PageCall.run
  simp only [ran, bind, Except.bind]
  exact ⟨_, rfl, sound.movedAll moved fun _ _ impossible => by cases impossible⟩

theorem Sound.copyRange {source start stop : Nat} {after : PageState}
    (knownSource : source ∈ state.dirs)
    (ran : (PageCall.copyRange pgdir source start stop).run boot allocator state = .ok after) :
    Settles boot state (.copyRange pgdir source start stop) after := by
  unfold PageCall.run at ran
  obtain ⟨⟨ret, memory⟩, copied, ran⟩ := bind_eq_ok ran
  obtain rfl := Except.ok.inj ran
  obtain ⟨tables', _, moved, _⟩ := sound.counted.copyRange known knownSource copied
  exact sound.movedAll moved fun _ _ impossible => by cases impossible

end Step

/-- A call that no assertion of a range stops, and that copies nothing. -/
def PageCall.Plain : PageCall → Prop
  | .unmapRange _ start stop =>
      (start % pgSize = 0 ∧ stop % pgSize = 0) ∧ UserAccess start stop
  | .copyRange _ _ _ _ => False
  | _ => True

theorem Sound.returns {state : PageState} {call : PageCall} (sound : Sound boot state tables)
    (admitted : call.Admitted state) (plain : call.Plain) (allocator : PageAllocator) :
    ∃ after, call.run boot allocator state = .ok after ∧ Settles boot state call after := by
  cases call with
  | setupPgdir => exact sound.setupPgdir allocator
  | allocPage => exact sound.allocPage allocator
  | pageInsert pgdir page la perm =>
      obtain ⟨known, user, flags, usable⟩ := admitted
      exact sound.pageInsert known user flags usable allocator
  | pageRemove pgdir la => exact sound.pageRemove admitted.1 admitted.2 allocator
  | pgdirAllocPage pgdir la perm =>
      exact sound.pgdirAllocPage admitted.1 admitted.2.1 admitted.2.2 allocator
  | unmapRange pgdir start stop => exact sound.unmapRange admitted plain allocator
  | copyRange target source start stop => exact plain.elim

theorem Sound.settles {state after : PageState} {call : PageCall} (sound : Sound boot state tables)
    (admitted : call.Admitted state) (ran : call.run boot allocator state = .ok after) :
    Settles boot state call after := by
  have settled : ∀ plain : call.Plain, Settles boot state call after := by
    intro plain
    obtain ⟨after', ran', settles⟩ := sound.returns admitted plain allocator
    rw [ran] at ran'
    obtain rfl := Except.ok.inj ran'
    exact settles
  cases call with
  | copyRange target source start stop => exact sound.copyRange admitted.1 admitted.2 ran
  | unmapRange pgdir start stop =>
      apply settled
      obtain ⟨memory, unmapped, _⟩ := bind_eq_ok (show (state.memory.unmapRange allocator pgdir start
        stop).bind (fun memory => pure { state with memory := memory }) = .ok after from ran)
      by_contra unchecked
      unfold Memory.unmapRange at unmapped
      rw [if_neg (show ¬ ((start % pgSize = 0 ∧ stop % pgSize = 0) ∧ UserAccess start stop) from
        unchecked)] at unmapped
      cases unmapped
  | _ => exact settled trivial

/-! ## Runs -/

/-- The count of every page that is mapped is the number of entries that lead to it, and no such
page is free. -/
def CountsExact (state : PageState) : Prop :=
  ∀ page, state.memory.Maps state.dirs page →
    state.memory.ref page = state.memory.mappings state.dirs page ∧ page ∉ state.memory.free

theorem Sound.countsExact {state : PageState} (sound : Sound boot state tables) :
    CountsExact state := by
  intro page maps
  have data := sound.counted.paged.maps_data maps
  exact ⟨sound.counted.exact page data, data.used⟩

theorem Fresh.reaches {first state : PageState} {window : Nat → Option Nat}
    {calls : List (PageAllocator × PageCall)} (fresh : Fresh boot first window)
    (run : Run (pageMachine boot).Step first calls state) : ∃ tables, Sound boot state tables := by
  apply run.invariant (fun state => ∃ tables, Sound boot state tables)
  · intro before label after sound step
    obtain ⟨tables, sound⟩ := sound
    exact (sound.settles step.1 step.2).1
  · exact ⟨_, fresh.sound⟩

/-- In every state that calls reach, the counts are exact. A further call returns, unless it is a
copy or fails the checks of a range, and frees the pages whose last mapping it takes and no
others. -/
theorem page_counts_exact {first state : PageState} {window : Nat → Option Nat}
    {calls : List (PageAllocator × PageCall)} (fresh : Fresh boot first window)
    (run : Run (pageMachine boot).Step first calls state) :
    CountsExact state ∧ ∀ allocator (call : PageCall), call.Admitted state →
      (call.Plain → ∃ after, call.run boot allocator state = .ok after) ∧
      ∀ after, call.run boot allocator state = .ok after →
        CountsExact after ∧ CallDone state call after := by
  obtain ⟨tables, sound⟩ := fresh.reaches run
  refine ⟨sound.countsExact, fun allocator call admitted => ⟨fun plain => ?_, fun after ran => ?_⟩⟩
  · obtain ⟨after, ran, _⟩ := sound.returns admitted plain allocator
    exact ⟨after, ran⟩
  · obtain ⟨⟨tables', later⟩, done⟩ := sound.settles admitted ran
    exact ⟨later.countsExact, done⟩

/-! ## Sixteen pages -/

/-- Answers the lowest free page. -/
def lowestFree : PageAllocator where
  pick memory := (List.range memory.npage).find? fun page => decide (page ∈ memory.free)
  pick_free memory page picked := by simpa using List.find?_some picked

/-- Page 0 is the directory of the kernel, and pages 15 and 14 are the tables behind its last entry. -/
def kernelMemory : Memory :=
  (Memory.setEntry ⟨16, fun _ => Bytes.zeros, fun page => if page = 14 ∨ page = 15 then 1 else 0,
    (Finset.range 14).erase 0, 0⟩ 0 511 (pteCreate 15 (pteU ||| pteV))).setEntry 15 0
      (pteCreate 14 (pteU ||| pteV))

def sixteenPages : PageState := ⟨kernelMemory, ∅, ∅⟩

def kernelWindow (page : Nat) : Option Nat :=
  if page = 0 then some 0 else if page = 15 then some 1 else if page = 14 then some 2 else none

theorem kernelMemory_directory : ∀ index < nPteEntry,
    (index < 2 → kernelMemory.entry 0 index = 0) ∧
      (pteTarget (kernelMemory.entry 0 index)).all (fun below => kernelWindow below = some 1) = true := by
  decide +kernel

theorem kernelMemory_table : ∀ index < nPteEntry,
    (pteTarget (kernelMemory.entry 15 index)).all (fun below => kernelWindow below = some 2) = true := by
  decide +kernel

theorem sixteenPages_fresh : Fresh 0 sixteenPages kernelWindow where
  dirs := rfl
  held := rfl
  small := by decide
  idle page outside := by
    apply if_neg
    rintro (rfl | rfl) <;> cases outside
  spare := by decide
  isBoot := by
    refine ⟨rfl, fun index low => ?_, fun index _ inTable below leads => ?_⟩
    · exact (kernelMemory_directory index (Nat.lt_trans low (by decide))).1 low
    · have isTable := (kernelMemory_directory index inTable).2
      rw [show pteTarget (kernelMemory.entry 0 index) = some below from leads] at isTable
      exact of_decide_eq_true isTable
  windowNext frame isWindow index inTable below leads := by
    obtain rfl : frame = 15 := by
      unfold kernelWindow at isWindow
      split_ifs at isWindow with isDirectory isTable
      · cases isWindow
      · exact isTable
      · cases isWindow
    have isTable := kernelMemory_table index inTable
    rw [show pteTarget (kernelMemory.entry 15 index) = some below from leads] at isTable
    exact of_decide_eq_true isTable

/-- A page is mapped in one directory, copied to another, and unmapped in the first. -/
def mapAndCopy : List (PageAllocator × PageCall) :=
  [.setupPgdir, .setupPgdir, .allocPage, .pageInsert 1 3 0x800000 0x17,
    .copyRange 2 1 0x800000 0x801000, .pageRemove 1 0x800000].map (lowestFree, ·)

/-- The part of `Admitted` that can be computed. -/
def PageCall.Ready (state : PageState) : PageCall → Bool
  | .pageInsert pgdir page la perm =>
      decide (pgdir ∈ state.dirs ∧ la < userTop ∧ perm < 2 ^ 10 ∧ page ∈ state.held)
  | .pageRemove pgdir la => decide (pgdir ∈ state.dirs ∧ la < userTop)
  | .pgdirAllocPage pgdir la perm => decide (pgdir ∈ state.dirs ∧ la < userTop ∧ perm < 2 ^ 10)
  | .unmapRange pgdir _ _ => decide (pgdir ∈ state.dirs)
  | .copyRange target source _ _ => decide (target ∈ state.dirs ∧ source ∈ state.dirs)
  | _ => true

theorem PageCall.Ready.admitted {state : PageState} {call : PageCall}
    (ready : call.Ready state = true) : call.Admitted state := by
  cases call with
  | pageInsert pgdir page la perm =>
      obtain ⟨known, user, flags, isHeld⟩ := of_decide_eq_true ready
      exact ⟨known, user, flags, Or.inl isHeld⟩
  | setupPgdir => trivial
  | allocPage => trivial
  | _ => simpa [PageCall.Ready, PageCall.Admitted] using ready

theorem page_counts_exact_small : ∃ state, Run (pageMachine 0).Step sixteenPages mapAndCopy state ∧
    3 ∈ state.memory.free ∧ state.memory.ref 8 = 1 ∧ CountsExact state := by
  have done : ((follow (fun state label => if label.2.Ready state = true then
      (label.2.run 0 label.1 state).toOption else none) sixteenPages mapAndCopy).any fun state =>
        decide (3 ∈ state.memory.free ∧ state.memory.ref 8 = 1)) = true := by decide +kernel
  obtain ⟨state, followed, checks⟩ := (Option.any_eq_true _ _).mp done
  obtain ⟨isFree, one⟩ := of_decide_eq_true checks
  have run : Run (pageMachine 0).Step sixteenPages mapAndCopy state := by
    apply follow_run _ followed
    intro before label after moved
    split_ifs at moved with ready
    exact ⟨PageCall.Ready.admitted ready, ok_of_toOption moved⟩
  exact ⟨state, run, isFree, one, (page_counts_exact sixteenPages_fresh run).1⟩

end UCore.Mm
