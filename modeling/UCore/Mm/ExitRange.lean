import UCore.Mm.CopyRange

/-!
Contract: giving up the tables of a directory, `exit_range` of `kern/mm/pmm.c`.

Owns:
- cutting a table off a directory that maps no user address;
- which tables `exit_range` frees, and which it loses: it frees a table of the second level where all
  entries that it looks at are valid, with the tables below that it did not look at.

Does not own: the pages that are mapped.
-/

set_option autoImplicit false

namespace UCore.Mm

open UCore.Lib

variable {memory middle after : Memory} {dirs : Finset Nat} {tables tables' : TableMap}
  {dir la page frame index down : Nat} {place : List Nat}

/-! ## Cutting off one table -/

/-- The directory maps no user address. -/
abbrev Bare (memory : Memory) (dir : Nat) : Prop := Vacant memory dir fun _ => True

/-- The tables at a place and below it are given up. Those that are not freed are lost, and stand
with the tables of the kernel's window, which nobody writes. -/
def TableMap.cutOff (tables : TableMap) (dir : Nat) (place : List Nat) (freed : Nat) : TableMap where
  owner := Radix.prune tables.owner dir place
  window page :=
    if page ≠ freed ∧ Radix.prune tables.owner dir place page ≠ tables.owner page then some 3
    else tables.window page

/-- The memory in which a table is freed and its entry cleared. -/
def Memory.cutOff (memory : Memory) (table index freed : Nat) : Memory :=
  ({ memory with
    free := insert freed memory.free
    ref := Function.update memory.ref freed 0 } : Memory).setEntry table index 0

theorem Memory.cutOff_entry :
    (memory.cutOff frame index down).entry = Radix.write memory.entry frame index 0 :=
  Memory.setEntry_entry (by decide)

theorem prune_none (unowned : tables.owner page = none) :
    Radix.prune tables.owner dir place page = none := by
  unfold Radix.prune
  rw [unowned]
  rfl

theorem TableMap.cutOff_window_eq : (tables.cutOff dir place down).window page =
    if page ≠ down ∧ Radix.prune tables.owner dir place page ≠ tables.owner page then some 3
    else tables.window page := rfl

theorem TableMap.cutOff_window (unowned : tables.owner page = none) :
    (tables.cutOff dir place down).window page = tables.window page := by
  rw [cutOff_window_eq, if_neg]
  exact fun both => both.2 ((prune_none unowned).trans unowned.symm)

/-- Every entry of the user half is that of a user address. -/
theorem Bare.pteAt (bare : Bare memory dir) (low : pdx1 la < 2) : memory.pteAt dir la = 0 := by
  obtain ⟨user, path⟩ := pathAddress_spec low (pdx0_lt la) (ptx_lt la)
  have same : memory.pteAt dir (pathAddress (pdx1 la) (pdx0 la) (ptx la)) = memory.pteAt dir la :=
    Memory.pteAt_congr path
  rw [← same]
  exact bare _ user trivial

/-- What giving up tables of `dir` leaves alone. -/
structure Cleared (memory after : Memory) (dirs : Finset Nat) (tables tables' : TableMap) (dir : Nat) :
    Prop where
  counted : Counted after dirs tables'
  npage : after.npage = memory.npage
  pte : ∀ root ∈ dirs, ∀ la, after.pteAt root la = memory.pteAt root la
  top : ∀ root ∈ dirs, ∀ index, 2 ≤ index → after.entry root index = memory.entry root index
  window : ∀ frame, tables.owner frame = none → tables'.window frame = tables.window frame
  unowned : ∀ frame, tables.owner frame = none → tables'.owner frame = none
  bytes : ∀ frame, (∀ place, tables.owner frame ≠ some (dir, place)) →
    after.bytes frame = memory.bytes frame
  ref : ∀ frame, (∀ place, tables.owner frame ≠ some (dir, place)) → after.ref frame = memory.ref frame
  others : ∀ frame root place, root ≠ dir → tables.owner frame = some (root, place) →
    tables'.owner frame = some (root, place)
  free : memory.free ⊆ after.free
  freed : ∀ page ∈ after.free, page ∉ memory.free → ∃ place, tables.owner page = some (dir, place)

section CutOff

variable (counted : Counted memory dirs tables) (known : dir ∈ dirs) (bare : Bare memory dir)
  (here : tables.owner frame = some (dir, place)) (inner : place.length + 1 < pageRadix.depth)
  (uses : pageRadix.uses place index) (leads : pteTarget (memory.entry frame index) = some down)

include counted here inner uses leads

theorem Counted.cutOff_down : tables.owner down = some (dir, place ++ [index]) :=
  counted.paged.owned.below _ _ _ _ _ here inner uses leads

omit inner uses leads in
theorem Counted.cutOff_cut : pageRadix.Cut memory.entry (memory.cutOff frame index down).entry
    tables.owner dir (place ++ [index]) := by
  intro other root position slot stays
  rw [Memory.cutOff_entry]
  obtain ⟨isOwned, _⟩ := Radix.prune_some.mp stays
  split_ifs with atCut
  · obtain ⟨rfl, same⟩ := atCut
    obtain ⟨rfl, isIndex⟩ := List.append_inj' same rfl
    obtain rfl := counted.paged.owned.unique _ _ _ isOwned here
    rw [List.singleton_inj.mp isIndex]
    exact Radix.write_self
  · apply Radix.write_of_ne
    rintro ⟨rfl, rfl⟩
    obtain ⟨rfl, rfl⟩ := Prod.mk.inj (Option.some.inj (isOwned.symm.trans here))
    exact atCut ⟨rfl, rfl⟩

omit inner leads in
theorem Counted.cutOff_top (root : Nat) (isRoot : root ∈ dirs) (slot : Nat) (high : 2 ≤ slot) :
    (memory.cutOff frame index down).entry root slot = memory.entry root slot := by
  rw [Memory.cutOff_entry]
  apply Radix.write_of_ne
  rintro ⟨rfl, rfl⟩
  obtain ⟨_, rfl⟩ := Prod.mk.inj (Option.some.inj (here.symm.trans (counted.paged.owner_dir isRoot)))
  have low := uses.2 rfl
  omega

omit inner uses leads in
theorem Counted.cutOff_window (other : Nat) (isWindow : tables.window other ≠ none) :
    (memory.cutOff frame index down).entry other = memory.entry other := by
  funext slot
  rw [Memory.cutOff_entry]
  apply Radix.write_of_ne
  rintro ⟨rfl, _⟩
  exact isWindow (counted.paged.inside _ _ here).2

theorem Counted.cutOff_paged :
    Paged (memory.cutOff frame index down) dirs (tables.cutOff dir (place ++ [index]) down) := by
  have paged := counted.paged
  have isDown := counted.cutOff_down here inner uses leads
  have gone : Radix.prune tables.owner dir (place ++ [index]) down = none := by
    cases stays : Radix.prune tables.owner dir (place ++ [index]) down with
    | none => rfl
    | some kept =>
        obtain ⟨isOwned, apart⟩ := Radix.prune_some.mp (show _ = some (kept.1, kept.2) from stays)
        obtain ⟨isRoot, isPlace⟩ := Prod.mk.inj (Option.some.inj (isOwned.symm.trans isDown))
        exact absurd ⟨isRoot, isPlace ▸ List.prefix_rfl⟩ apart
  have windowKept : ∀ other, tables.owner other = none →
      (tables.cutOff dir (place ++ [index]) down).window other = tables.window other :=
    fun other unowned => TableMap.cutOff_window unowned
  have unwindowed : ∀ other, tables.window other ≠ none → tables.owner other = none :=
    fun other isWindow => (paged.window_apart isWindow).1
  constructor
  · exact paged.owned.prune (counted.cutOff_cut here)
  · intro other root
    refine Radix.prune_some.trans ((and_iff_left ?_).trans (paged.root other root))
    intro atCut
    exact List.append_ne_nil_of_right_ne_nil _ (List.cons_ne_nil _ _) (List.prefix_nil.mp atCut.2)
  · exact paged.small
  · intro other isFree
    rcases Finset.mem_insert.mp isFree with rfl | wasFree
    · refine ⟨(paged.inside _ _ isDown).1, gone, ?_⟩
      rw [TableMap.cutOff_window_eq, if_neg fun both => both.1 rfl]
      exact (paged.inside _ _ isDown).2
    · obtain ⟨inRange, unowned, isNone⟩ := paged.spare other wasFree
      exact ⟨inRange, prune_none unowned, (windowKept other unowned).trans isNone⟩
  · intro other kept stays
    have isOwned := (Radix.prune_some.mp (show _ = some (kept.1, kept.2) from stays)).1
    refine ⟨(paged.inside _ _ isOwned).1, ?_⟩
    rw [TableMap.cutOff_window_eq, if_neg fun both => both.2 (stays.trans isOwned.symm)]
    exact (paged.inside _ _ isOwned).2
  · intro other root position slot target stays lowest inTable leads'
    have isOwned := (Radix.prune_some.mp stays).1
    have notHere : ¬ (other = frame ∧ slot = index) := by
      rintro ⟨rfl, _⟩
      obtain ⟨_, rfl⟩ := Prod.mk.inj (Option.some.inj (isOwned.symm.trans here))
      rw [lowest] at inner
      exact absurd inner (by decide)
    rw [Memory.cutOff_entry, Radix.write_of_ne notHere] at leads'
    have data := paged.mapped _ _ _ _ _ isOwned lowest inTable leads'
    refine ⟨data.inRange, prune_none data.unowned, (windowKept _ data.unowned).trans data.unwindowed,
      fun isFree => ?_⟩
    rcases Finset.mem_insert.mp isFree with rfl | wasFree
    · rw [data.unowned] at isDown
      cases isDown
    · exact data.used wasFree
  · intro root isRoot slot high inTable below leads'
    rw [counted.cutOff_top here uses root isRoot slot high] at leads'
    have isWindow := paged.windowTop root isRoot slot high inTable below leads'
    rw [windowKept below (unwindowed below (isWindow ▸ Option.some_ne_none _)), isWindow]
  · intro other isWindow slot inTable below leads'
    have wasWindow : tables.window other = some 1 := by
      rw [TableMap.cutOff_window_eq] at isWindow
      split_ifs at isWindow with isLost
      · cases isWindow
      · exact isWindow
    rw [counted.cutOff_window here other (wasWindow ▸ Option.some_ne_none _)] at leads'
    have belowWindow := paged.windowNext other wasWindow slot inTable below leads'
    rw [windowKept below (unwindowed below (belowWindow ▸ Option.some_ne_none _)), belowWindow]

omit inner leads in
include known bare in
theorem Counted.cutOff_pteAt (root : Nat) (isRoot : root ∈ dirs) (la : Nat) :
    (memory.cutOff frame index down).pteAt root la = memory.pteAt root la := by
  have paged := counted.paged
  by_cases low : pdx1 la < 2
  · have isCut : pageRadix.Cut memory.entry (memory.cutOff frame index down).entry tables.owner dir
        (place ++ [index]) := counted.cutOff_cut here
    have rootStays : Radix.prune tables.owner dir (place ++ [index]) root = some (root, []) := by
      refine Radix.prune_some.mpr ⟨paged.owner_dir isRoot, fun atCut => ?_⟩
      exact List.append_ne_nil_of_right_ne_nil _ (List.cons_ne_nil _ _) (List.prefix_nil.mp atCut.2)
    have walk := paged.owned.lookup_prune isCut rootStays rfl (usesAll_pagePath low)
    unfold Memory.pteAt
    rw [walk]
    split_ifs with through
    · obtain ⟨rfl, _⟩ := through
      exact (bare.pteAt low).symm
    · rfl
  · exact paged.pteAt_window isRoot (not_lt.mp low)
      (counted.cutOff_top here uses root isRoot _ (not_lt.mp low)) (counted.cutOff_window here)

include known bare

theorem Counted.cutOff : Counted (memory.cutOff frame index down) dirs
    (tables.cutOff dir (place ++ [index]) down) where
  paged := counted.cutOff_paged here inner uses leads
  exact page data := by
    have isDown := counted.cutOff_down here inner uses leads
    have apart : page ≠ down := fun same => data.used (Finset.mem_insert.mpr (Or.inl same))
    have unowned : tables.owner page = none := by
      have isNone := data.unwindowed
      rw [TableMap.cutOff_window_eq] at isNone
      split_ifs at isNone with isLost
      rw [← not_not.mp fun differ => isLost ⟨apart, differ⟩]
      exact data.unowned
    have before : DataPage memory tables page :=
      ⟨data.inRange, unowned, (TableMap.cutOff_window unowned).symm.trans data.unwindowed,
        fun isFree => data.used (Finset.mem_insert_of_mem isFree)⟩
    have sameRef : (memory.cutOff frame index down).ref page = memory.ref page :=
      Function.update_of_ne apart _ _
    rw [sameRef, counted.exact page before]
    exact (Memory.mappings_congr fun root isRoot la _ =>
      counted.cutOff_pteAt known bare here uses root isRoot la).symm
  idle page isFree := by
    rcases Finset.mem_insert.mp isFree with rfl | wasFree
    · exact Function.update_self _ _ _
    · by_cases same : page = down
      · subst same
        exact Function.update_self _ _ _
      · exact (Function.update_of_ne same _ _).trans (counted.idle page wasFree)

theorem Counted.cleared : Cleared memory (memory.cutOff frame index down) dirs tables
    (tables.cutOff dir (place ++ [index]) down) dir := by
  have isDown := counted.cutOff_down here inner uses leads
  constructor
  · exact counted.cutOff known bare here inner uses leads
  · rfl
  · exact counted.cutOff_pteAt known bare here uses
  · exact counted.cutOff_top here uses
  · exact fun other unowned => TableMap.cutOff_window unowned
  · exact fun other unowned => prune_none unowned
  · intro other apart
    apply Function.update_of_ne
    rintro rfl
    exact apart place here
  · intro other apart
    apply Function.update_of_ne
    rintro rfl
    exact apart _ isDown
  · exact fun other root position differ isOwned =>
      Radix.prune_some.mpr ⟨isOwned, fun atCut => differ atCut.1⟩
  · exact Finset.subset_insert _ _
  · intro other isFree wasUsed
    obtain rfl := (Finset.mem_insert.mp isFree).resolve_right wasUsed
    exact ⟨_, isDown⟩

end CutOff

/-! ## The tables of a directory -/

/-- The places at which the directory has a table. -/
def Tables (tables : TableMap) (dir : Nat) : Set (List Nat) :=
  { place | ∃ frame, tables.owner frame = some (dir, place) }

/-- Of the tables of `dir`, those at the places `gone` are given up, and of these the ones at the
places `freed` are free. -/
structure Exits (memory after : Memory) (dirs : Finset Nat) (tables tables' : TableMap) (dir : Nat)
    (freed gone : Set (List Nat)) : Prop where
  cleared : Cleared memory after dirs tables tables' dir
  stays : ∀ frame place, tables.owner frame = some (dir, place) → place ∉ gone →
    tables'.owner frame = some (dir, place)
  goes : ∀ frame place, tables.owner frame = some (dir, place) → place ∈ gone →
    tables'.owner frame = none
  isFree : ∀ frame place, tables.owner frame = some (dir, place) →
    (frame ∈ after.free ↔ place ∈ freed)

namespace Cleared

theorem refl (counted : Counted memory dirs tables) : Cleared memory memory dirs tables tables dir :=
  ⟨counted, rfl, fun _ _ _ => rfl, fun _ _ _ _ => rfl, fun _ _ => rfl, fun _ unowned => unowned,
    fun _ _ => rfl, fun _ _ => rfl, fun _ _ _ _ here => here, Finset.Subset.refl _,
    fun _ isFree used => absurd isFree used⟩

/-- A page that is no table of the directory does not become one. -/
theorem apart (cleared : Cleared memory after dirs tables tables' dir)
    (notTable : ∀ place, tables.owner frame ≠ some (dir, place)) (place : List Nat) :
    tables'.owner frame ≠ some (dir, place) := by
  cases isOwned : tables.owner frame with
  | none =>
      rw [cleared.unowned frame isOwned]
      exact fun impossible => by cases impossible
  | some kept =>
      have differ : kept.1 ≠ dir := by
        rintro rfl
        exact notTable kept.2 isOwned
      rw [cleared.others frame kept.1 kept.2 differ isOwned]
      intro same
      exact differ (Prod.mk.inj (Option.some.inj same)).1

theorem trans {last : Memory} {tables'' : TableMap} (first : Cleared memory middle dirs tables tables' dir)
    (second : Cleared middle last dirs tables' tables'' dir)
    (stillTables : ∀ page place, tables'.owner page = some (dir, place) →
      tables.owner page = some (dir, place)) : Cleared memory last dirs tables tables'' dir where
  counted := second.counted
  npage := second.npage.trans first.npage
  pte root isRoot la := (second.pte root isRoot la).trans (first.pte root isRoot la)
  top root isRoot index high := (second.top root isRoot index high).trans (first.top root isRoot index high)
  window frame unowned :=
    (second.window frame (first.unowned frame unowned)).trans (first.window frame unowned)
  unowned frame unowned := second.unowned frame (first.unowned frame unowned)
  bytes frame notTable := (second.bytes frame (first.apart notTable)).trans (first.bytes frame notTable)
  ref frame notTable := (second.ref frame (first.apart notTable)).trans (first.ref frame notTable)
  others frame root place differ here :=
    second.others frame root place differ (first.others frame root place differ here)
  free := first.free.trans second.free
  freed page isFree used := by
    by_cases early : page ∈ middle.free
    · exact first.freed page early used
    · obtain ⟨place, here⟩ := second.freed page isFree early
      exact ⟨place, stillTables page place here⟩

end Cleared

namespace Exits

variable {freed gone freed' gone' : Set (List Nat)}

/-- The tables that are left were tables before. -/
theorem was (exits : Exits memory after dirs tables tables' dir freed gone)
    (here : tables'.owner frame = some (dir, place)) :
    tables.owner frame = some (dir, place) ∧ place ∉ gone := by
  cases isOwned : tables.owner frame with
  | none =>
      rw [exits.cleared.unowned frame isOwned] at here
      cases here
  | some kept =>
      obtain ⟨root, position⟩ := kept
      by_cases isDir : root = dir
      · subst isDir
        by_cases isGone : position ∈ gone
        · rw [exits.goes frame position isOwned isGone] at here
          cases here
        · rw [exits.stays frame position isOwned isGone] at here
          obtain ⟨_, rfl⟩ := Prod.mk.inj (Option.some.inj here)
          exact ⟨rfl, isGone⟩
      · rw [exits.cleared.others frame root position isDir isOwned] at here
        exact absurd (Prod.mk.inj (Option.some.inj here)).1 isDir

theorem tables_eq (exits : Exits memory after dirs tables tables' dir freed gone) :
    Tables tables' dir = Tables tables dir \ gone := by
  ext place
  constructor
  · rintro ⟨frame, here⟩
    obtain ⟨wasHere, stays⟩ := exits.was here
    exact ⟨⟨frame, wasHere⟩, stays⟩
  · rintro ⟨⟨frame, here⟩, stays⟩
    exact ⟨frame, exits.stays frame place here stays⟩

/-- Where there is no table, none is given up. -/
theorem congr (exits : Exits memory after dirs tables tables' dir freed gone)
    (sameFreed : ∀ place ∈ Tables tables dir, place ∈ freed ↔ place ∈ freed')
    (sameGone : ∀ place ∈ Tables tables dir, place ∈ gone ↔ place ∈ gone') :
    Exits memory after dirs tables tables' dir freed' gone' where
  cleared := exits.cleared
  stays frame place here outside :=
    exits.stays frame place here ((sameGone place ⟨frame, here⟩).not.mpr outside)
  goes frame place here inside :=
    exits.goes frame place here ((sameGone place ⟨frame, here⟩).mpr inside)
  isFree frame place here := (exits.isFree frame place here).trans (sameFreed place ⟨frame, here⟩)

theorem nothing (counted : Counted memory dirs tables)
    (noneFreed : ∀ place ∈ Tables tables dir, place ∉ freed)
    (noneGone : ∀ place ∈ Tables tables dir, place ∉ gone) :
    Exits memory memory dirs tables tables dir freed gone where
  cleared := .refl counted
  stays _ _ here _ := here
  goes frame place here isGone := absurd isGone (noneGone place ⟨frame, here⟩)
  isFree frame place here := iff_of_false
    (fun isFree => by
      rw [(counted.paged.spare frame isFree).2.1] at here
      cases here)
    (noneFreed place ⟨frame, here⟩)

theorem trans {last : Memory} {tables'' : TableMap}
    (first : Exits memory middle dirs tables tables' dir freed gone)
    (second : Exits middle last dirs tables' tables'' dir freed' gone') (within : freed ⊆ gone) :
    Exits memory last dirs tables tables'' dir (freed ∪ freed' \ gone) (gone ∪ gone') where
  cleared := first.cleared.trans second.cleared fun _ _ here => (first.was here).1
  stays frame place here outside :=
    second.stays frame place (first.stays frame place here fun inside => outside (Or.inl inside))
      fun inside => outside (Or.inr inside)
  goes frame place here inside := by
    by_cases early : place ∈ gone
    · exact second.cleared.unowned frame (first.goes frame place here early)
    · exact second.goes frame place (first.stays frame place here early) (inside.resolve_left early)
  isFree frame place here := by
    by_cases early : place ∈ gone
    · have unowned := first.goes frame place here early
      have same : frame ∈ last.free ↔ frame ∈ middle.free := by
        refine ⟨fun isFree => ?_, fun isFree => second.cleared.free isFree⟩
        by_contra used
        obtain ⟨position, owned⟩ := second.cleared.freed frame isFree used
        rw [unowned] at owned
        cases owned
      rw [same, first.isFree frame place here]
      exact ⟨Or.inl, fun inside => inside.resolve_right fun both => both.2 early⟩
    · rw [second.isFree frame place (first.stays frame place here early)]
      exact ⟨fun inside => Or.inr ⟨inside, early⟩,
        fun inside => (inside.resolve_left fun isFreed => early (within isFreed)).1⟩

end Exits

/-- Cutting off a table gives up those at its place and below. -/
theorem Counted.exits (counted : Counted memory dirs tables) (known : dir ∈ dirs)
    (bare : Bare memory dir) (here : tables.owner frame = some (dir, place))
    (inner : place.length + 1 < pageRadix.depth) (uses : pageRadix.uses place index)
    (leads : pteTarget (memory.entry frame index) = some down) :
    Exits memory (memory.cutOff frame index down) dirs tables
      (tables.cutOff dir (place ++ [index]) down) dir {place ++ [index]}
      { below | place ++ [index] <+: below } where
  cleared := counted.cleared known bare here inner uses leads
  stays other position isOwned outside :=
    Radix.prune_some.mpr ⟨isOwned, fun atCut => outside atCut.2⟩
  goes other position isOwned inside := by
    cases stays : (tables.cutOff dir (place ++ [index]) down).owner other with
    | none => rfl
    | some kept =>
        obtain ⟨isKept, apart⟩ := Radix.prune_some.mp (show _ = some (kept.1, kept.2) from stays)
        obtain ⟨isRoot, isPlace⟩ := Prod.mk.inj (Option.some.inj (isKept.symm.trans isOwned))
        exact absurd ⟨isRoot, isPlace ▸ inside⟩ apart
  isFree other position isOwned := by
    have isDown := counted.cutOff_down here inner uses leads
    constructor
    · intro isFree
      rcases Finset.mem_insert.mp isFree with rfl | wasFree
      · exact (Prod.mk.inj (Option.some.inj (isOwned.symm.trans isDown))).2
      · rw [(counted.paged.spare other wasFree).2.1] at isOwned
        cases isOwned
    · intro isCut
      rw [Set.mem_singleton_iff.mp isCut] at isOwned
      exact Finset.mem_insert.mpr (Or.inl (counted.paged.owned.unique _ _ _ isOwned isDown))

/-! ## Which tables go -/

/-- The range has an address in the block of a lowest table. -/
def Scans (start stop first second : Nat) : Prop :=
  start / ptSize ≤ first * nPteEntry + second ∧ (first * nPteEntry + second) * ptSize < stop

/-- The table of the second level is freed: all entries that `exit_range` looks at are valid. -/
def Releases (held : Set (List Nat)) (start stop first : Nat) : Prop :=
  (∃ second < nPteEntry, Scans start stop first second) ∧
    ∀ second < nPteEntry, Scans start stop first second → [first, second] ∈ held

/-- The tables that `exit_range` frees, of those at the places `held`. -/
def freedPlaces (held : Set (List Nat)) (start stop : Nat) : Set (List Nat) :=
  { place | ∃ first, (place = [first] ∧ Releases held start stop first) ∨
    ∃ second, place = [first, second] ∧ Scans start stop first second }

/-- The tables that `exit_range` gives up: those that it frees, and what is left below them. -/
def gonePlaces (held : Set (List Nat)) (start stop : Nat) : Set (List Nat) :=
  { place | ∃ first, (place = [first] ∧ Releases held start stop first) ∨
    ∃ second, place = [first, second] ∧
      (Scans start stop first second ∨ Releases held start stop first) }

section Places

variable {held held' : Set (List Nat)} {first second start stop next : Nat}

@[simp] theorem nil_not_freed : [] ∉ freedPlaces held start stop := by
  rintro ⟨first, (⟨impossible, _⟩ | ⟨second, impossible, _⟩)⟩ <;> cases impossible

@[simp] theorem nil_not_gone : [] ∉ gonePlaces held start stop := by
  rintro ⟨first, (⟨impossible, _⟩ | ⟨second, impossible, _⟩)⟩ <;> cases impossible

@[simp] theorem upper_freed : [first] ∈ freedPlaces held start stop ↔ Releases held start stop first := by
  simp [freedPlaces]

@[simp] theorem upper_gone : [first] ∈ gonePlaces held start stop ↔ Releases held start stop first := by
  simp [gonePlaces]

@[simp] theorem lower_freed :
    [first, second] ∈ freedPlaces held start stop ↔ Scans start stop first second := by
  simp [freedPlaces]

@[simp] theorem lower_gone : [first, second] ∈ gonePlaces held start stop ↔
    Scans start stop first second ∨ Releases held start stop first := by
  simp [gonePlaces]

/-- The blocks from one on. -/
theorem scans_block {other : Nat} (low : second < nPteEntry) (inTable : next < nPteEntry) :
    Scans ((first * nPteEntry + second) * ptSize) stop other next ↔
      (first = other ∧ second ≤ next ∨ first < other) ∧ (other * nPteEntry + next) * ptSize < stop := by
  unfold Scans
  rw [Nat.mul_div_cancel _ (by decide)]
  refine and_congr_left fun _ => ?_
  unfold nPteEntry at low inTable ⊢
  omega

theorem Releases.congr {start' stop' : Nat} (scans : ∀ next < nPteEntry,
      Scans start stop first next ↔ Scans start' stop' first next)
    (same : ∀ next < nPteEntry, [first, next] ∈ held ↔ [first, next] ∈ held') :
    Releases held start stop first ↔ Releases held' start' stop' first := by
  unfold Releases
  refine and_congr (exists_congr fun next => and_congr_right fun inTable => scans next inTable) ?_
  refine forall_congr' fun next => forall_congr' fun inTable => ?_
  rw [scans next inTable, same next inTable]

theorem freedPlaces_subset : freedPlaces held start stop ⊆ gonePlaces held start stop := by
  rintro place ⟨first, (upper | ⟨second, same, isScanned⟩)⟩
  · exact ⟨first, Or.inl upper⟩
  · exact ⟨first, Or.inr ⟨second, same, Or.inl isScanned⟩⟩

end Places

/-- The shapes of the places of tables. -/
theorem Paged.tables_shape (paged : Paged memory dirs tables) (isTable : place ∈ Tables tables dir) :
    place = [] ∨ (∃ first, place = [first]) ∨
      ∃ first second, place = [first, second] ∧ second < nPteEntry := by
  obtain ⟨frame, isOwned⟩ := isTable
  have short : place.length < 3 := paged.place_length isOwned
  cases place with
  | nil => exact Or.inl rfl
  | cons first rest =>
      cases rest with
      | nil => exact Or.inr (Or.inl ⟨first, rfl⟩)
      | cons second rest =>
          simp only [List.length_cons] at short
          obtain rfl : rest = [] := List.length_eq_zero_iff.mp (by omega)
          exact Or.inr (Or.inr ⟨first, second, rfl,
            (paged.owned.above frame dir [first] second isOwned).2.1.1⟩)

/-- A table of the second level stands above each lowest one. -/
theorem Paged.tables_above (paged : Paged memory dirs tables) {first second : Nat}
    (isTable : [first, second] ∈ Tables tables dir) : [first] ∈ Tables tables dir := by
  obtain ⟨frame, isOwned⟩ := isTable
  obtain ⟨_, _, up, isUp, _⟩ := paged.owned.above frame dir [first] second isOwned
  exact ⟨up, isUp⟩

/-- A table of the second level is linked in the directory. -/
theorem Paged.upper_entry (paged : Paged memory dirs tables) (known : dir ∈ dirs) {pd0 first : Nat}
    (isPd0 : tables.owner pd0 = some (dir, [first])) : pteTarget (memory.entry dir first) = some pd0 := by
  obtain ⟨_, _, up, isUp, leads⟩ := paged.owned.above pd0 dir [] first isPd0
  rw [← paged.owned.unique _ _ _ isUp (paged.owner_dir known)]
  exact leads

theorem Cleared.bare (cleared : Cleared memory after dirs tables tables' dir) (known : dir ∈ dirs)
    (wasBare : Bare memory dir) : Bare after dir :=
  fun la user _ => (cleared.pte dir known la).trans (wasBare la user trivial)

section Directory

variable {pd0 first second start stop fuel : Nat}
  (counted : Counted memory dirs tables) (known : dir ∈ dirs) (bare : Bare memory dir)

/-- Where nothing is mapped, the entries of a lowest table are not valid. -/
theorem Counted.tableEmpty (counted : Counted memory dirs tables) (bare : Bare memory dir) {pt : Nat}
    (here : tables.owner pt = some (dir, place)) (lowest : place.length = 2) : memory.tableEmpty pt := by
  intro index inTable valid
  obtain ⟨la, user, known, rfl, rfl⟩ := counted.paged.entry_address here lowest inTable
  rw [← counted.paged.pteAt_eq known here, bare la user trivial] at valid
  exact absurd valid (by decide)

include counted

theorem Counted.freePage_table (here : tables.owner frame = some (dir, place))
    (inner : place.length + 1 < pageRadix.depth) (uses : pageRadix.uses place index)
    (leads : pteTarget (memory.entry frame index) = some down) : (do
      let freed ← memory.freePage down
      pure (freed.setEntry frame index 0) : Except Stop Memory) =
        .ok (memory.cutOff frame index down) := by
  have isDown := counted.cutOff_down here inner uses leads
  have used : down ∉ memory.free := by
    intro isFree
    rw [(counted.paged.spare down isFree).2.1] at isDown
    cases isDown
  unfold Memory.freePage
  rw [if_neg used]
  rfl

include known bare

theorem Counted.exitTable (here : tables.owner pd0 = some (dir, [first])) (low : second < nPteEntry)
    (flag : Bool) : ∃ flag' after tables', memory.exitTable pd0 ((first * nPteEntry + second) * ptSize) flag =
        .ok (flag', after) ∧
      Exits memory after dirs tables tables' dir {[first, second]} {[first, second]} ∧
      (flag' = true ↔ flag = true ∧ [first, second] ∈ Tables tables dir) := by
  have isSecond : pdx0 ((first * nPteEntry + second) * ptSize) = second := by
    unfold nPteEntry at low ⊢
    unfold pdx0 ptSize pgSize nPteEntry
    omega
  have inner : [first].length + 1 < pageRadix.depth := Nat.lt_succ_self 2
  have uses : pageRadix.uses [first] second := ⟨low, fun impossible => by cases impossible⟩
  have isTable : [first, second] ∈ Tables tables dir ↔
      pteTarget (memory.entry pd0 second) ≠ none := by
    constructor
    · rintro ⟨pt, isPt⟩
      obtain ⟨_, _, up, isUp, leads⟩ := counted.paged.owned.above pt dir [first] second isPt
      rw [← counted.paged.owned.unique _ _ _ isUp here]
      have found : pteTarget (memory.entry up second) = some pt := leads
      rw [found]
      exact Option.some_ne_none _
    · intro leads
      obtain ⟨pt, isPt⟩ := Option.ne_none_iff_exists'.mp leads
      exact ⟨pt, counted.cutOff_down here inner uses isPt⟩
  unfold Memory.exitTable
  rw [isSecond]
  by_cases valid : pteValid (memory.entry pd0 second)
  · have leads := pteTarget_some.mpr ⟨valid, rfl⟩
    have isPt := counted.cutOff_down here inner uses leads
    have inRange := (counted.paged.inside _ _ isPt).1
    have empty := counted.tableEmpty bare isPt rfl
    have freed := counted.freePage_table here inner uses leads
    rw [if_pos valid]
    unfold Memory.kaddr
    rw [if_pos inRange]
    refine ⟨flag, _, _, ?_, (counted.exits known bare here inner uses leads).congr
      (fun _ _ => Iff.rfl) ?_, ?_⟩
    · simp only [bind, Except.bind] at freed ⊢
      rw [if_pos empty]
      cases page : memory.freePage (ptePpn (memory.entry pd0 second)) with
      | error reason =>
          rw [page] at freed
          cases freed
      | ok result =>
          rw [page] at freed
          simp only [pure, Except.pure] at freed ⊢
          rw [Except.ok.inj freed]
    · rintro place ⟨table, isOwned⟩
      have short := counted.paged.place_length isOwned
      constructor
      · rintro ⟨rest, rfl⟩
        simp only [List.length_append, List.length_cons, List.length_nil] at short
        have isNil : rest = [] := List.length_eq_zero_iff.mp (by omega)
        rw [isNil]
        rfl
      · intro same
        rw [Set.mem_singleton_iff.mp same]
        exact List.prefix_rfl
    · rw [isTable, leads]
      exact ⟨fun isTrue => ⟨isTrue, Option.some_ne_none _⟩, fun both => both.1⟩
  · rw [if_neg valid]
    have missing : [first, second] ∉ Tables tables dir := by
      rw [isTable, not_not]
      exact pteTarget_none.mpr valid
    refine ⟨false, memory, tables, rfl, .nothing counted ?_ ?_, ?_⟩
    · rintro place isPlace rfl
      exact missing isPlace
    · rintro place isPlace rfl
      exact missing isPlace
    · exact iff_of_false (by decide) fun both => missing both.2

/-- The lowest tables from a block on, up to the end of a table of the second level or of the
range. -/
theorem Counted.exitTables (here : tables.owner pd0 = some (dir, [first])) (low : second < nPteEntry)
    (below : (first * nPteEntry + second) * ptSize < stop) (enough : nPteEntry ≤ second + fuel)
    (flag : Bool) : ∃ flag' after tables', Memory.exitTables pd0 (first * pdSize) stop fuel memory
        ((first * nPteEntry + second) * ptSize) flag = .ok (flag', after) ∧
      Exits memory after dirs tables tables' dir
        { place | ∃ next, place = [first, next] ∧ second ≤ next ∧
          (first * nPteEntry + next) * ptSize < stop }
        { place | ∃ next, place = [first, next] ∧ second ≤ next ∧
          (first * nPteEntry + next) * ptSize < stop } ∧
      (flag' = true ↔ flag = true ∧ ∀ next, second ≤ next → next < nPteEntry →
        (first * nPteEntry + next) * ptSize < stop → [first, next] ∈ Tables tables dir) := by
  induction fuel generalizing memory tables second flag with
  | zero => omega
  | succ fuel inductionHypothesis =>
      obtain ⟨flag', exited, tables', ran, exits, flagIff⟩ :=
        counted.exitTable known bare here low flag
      have next : (first * nPteEntry + second) * ptSize + ptSize =
          (first * nPteEntry + (second + 1)) * ptSize := by ring
      have inside : (first * nPteEntry + (second + 1)) * ptSize < first * pdSize + pdSize ↔
          second + 1 < nPteEntry := by
        unfold pdSize ptSize pgSize nPteEntry
        omega
      have tablesOnly : ∀ next, [first, next] ∈ Tables tables dir → next < nPteEntry := by
        rintro next ⟨frame, isOwned⟩
        exact (counted.paged.owned.above frame dir [first] next isOwned).2.1.1
      unfold Memory.exitTables
      simp only [ran, bind, Except.bind, next, inside]
      by_cases more : (first * nPteEntry + (second + 1)) * ptSize ≠ 0 ∧ second + 1 < nPteEntry ∧
          (first * nPteEntry + (second + 1)) * ptSize < stop
      · rw [if_pos more]
        have still : tables'.owner pd0 = some (dir, [first]) := by
          apply exits.stays pd0 [first] here
          intro same
          cases Set.mem_singleton_iff.mp same
        obtain ⟨flag'', after, tables'', rest, later, laterIff⟩ :=
          inductionHypothesis exits.cleared.counted (exits.cleared.bare known bare) still more.2.1
            more.2.2 (by omega) flag'
        have laterTable : ∀ next, second + 1 ≤ next →
            ([first, next] ∈ Tables tables' dir ↔ [first, next] ∈ Tables tables dir) := by
          intro next further
          rw [exits.tables_eq]
          refine and_iff_left fun same => ?_
          simp only [Set.mem_singleton_iff, List.cons.injEq, and_true, true_and] at same
          omega
        refine ⟨flag'', after, tables'', rest, (exits.trans later (Set.Subset.refl _)).congr ?_ ?_, ?_⟩
        · intro place _
          constructor
          · rintro (same | ⟨⟨next, rfl, further, low⟩, _⟩)
            · exact ⟨second, same, le_rfl, below⟩
            · exact ⟨next, rfl, by omega, low⟩
          · rintro ⟨next, rfl, further, low⟩
            by_cases same : next = second
            · exact Or.inl (same ▸ rfl)
            · refine Or.inr ⟨⟨next, rfl, by omega, low⟩, fun isHere => ?_⟩
              simp only [Set.mem_singleton_iff, List.cons.injEq, and_true, true_and] at isHere
              exact same isHere
        · intro place _
          constructor
          · rintro (same | ⟨next, rfl, further, low⟩)
            · exact ⟨second, same, le_rfl, below⟩
            · exact ⟨next, rfl, by omega, low⟩
          · rintro ⟨next, rfl, further, low⟩
            by_cases same : next = second
            · exact Or.inl (same ▸ rfl)
            · exact Or.inr ⟨next, rfl, by omega, low⟩
        · rw [laterIff, flagIff, and_assoc]
          refine and_congr_right fun _ => ⟨?_, fun all => ⟨all second le_rfl low below, ?_⟩⟩
          · rintro ⟨isTable, all⟩ next further inTable inRange
            by_cases same : next = second
            · exact same ▸ isTable
            · exact (laterTable next (by omega)).mp (all next (by omega) inTable inRange)
          · exact fun next further inTable inRange =>
              (laterTable next further).mpr (all next (by omega) inTable inRange)
      · rw [if_neg more]
        -- what follows is behind the end of the table or of the range
        have only : ∀ next, second ≤ next → next < nPteEntry →
            (first * nPteEntry + next) * ptSize < stop → next = second := by
          intro next further inTable inRange
          by_contra differ
          have later : second + 1 ≤ next := by omega
          have order : (first * nPteEntry + (second + 1)) * ptSize ≤
              (first * nPteEntry + next) * ptSize :=
            Nat.mul_le_mul_right _ (Nat.add_le_add_left later _)
          refine more ⟨?_, lt_of_le_of_lt later inTable, lt_of_le_of_lt order inRange⟩
          exact Nat.mul_ne_zero (by omega) (by decide)
        have same : ∀ place ∈ Tables tables dir, place ∈ ({[first, second]} : Set (List Nat)) ↔
            place ∈ { place | ∃ next, place = [first, next] ∧ second ≤ next ∧
              (first * nPteEntry + next) * ptSize < stop } := by
          intro place isTable
          constructor
          · exact fun isHere => ⟨second, isHere, le_rfl, below⟩
          · rintro ⟨next, rfl, further, inRange⟩
            rw [only next further (tablesOnly next isTable) inRange]
            rfl
        refine ⟨flag', exited, tables', rfl, exits.congr same same, ?_⟩
        rw [flagIff]
        refine and_congr_right fun _ => ⟨?_, fun all => all second le_rfl low below⟩
        intro isTable next further inTable inRange
        rw [only next further inTable inRange]
        exact isTable

theorem Counted.exitDirectory (user : first < 2) (low : second < nPteEntry)
    (below : (first * nPteEntry + second) * ptSize < stop) :
    ∃ after tables', memory.exitDirectory dir (first * pdSize)
        ((first * nPteEntry + second) * ptSize) stop = .ok after ∧
      Exits memory after dirs tables tables' dir
        ({ place | place.head? = some first } ∩
          freedPlaces (Tables tables dir) ((first * nPteEntry + second) * ptSize) stop)
        ({ place | place.head? = some first } ∩
          gonePlaces (Tables tables dir) ((first * nPteEntry + second) * ptSize) stop) := by
  have paged := counted.paged
  have isFirst : pdx1 (first * pdSize) = first := by
    unfold pdx1 pdSize ptSize pgSize nPteEntry
    omega
  have rootHere := paged.owner_dir known
  have uses : pageRadix.uses [] first := ⟨lt_trans user (by decide), fun _ => user⟩
  -- the blocks of this table that are looked at
  have scans : ∀ next, next < nPteEntry →
      (Scans ((first * nPteEntry + second) * ptSize) stop first next ↔
        second ≤ next ∧ (first * nPteEntry + next) * ptSize < stop) := by
    intro next inTable
    rw [scans_block low inTable]
    simp
  have releases : Releases (Tables tables dir) ((first * nPteEntry + second) * ptSize) stop first ↔
      ∀ next, second ≤ next → next < nPteEntry → (first * nPteEntry + next) * ptSize < stop →
        [first, next] ∈ Tables tables dir := by
    constructor
    · exact fun released next further inTable inRange =>
        released.2 next inTable ((scans next inTable).mpr ⟨further, inRange⟩)
    · intro all
      refine ⟨⟨second, low, (scans second low).mpr ⟨le_rfl, below⟩⟩, fun next inTable isScanned => ?_⟩
      obtain ⟨further, inRange⟩ := (scans next inTable).mp isScanned
      exact all next further inTable inRange
  unfold Memory.exitDirectory
  rw [isFirst]
  by_cases valid : pteValid (memory.entry dir first)
  · have leads := pteTarget_some.mpr ⟨valid, rfl⟩
    have isPd0 : tables.owner (ptePpn (memory.entry dir first)) = some (dir, [first]) :=
      counted.cutOff_down rootHere (by decide) uses leads
    have inRange := (paged.inside _ _ isPd0).1
    obtain ⟨flag, exited, tables', ran, exits, flagIff⟩ :=
      counted.exitTables known bare isPd0 low below (Nat.le_add_left _ _) true
    have released : flag = true ↔
        Releases (Tables tables dir) ((first * nPteEntry + second) * ptSize) stop first := by
      rw [flagIff, releases]
      exact and_iff_right rfl
    rw [if_pos valid]
    unfold Memory.kaddr
    rw [if_pos inRange]
    simp only [bind, Except.bind, pure, Except.pure, ran]
    by_cases all : flag = true
    · have later := exits.cleared.counted
      have rootStays := later.paged.owner_dir known
      have stays : tables'.owner (ptePpn (memory.entry dir first)) = some (dir, [first]) := by
        apply exits.stays _ _ isPd0
        rintro ⟨next, impossible, _⟩
        cases impossible
      have leadsStill := later.paged.upper_entry known stays
      have freed := later.freePage_table rootStays (by decide) uses leadsStill
      have cut := later.exits known (exits.cleared.bare known bare) rootStays (by decide) uses leadsStill
      refine ⟨_, _, ?_, (exits.trans cut (Set.Subset.refl _)).congr ?_ ?_⟩
      · rw [if_pos all]
        exact freed
      · intro place isPlace
        rcases paged.tables_shape isPlace with rfl | ⟨other, rfl⟩ | ⟨other, next, rfl, inTable⟩
        · simp
        · by_cases same : other = first
          · simp [same, released.mp all]
          · simp [same]
        · by_cases same : other = first
          · simp [same, scans next inTable]
          · simp [same]
      · intro place isPlace
        rcases paged.tables_shape isPlace with rfl | ⟨other, rfl⟩ | ⟨other, next, rfl, inTable⟩
        · simp
        · by_cases same : other = first
          · simp [same, released.mp all]
          · simp [same, Ne.symm same]
        · by_cases same : other = first
          · simp [same, released.mp all]
          · simp [same, Ne.symm same]
    · refine ⟨exited, tables', ?_, exits.congr ?_ ?_⟩
      · rw [if_neg all]
      · intro place isPlace
        rcases paged.tables_shape isPlace with rfl | ⟨other, rfl⟩ | ⟨other, next, rfl, inTable⟩
        · simp
        · by_cases same : other = first
          · simp [same, released.not.mp all]
          · simp [same]
        · by_cases same : other = first
          · simp [same, scans next inTable]
          · simp [same]
      · intro place isPlace
        rcases paged.tables_shape isPlace with rfl | ⟨other, rfl⟩ | ⟨other, next, rfl, inTable⟩
        · simp
        · by_cases same : other = first
          · simp [same, released.not.mp all]
          · simp [same]
        · by_cases same : other = first
          · simp [same, scans next inTable, released.not.mp all]
          · simp [same]
  · rw [if_neg valid]
    have none : ∀ place ∈ Tables tables dir, place.head? ≠ some first := by
      intro place isPlace isHead
      have isUpper : [first] ∈ Tables tables dir := by
        rcases paged.tables_shape isPlace with rfl | ⟨other, rfl⟩ | ⟨other, next, rfl, _⟩
        · cases isHead
        · rwa [← Option.some.inj isHead]
        · rw [← Option.some.inj isHead]
          exact paged.tables_above isPlace
      obtain ⟨pd0, isPd0⟩ := isUpper
      exact valid (pteTarget_some.mp (paged.upper_entry known isPd0)).1
    exact ⟨memory, tables, rfl, .nothing counted (fun place isPlace inside => none place isPlace inside.1)
      fun place isPlace inside => none place isPlace inside.1⟩

/-- The rest of the range, from a block on. -/
theorem Counted.exitLoop (low : second < nPteEntry) (below : (first * nPteEntry + second) * ptSize < stop)
    (user : stop ≤ userTop) (enough : 2 ≤ first + fuel) :
    ∃ after tables', Memory.exitLoop dir stop fuel memory (first * pdSize)
        ((first * nPteEntry + second) * ptSize) = .ok after ∧
      Exits memory after dirs tables tables' dir
        (freedPlaces (Tables tables dir) ((first * nPteEntry + second) * ptSize) stop)
        (gonePlaces (Tables tables dir) ((first * nPteEntry + second) * ptSize) stop) := by
  have firstUser : first < 2 := by
    unfold userTop at user
    unfold ptSize pgSize nPteEntry at below
    omega
  induction fuel generalizing memory tables first second with
  | zero => omega
  | succ fuel inductionHypothesis =>
      obtain ⟨exited, tables', ran, exits⟩ := counted.exitDirectory known bare firstUser low below
      have next : first * pdSize + pdSize = (first + 1) * pdSize := by ring
      have nextBlock : (first + 1) * pdSize = ((first + 1) * nPteEntry + 0) * ptSize := by
        unfold pdSize
        ring
      unfold Memory.exitLoop
      simp only [ran, bind, Except.bind, next]
      by_cases more : (first + 1) * pdSize ≠ 0 ∧ (first + 1) * pdSize < stop
      · rw [if_pos more]
        have nextUser : first + 1 < 2 := by
          have high := more.2
          unfold userTop at user
          unfold pdSize ptSize pgSize nPteEntry at high
          omega
        obtain ⟨after, tables'', rest, later⟩ := inductionHypothesis exits.cleared.counted
          (exits.cleared.bare known bare) (by decide : 0 < nPteEntry) (nextBlock ▸ more.2) (by omega)
          nextUser
        rw [← nextBlock] at rest
        obtain ⟨start, isStart⟩ : ∃ start, start = ((first + 1) * nPteEntry + 0) * ptSize := ⟨_, rfl⟩
        rw [← isStart] at later
        have scans : ∀ other next, next < nPteEntry →
            (Scans start stop other next ↔
              other ≠ first ∧ Scans ((first * nPteEntry + second) * ptSize) stop other next) := by
          intro other next inTable
          rw [isStart, scans_block (by decide) inTable, scans_block low inTable]
          omega
        have releases : ∀ other,
            (Releases (Tables tables' dir) start stop other ↔
              other ≠ first ∧
                Releases (Tables tables dir) ((first * nPteEntry + second) * ptSize) stop other) := by
          intro other
          by_cases same : other = first
          · refine iff_of_false ?_ fun both => both.1 same
            rintro ⟨⟨next, inTable, isScanned⟩, _⟩
            exact ((scans other next inTable).mp isScanned).1 same
          · rw [Releases.congr (fun next inTable => (scans other next inTable).trans
              (and_iff_right same)) fun next _ => ?_]
            · exact (and_iff_right same).symm
            · rw [exits.tables_eq]
              exact and_iff_left fun inside => same (Option.some.inj inside.1)
        refine ⟨after, tables'', rest, (exits.trans later ?_).congr ?_ ?_⟩
        · exact Set.inter_subset_inter_right _ freedPlaces_subset
        · intro place isPlace
          rcases counted.paged.tables_shape isPlace with rfl | ⟨other, rfl⟩ | ⟨other, next, rfl, inTable⟩
          · simp
          · by_cases same : other = first <;> simp [same, releases]
          · by_cases same : other = first <;> simp [same, scans _ next inTable]
        · intro place isPlace
          rcases counted.paged.tables_shape isPlace with rfl | ⟨other, rfl⟩ | ⟨other, next, rfl, inTable⟩
          · simp
          · by_cases same : other = first <;> simp [same, releases]
          · by_cases same : other = first <;> simp [same, releases, scans _ next inTable]
      · rw [if_neg more]
        have scans : ∀ other next, next < nPteEntry →
            Scans ((first * nPteEntry + second) * ptSize) stop other next → other = first := by
          intro other next inTable isScanned
          obtain ⟨further, inRange⟩ := (scans_block low inTable).mp isScanned
          rcases further with ⟨same, _⟩ | later
          · exact same.symm
          · have order : (first + 1) * pdSize ≤ (other * nPteEntry + next) * ptSize := by
              rw [nextBlock]
              apply Nat.mul_le_mul_right
              exact Nat.add_le_add (Nat.mul_le_mul_right _ later) (Nat.zero_le _)
            refine absurd ⟨?_, lt_of_le_of_lt order inRange⟩ more
            exact Nat.mul_ne_zero (by omega) (by decide)
        have releases : ∀ other,
            Releases (Tables tables dir) ((first * nPteEntry + second) * ptSize) stop other →
              other = first := by
          rintro other ⟨⟨next, inTable, isScanned⟩, _⟩
          exact scans other next inTable isScanned
        refine ⟨exited, tables', rfl, exits.congr ?_ ?_⟩
        · intro place isPlace
          rcases counted.paged.tables_shape isPlace with rfl | ⟨other, rfl⟩ | ⟨other, next, rfl, inTable⟩
          · simp
          · simpa using releases other
          · simpa using scans other next inTable
        · intro place isPlace
          rcases counted.paged.tables_shape isPlace with rfl | ⟨other, rfl⟩ | ⟨other, next, rfl, inTable⟩
          · simp
          · simpa using releases other
          · simpa using fun inside => inside.elim (scans other next inTable) (releases other)

theorem Counted.exitRange
    (checks : (start % pgSize = 0 ∧ stop % pgSize = 0) ∧ UserAccess start stop) :
    ∃ after tables', memory.exitRange dir start stop = .ok after ∧
      Exits memory after dirs tables tables' dir (freedPlaces (Tables tables dir) start stop)
        (gonePlaces (Tables tables dir) start stop) := by
  obtain ⟨_, below, user⟩ := checks.2
  have block : start / ptSize / nPteEntry * nPteEntry + start / ptSize % nPteEntry = start / ptSize :=
    Nat.div_add_mod' _ _
  have d1start : roundDown start pdSize = start / ptSize / nPteEntry * pdSize := by
    rw [Nat.div_div_eq_div_mul]
    exact (Nat.div_mul_self_eq_mod_sub_self).symm
  have d0start : roundDown start ptSize =
      (start / ptSize / nPteEntry * nPteEntry + start / ptSize % nPteEntry) * ptSize := by
    rw [block]
    exact (Nat.div_mul_self_eq_mod_sub_self).symm
  have lower : start / ptSize * ptSize ≤ start := Nat.div_mul_le_self _ _
  unfold Memory.exitRange
  rw [if_pos checks, d1start, d0start]
  have low : start / ptSize % nPteEntry < nPteEntry := Nat.mod_lt _ (by decide)
  have inRange : (start / ptSize / nPteEntry * nPteEntry + start / ptSize % nPteEntry) * ptSize <
      stop := by
    rw [block]
    exact lt_of_le_of_lt lower below
  have enough : 2 ≤ start / ptSize / nPteEntry + nPteEntry :=
    le_trans (by decide : 2 ≤ nPteEntry) (Nat.le_add_left _ _)
  obtain ⟨after, tables', ran, exits⟩ := counted.exitLoop known bare low inRange user enough
  have scans : ∀ first second, Scans (start / ptSize * ptSize) stop first second ↔
      Scans start stop first second := by
    intro first second
    unfold Scans
    rw [Nat.mul_div_cancel _ (by decide)]
  rw [block] at exits
  refine ⟨after, tables', ran, ?_⟩
  have releases : ∀ first, Releases (Tables tables dir) (start / ptSize * ptSize) stop first ↔
      Releases (Tables tables dir) start stop first :=
    fun first => Releases.congr (fun next _ => scans first next) fun _ _ => Iff.rfl
  apply exits.congr
  · intro place _
    unfold freedPlaces
    simp only [scans, releases]
  · intro place _
    unfold gonePlaces
    simp only [scans, releases]

end Directory

end UCore.Mm
