import UCore.Mm.SlobHeap

/-!
Contract: the free blocks and the blocks in use of `slob_alloc` and `slob_free`.

Owns:
- the invariant that they share the arena and the pages that were added;
- that taking a block, putting one back and adding a page keep it;
- what `slob_alloc` and `slob_free` do under it.

Does not own: the big blocks, and the runs of requests.
-/

set_option autoImplicit false

namespace UCore.Mm

open UCore.Lib

variable {arena units m : Nat} {slob slob' : Slob} {blocks blocks' taken rest : List Extent}
  {extent : Extent}

/-! ## The blocks in use -/

/-- The free blocks and the blocks in use share the arena and the pages. -/
structure SlobShared (arena : Nat) (slob : Slob) (blocks taken : List Extent) : Prop where
  holds : SlobHolds arena slob blocks
  apart : (blocks ++ taken).Pairwise Extent.Disjoint
  large : ∀ extent ∈ taken, slobUnit < extent.size
  aligned : ∀ extent ∈ blocks ++ taken, extent.base = arena ∨ extent.base % slobUnit = 0
  within : ∀ index, Extent.Covers (blocks ++ taken) index →
    index ∈ (⟨arena, slobUnit⟩ : Extent) ∨ ∃ page ∈ slob.pages, index ∈ (⟨page, pgSize⟩ : Extent)
  pages : ∀ page ∈ slob.pages, arena + slobUnit < page ∧ page % pgSize = 0
  balance : Extent.total blocks + Extent.total taken = slobUnit + pgSize * slob.pages.length

namespace SlobShared

theorem initial : SlobShared arena (Slob.initial arena) [⟨arena, slobUnit⟩] [] where
  holds := .initial
  apart := List.pairwise_singleton _ _
  large := nofun
  aligned extent member := by
    rw [List.append_nil, List.mem_singleton] at member
    exact Or.inl (member ▸ rfl)
  within index covered := by
    obtain ⟨extent, member, inside⟩ := covered
    rw [List.append_nil, List.mem_singleton] at member
    exact Or.inl (member ▸ inside)
  pages := nofun
  balance := rfl

/-- Only headers in blocks in use changed. -/
theorem congr (shared : SlobShared arena slob blocks taken)
    (same : ∀ block ∈ blocks, slob'.next block.base = slob.next block.base ∧
      slob'.units block.base = slob.units block.base)
    (start : slob'.slobfree = slob.slobfree) (pages : slob'.pages = slob.pages) :
    SlobShared arena slob' blocks taken where
  holds := shared.holds.congr (fun block member => (same block member).1)
    (fun block member => (same block member).2) start
  apart := shared.apart
  large := shared.large
  aligned := shared.aligned
  within := pages ▸ shared.within
  pages := pages ▸ shared.pages
  balance := pages ▸ shared.balance

theorem perm (shared : SlobShared arena slob blocks taken) (perm : List.Perm taken rest) :
    SlobShared arena slob blocks rest where
  holds := shared.holds
  apart := ((perm.append_left blocks).pairwise_iff fun disjoint => disjoint.symm).mp shared.apart
  large extent member := shared.large extent (perm.mem_iff.mpr member)
  aligned extent member := shared.aligned extent ((perm.append_left blocks).mem_iff.mpr member)
  within index covered := by
    obtain ⟨extent, member, inside⟩ := covered
    exact shared.within index ⟨extent, (perm.append_left blocks).mem_iff.mpr member, inside⟩
  pages := shared.pages
  balance := by
    have same : Extent.total rest = Extent.total taken := (perm.map Extent.size).sum_eq.symm
    rw [same]
    exact shared.balance

theorem apart_of (shared : SlobShared arena slob blocks taken) {block : Extent}
    (member : block ∈ blocks) (inUse : extent ∈ taken) : Extent.Disjoint block extent :=
  (List.pairwise_append.mp shared.apart).2.2 block member extent inUse

/-- The blocks in use lie in the pages. -/
theorem in_page (shared : SlobShared arena slob blocks taken) (inUse : extent ∈ taken) {index : Nat}
    (inside : index ∈ extent) : ∃ page ∈ slob.pages, index ∈ (⟨page, pgSize⟩ : Extent) := by
  refine (shared.within index ⟨extent, List.mem_append_right _ inUse, inside⟩).resolve_left ?_
  intro inArena
  obtain ⟨others, split⟩ := shared.holds.head
  exact (shared.apart_of (split ▸ List.mem_cons_self) inUse).notMem inArena inside

theorem behind_arena (shared : SlobShared arena slob blocks taken) (inUse : extent ∈ taken) :
    arena + slobUnit < extent.base := by
  have positive := shared.large extent inUse
  obtain ⟨page, member, inside⟩ := shared.in_page inUse (Extent.base_mem (by omega))
  have above := (shared.pages page member).1
  have atLeast := (Extent.mem_def.mp inside).1
  exact lt_of_lt_of_le above atLeast

theorem aligned_of (shared : SlobShared arena slob blocks taken) (inUse : extent ∈ taken) :
    extent.base % slobUnit = 0 := by
  have behind := shared.behind_arena inUse
  exact (shared.aligned extent (List.mem_append_right _ inUse)).resolve_left (by omega)

/-- Headers in blocks in use are not those of free blocks. -/
theorem ne_base (shared : SlobShared arena slob blocks taken) (inUse : extent ∈ taken) {index : Nat}
    (inside : index ∈ extent) : ∀ block ∈ blocks, block.base ≠ index := by
  rintro block member rfl
  have positive := shared.holds.positive block member
  exact (shared.apart_of member inUse).notMem (Extent.base_mem positive) inside

theorem not_covered (shared : SlobShared arena slob blocks taken) (inUse : extent ∈ taken)
    {index : Nat} (inside : index ∈ extent) : ¬ Extent.Covers blocks index := by
  rintro ⟨block, member, inBlock⟩
  exact (shared.apart_of member inUse).notMem inBlock inside

/-- A block is taken out of the free ones. -/
theorem take (shared : SlobShared arena slob blocks taken) (large : 2 ≤ units)
    (outcome : SlobTaken arena slob blocks units m slob' blocks') :
    SlobShared arena slob' blocks' (⟨m, slobUnit * units⟩ :: taken) where
  holds := outcome.holds
  apart := by
    obtain ⟨_, inUse, across⟩ := List.pairwise_append.mp shared.apart
    have free : blocks'.Pairwise Extent.Disjoint :=
      outcome.holds.separated.imp fun {lower upper} below => Or.inl (le_of_lt below)
    have unitPositive : 0 < slobUnit * units := Nat.mul_pos (by decide) (by omega)
    refine List.pairwise_append.mpr ⟨free, List.pairwise_cons.mpr ⟨?_, inUse⟩, ?_⟩
    · intro other member
      have positive := shared.large other member
      refine Extent.disjoint_of_notMem ⟨unitPositive, by omega⟩ fun index inside inOther => ?_
      exact shared.not_covered member inOther ((outcome.covers index).mpr (Or.inl inside))
    · intro block member other inUse'
      rcases List.mem_cons.mp inUse' with rfl | before
      · exact (outcome.apart block member).symm
      · have positive := shared.large other before
        refine Extent.disjoint_of_notMem ⟨outcome.holds.positive block member, by omega⟩
          fun index inside inOther => ?_
        exact shared.not_covered before inOther
          ((outcome.covers index).mpr (Or.inr ⟨block, member, inside⟩))
  large other member := by
    rcases List.mem_cons.mp member with rfl | before
    · change 16 < 16 * units
      omega
    · exact shared.large other before
  aligned other member := by
    obtain ⟨block, among, same, notArena⟩ := outcome.among
    have headAligned : m % slobUnit = 0 := by
      have either := shared.aligned block (List.mem_append_left _ among)
      rw [same] at either
      exact either.resolve_left notArena
    rcases List.mem_append.mp member with free | inUse
    · rcases outcome.bases other free with ⟨old, among, same⟩ | same
      · rw [← same]
        exact shared.aligned old (List.mem_append_left _ among)
      · right
        rw [same, Nat.add_mul_mod_self_left]
        exact headAligned
    · rcases List.mem_cons.mp inUse with rfl | before
      · exact Or.inr headAligned
      · exact shared.aligned other (List.mem_append_right _ before)
  within index covered := by
    rw [outcome.pages]
    apply shared.within index
    rw [Extent.covers_append, outcome.covers index]
    rw [Extent.covers_append, Extent.covers_cons] at covered
    rcases covered with free | inUse | before
    · exact Or.inl (Or.inr free)
    · exact Or.inl (Or.inl inUse)
    · exact Or.inr before
  pages := outcome.pages ▸ shared.pages
  balance := by
    have total := outcome.total
    have balance := shared.balance
    rw [Extent.total_cons, outcome.pages]
    dsimp only
    omega

/-- A block in use is put back. -/
theorem free (shared : SlobShared arena slob blocks (extent :: rest))
    (outcome : SlobFreed arena slob blocks extent.base extent.size slob' blocks') :
    SlobShared arena slob' blocks' rest := by
  have inUse : extent ∈ extent :: rest := List.mem_cons_self
  obtain ⟨_, later, across⟩ := List.pairwise_append.mp shared.apart
  obtain ⟨fromExtent, restApart⟩ := List.pairwise_cons.mp later
  have free : blocks'.Pairwise Extent.Disjoint :=
    outcome.holds.separated.imp fun {lower upper} below => Or.inl (le_of_lt below)
  refine ⟨outcome.holds, List.pairwise_append.mpr ⟨free, restApart, ?_⟩,
    fun other member => shared.large other (List.mem_cons_of_mem _ member), ?_, ?_, ?_, ?_⟩
  · intro block member other inRest
    have positive := shared.large other (List.mem_cons_of_mem _ inRest)
    refine Extent.disjoint_of_notMem ⟨outcome.holds.positive block member, by omega⟩
      fun index inside inOther => ?_
    rcases (outcome.covers index).mp ⟨block, member, inside⟩ with here | before
    · exact (fromExtent other inRest).notMem here inOther
    · exact shared.not_covered (List.mem_cons_of_mem _ inRest) inOther before
  · intro other member
    rcases List.mem_append.mp member with freeNow | inRest
    · rcases outcome.bases other freeNow with same | ⟨old, among, same⟩
      · rw [same]
        exact shared.aligned extent (List.mem_append_right _ inUse)
      · rw [← same]
        exact shared.aligned old (List.mem_append_left _ among)
    · exact shared.aligned other (List.mem_append_right _ (List.mem_cons_of_mem _ inRest))
  · intro index covered
    rw [outcome.pages]
    apply shared.within index
    rw [Extent.covers_append, Extent.covers_cons]
    rcases Extent.covers_append.mp covered with freeNow | inRest
    · rcases (outcome.covers index).mp freeNow with here | before
      · exact Or.inr (Or.inl here)
      · exact Or.inl before
    · exact Or.inr (Or.inr inRest)
  · exact outcome.pages ▸ shared.pages
  · have total := outcome.total
    have balance := shared.balance
    rw [Extent.total_cons] at balance
    rw [outcome.pages]
    omega

/-- A new page is put in. -/
theorem add {page : Nat} (shared : SlobShared arena slob blocks taken)
    (aligned : page % pgSize = 0) (behind : arena + slobUnit < page)
    (fresh : ∀ other ∈ slob.pages, Extent.Disjoint ⟨page, pgSize⟩ ⟨other, pgSize⟩)
    (outcome : SlobFreed arena { slob with pages := page :: slob.pages } blocks page pgSize slob'
      blocks') : SlobShared arena slob' blocks' taken := by
  obtain ⟨_, inUse, across⟩ := List.pairwise_append.mp shared.apart
  have free : blocks'.Pairwise Extent.Disjoint :=
    outcome.holds.separated.imp fun {lower upper} below => Or.inl (le_of_lt below)
  have samePages : slob'.pages = page :: slob.pages := outcome.pages
  refine ⟨outcome.holds, List.pairwise_append.mpr ⟨free, inUse, ?_⟩, shared.large, ?_, ?_, ?_, ?_⟩
  · intro block member other among
    have positive := shared.large other among
    refine Extent.disjoint_of_notMem ⟨outcome.holds.positive block member, by omega⟩
      fun index inside inOther => ?_
    rcases (outcome.covers index).mp ⟨block, member, inside⟩ with here | before
    · obtain ⟨old, oldMember, inOld⟩ := shared.in_page among inOther
      exact (fresh old oldMember).notMem here inOld
    · exact shared.not_covered among inOther before
  · intro other member
    rcases List.mem_append.mp member with freeNow | among
    · rcases outcome.bases other freeNow with same | ⟨old, oldMember, same⟩
      · right
        rw [same]
        change page % 16 = 0
        change page % 4096 = 0 at aligned
        omega
      · rw [← same]
        exact shared.aligned old (List.mem_append_left _ oldMember)
    · exact shared.aligned other (List.mem_append_right _ among)
  · intro index covered
    rw [samePages]
    have old : Extent.Covers (blocks ++ taken) index →
        index ∈ (⟨arena, slobUnit⟩ : Extent) ∨
          ∃ page' ∈ page :: slob.pages, index ∈ (⟨page', pgSize⟩ : Extent) := by
      intro before
      rcases shared.within index before with inArena | ⟨page', member, inside⟩
      · exact Or.inl inArena
      · exact Or.inr ⟨page', List.mem_cons_of_mem _ member, inside⟩
    rcases Extent.covers_append.mp covered with freeNow | among
    · rcases (outcome.covers index).mp freeNow with here | before
      · exact Or.inr ⟨page, List.mem_cons_self, here⟩
      · exact old (Extent.covers_append.mpr (Or.inl before))
    · exact old (Extent.covers_append.mpr (Or.inr among))
  · intro page' member
    rw [samePages] at member
    rcases List.mem_cons.mp member with rfl | before
    · exact ⟨behind, aligned⟩
    · exact shared.pages page' before
  · have total := outcome.total
    have balance := shared.balance
    rw [samePages, List.length_cons, Nat.mul_add]
    omega

/-- `slob_free` takes back a block in use. -/
theorem slobFree {size : Nat} (shared : SlobShared arena slob blocks (extent :: rest))
    (sized : slobUnit * (if size ≠ 0 then slobUnits size else slob.units extent.base) = extent.size) :
    ∃ slob' blocks', Returns (fun fuel => Mm.slobFree fuel slob extent.base size) slob' ∧
      SlobShared arena slob' blocks' rest ∧
      (∀ other ∈ rest, slob'.units other.base = slob.units other.base) ∧
      slob'.pages = slob.pages := by
  have inUse : extent ∈ extent :: rest := List.mem_cons_self
  have positive := shared.large extent inUse
  obtain ⟨slob', blocks', returns, freed⟩ := shared.holds.slobFree sized (by omega)
    (shared.behind_arena inUse) fun block member => (shared.apart_of member inUse).symm
  refine ⟨slob', blocks', returns, shared.free freed, fun other member => ?_, freed.pages⟩
  have otherUse : other ∈ extent :: rest := List.mem_cons_of_mem _ member
  have otherPositive := shared.large other otherUse
  have inOther : other.base ∈ other := Extent.base_mem (by omega)
  apply freed.units other.base _ (shared.ne_base otherUse inOther)
  intro same
  have restApart := (List.pairwise_append.mp shared.apart).2.1
  refine ((List.pairwise_cons.mp restApart).1 other member).notMem ?_ inOther
  rw [same]
  exact Extent.base_mem (by omega)

end SlobShared

/-- What `slob_alloc` hands out: the block `m`. -/
structure SlobGiven (arena : Nat) (slob : Slob) (taken : List Extent) (units : Nat)
    (page : Option Nat) (m : Nat) (slob' : Slob) (blocks' : List Extent) : Prop where
  shared : SlobShared arena slob' blocks' (⟨m, slobUnit * units⟩ :: taken)
  units : slob'.units m = units
  headers : ∀ extent ∈ taken, slob'.units extent.base = slob.units extent.base
  pages : ∀ page' ∈ slob'.pages, page' ∈ slob.pages ∨ page' ∈ page

/-- `slob_alloc` hands out a block, or there is no page. -/
theorem SlobShared.slobAlloc {size : Nat} {page : Option Nat}
    (shared : SlobShared arena slob blocks taken) (large : slobUnit < size)
    (small : size + slobUnit < pgSize)
    (fresh : ∀ page' ∈ page, page' % pgSize = 0 ∧ arena + slobUnit < page' ∧
      ∀ other ∈ slob.pages, Extent.Disjoint ⟨page', pgSize⟩ ⟨other, pgSize⟩) :
    (page = none ∧ Returns (fun fuel => Mm.slobAlloc fuel slob size page) (none, slob)) ∨
    ∃ m slob' blocks', Returns (fun fuel => Mm.slobAlloc fuel slob size page) (some m, slob') ∧
      SlobGiven arena slob taken (slobUnits size) page m slob' blocks' := by
  have unitsLarge : 2 ≤ slobUnits size := by
    change 16 < size at large
    change 2 ≤ (size + 16 - 1) / 16
    omega
  have freePage : ∀ page' ∈ page, ∀ block ∈ blocks, Extent.Disjoint ⟨page', pgSize⟩ block := by
    intro page' asked block member
    obtain ⟨_, behind, apart⟩ := fresh page' asked
    have positive := shared.holds.positive block member
    refine Extent.disjoint_of_notMem ⟨show 0 < pgSize by decide, positive⟩
      fun index inside inBlock => ?_
    rcases shared.within index ⟨block, List.mem_append_left _ member, inBlock⟩ with
      inArena | ⟨old, oldMember, inOld⟩
    · have first := (Extent.mem_def.mp inside).1
      have last := (Extent.mem_def.mp inArena).2
      dsimp only at first last
      omega
    · exact (apart old oldMember).notMem inside inOld
  obtain ⟨result, blocks', returns, outcome⟩ := shared.holds.slobAlloc large small
    fun page' asked => ⟨(fresh page' asked).2.1, freePage page' asked⟩
  have headersOf : ∀ {slob₁ slob' : Slob} {blocks₁ blocks' : List Extent} {m : Nat},
      SlobShared arena slob₁ blocks₁ taken →
      SlobTaken arena slob₁ blocks₁ (slobUnits size) m slob' blocks' →
      ∀ extent ∈ taken, slob'.units extent.base = slob₁.units extent.base := by
    intro slob₁ slob' blocks₁ blocks' m before outcome extent inUse
    have positive := before.large extent inUse
    exact outcome.others extent.base
      (before.not_covered inUse (Extent.base_mem (by omega)))
  cases outcome with
  | @found page m slob' blocks' outcome =>
      refine Or.inr ⟨m, slob', blocks', returns, shared.take unitsLarge outcome, outcome.units,
        headersOf shared outcome, fun page' member => Or.inl ?_⟩
      rwa [outcome.pages] at member
  | @added page m slob₁ slob' blocks₁ blocks' freed outcome =>
      obtain ⟨aligned, behind, apart⟩ := fresh page rfl
      have before := shared.add aligned behind apart freed
      refine Or.inr ⟨m, slob', blocks', returns, before.take unitsLarge outcome, outcome.units, ?_,
        fun page' member => ?_⟩
      · intro extent inUse
        have positive := shared.large extent inUse
        have inside : extent.base ∈ extent := Extent.base_mem (by omega)
        rw [headersOf before outcome extent inUse]
        refine freed.units extent.base ?_ (shared.ne_base inUse inside)
        rintro rfl
        obtain ⟨old, oldMember, inOld⟩ := shared.in_page inUse inside
        exact (apart old oldMember).notMem (Extent.base_mem (show 0 < pgSize by decide)) inOld
      · rw [outcome.pages, freed.pages] at member
        rcases List.mem_cons.mp member with rfl | before
        · exact Or.inr rfl
        · exact Or.inl before
  | none => exact Or.inl ⟨rfl, returns⟩

end UCore.Mm
