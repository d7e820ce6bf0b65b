import UCore.Mm.CopyRange
import UCore.Mm.VmaRuns

/-!
Contract: the memory of a new process, `dup_mmap` of `kern/mm/vmm.c` with the pages behind the
areas.

Owns:
- `dup_mmap` over the areas and the page tables together;
- a successful `dup_mmap` into a fresh `mm`: the same areas, equal contents in pages of its own, and
  nothing changed for any other directory.

Does not own: the other parts of a process that `do_fork` copies.
-/

set_option autoImplicit false

namespace UCore.Mm

open UCore.Lib

variable {memory middle after : Memory} {dirs : Finset Nat} {tables tables' : TableMap}
  {target source la page pte npage : Nat} {allocator : PageAllocator} {kmalloc : Vma → Bool}

/-- The loop of `dup_mmap` over the areas of the source, with the areas there is memory for. -/
def dupPagesLoop (allocator : PageAllocator) (kmalloc : Vma → Bool) (target source : Nat) :
    List Vma → CachedMm → Memory → Except Stop (Bool × CachedMm × Memory)
  | [], mm, memory => .ok (true, mm, memory)
  | vma :: rest, mm, memory =>
      match vmaCreate (kmalloc vma) vma with
      | none => .ok (false, mm, memory)
      | some nvma => do
          let mm ← insertVmaStruct mm nvma
          let (ret, memory) ← memory.copyRange allocator target source vma.vmStart vma.vmEnd
          if ret ≠ 0 then pure (false, mm, memory)
          else dupPagesLoop allocator kmalloc target source rest mm memory

/-- `dup_mmap` to the areas `mm` and the directory `target`. -/
def dupPages (allocator : PageAllocator) (kmalloc : Vma → Bool) (target source : Nat)
    (mm from' : CachedMm) (memory : Memory) : Except Stop (Bool × CachedMm × Memory) :=
  dupPagesLoop allocator kmalloc target source from'.mmapList.reverse mm memory

/-! ## The areas -/

theorem insertVmaStruct_mem {mm mm' : CachedMm} {vma other : Vma}
    (insert : insertVmaStruct mm vma = .ok mm') :
    other ∈ mm'.mmapList ↔ other = vma ∨ other ∈ mm.mmapList := by
  by_cases checks : InsertChecks mm vma
  · rw [insertVmaStruct_of_checks checks] at insert
    rw [← Except.ok.inj insert]
    exact mem_inserted
  · rw [insertVmaStruct_of_not_checks checks] at insert
    cases insert

/-- The loop does to the areas what it does where the outcomes of the copies are given. -/
theorem dupPagesLoop_areas {areas : List Vma} {mm mm' : CachedMm} {done : Bool} (apart : areas.Nodup)
    (ran : dupPagesLoop allocator kmalloc target source areas mm memory = .ok (done, mm', after)) :
    ∃ copied : Vma → Bool, (∀ vma, vma ∉ areas → copied vma = true) ∧
      dupMmapLoop kmalloc copied mm areas = .ok (done, mm') := by
  induction areas generalizing mm memory with
  | nil =>
      obtain ⟨rfl, same⟩ := Prod.mk.inj (Except.ok.inj ran)
      obtain ⟨rfl, _⟩ := Prod.mk.inj same
      exact ⟨fun _ => true, fun _ _ => rfl, rfl⟩
  | cons vma rest inductionHypothesis =>
      obtain ⟨notRest, apartRest⟩ := List.nodup_cons.mp apart
      unfold dupPagesLoop at ran
      unfold dupMmapLoop
      cases created : vmaCreate (kmalloc vma) vma with
      | none =>
          rw [created] at ran
          obtain ⟨rfl, same⟩ := Prod.mk.inj (Except.ok.inj ran)
          obtain ⟨rfl, _⟩ := Prod.mk.inj same
          exact ⟨fun _ => true, fun _ _ => rfl, rfl⟩
      | some nvma =>
          rw [created] at ran
          obtain ⟨inserted, insert, ran⟩ := bind_eq_ok ran
          obtain ⟨⟨ret, copied⟩, copy, ran⟩ := bind_eq_ok ran
          have checks : CopyRangeChecks vma.vmStart vma.vmEnd := by
            by_contra unchecked
            unfold Memory.copyRange at copy
            rw [if_neg (show ¬ ((vma.vmStart % pgSize = 0 ∧ vma.vmEnd % pgSize = 0) ∧
              UserAccess vma.vmStart vma.vmEnd) from unchecked)] at copy
            cases copy
          simp only [insert, bind, Except.bind, checks, if_true]
          by_cases zero : ret = 0
          · simp only [zero, ne_eq, not_true_eq_false, if_false] at ran
            obtain ⟨outcome, elsewhere, later⟩ := inductionHypothesis apartRest ran
            refine ⟨outcome, fun other outside => elsewhere other fun inRest =>
              outside (List.mem_cons_of_mem _ inRest), ?_⟩
            rw [if_pos (elsewhere vma notRest)]
            exact later
          · simp only [ne_eq, zero, not_false_eq_true, if_true] at ran
            obtain ⟨rfl, same⟩ := Prod.mk.inj (Except.ok.inj ran)
            obtain ⟨rfl, _⟩ := Prod.mk.inj same
            refine ⟨fun other => decide (other ≠ vma), fun other outside => decide_eq_true ?_, ?_⟩
            · exact fun same => outside (same ▸ List.mem_cons_self)
            · rw [if_neg (by simp)]
              rfl

/-! ## The pages -/

/-- The address is in one of the areas. -/
def Covered (areas : List Vma) (la : Nat) : Prop := ∃ vma ∈ areas, vma.Contains la

theorem covered_cons {vma : Vma} {rest : List Vma} :
    Covered (vma :: rest) la ↔ vma.Contains la ∨ Covered rest la := by
  unfold Covered
  rw [List.exists_mem_cons_iff]

/-- Nothing was copied yet. -/
theorem PartCopied.nothing : PartCopied memory memory dirs tables tables target source fun _ => False where
  kept _ _ := rfl
  range := .nothing (fun _ _ impossible => impossible.elim) fun _ _ impossible => impossible.elim

/-- A part of a copy changes the target only, to pages that were free. -/
theorem PartCopied.confined {within : Nat → Prop} (counted : Counted memory dirs tables)
    (known : target ∈ dirs) (copied : PartCopied memory after dirs tables tables' target source within) :
    Confined memory after dirs target within := by
  have range := copied.range
  have old : ∀ la < userTop, ¬ within la → after.pteAt target la = memory.pteAt target la :=
    fun la user outside => range.kept target known la user fun here => outside here.2
  have inside : ∀ la < userTop, ∀ page ∈ memory.free, pteTarget (after.pteAt target la) = some page →
      within la := by
    intro la user page isFree leads
    by_contra outside
    rw [old la user outside] at leads
    exact (counted.paged.dataPage known (pdx1_lt_two user) leads).used isFree
  constructor
  · exact fun root isRoot la user outside =>
      counted.paged.kept isRoot user (range.kept root isRoot la user outside) range.bytes
  · intro la user page leads
    by_cases here : within la
    · cases isSource : pteTarget (memory.pteAt source la) with
      | none =>
          rw [range.absent la user here isSource, pteTarget_zero] at leads
          cases leads
      | some original =>
          obtain ⟨npage, isFree, _, isCopy, _⟩ := range.copy la user here original isSource
          exact Or.inr (Option.some.inj (leads.symm.trans isCopy) ▸ isFree)
    · rw [old la user here] at leads
      exact Or.inl leads
  · intro la user other otherUser page isFree leads same
    by_contra differ
    exact range.apart la user (inside la user page isFree leads) other otherUser
      (inside other otherUser page isFree same) (Ne.symm differ) page leads same

section Loop

variable (counted : Counted memory dirs tables) (known : target ∈ dirs) (knownSource : source ∈ dirs)
  (distinct : source ≠ target)

include counted known knownSource distinct

/-- What the loop has copied when it ends is in the areas that it has inserted. -/
theorem Counted.dupPagesLoop {areas : List Vma} {mm mm' : CachedMm} {done : Bool}
    (apart : areas.Pairwise fun vma other => other.vmEnd ≤ vma.vmStart)
    (vacant : Vacant memory target (Covered areas))
    (ran : Mm.dupPagesLoop allocator kmalloc target source areas mm memory = .ok (done, mm', after)) :
    ∃ tables' within, PagesMoved memory after dirs tables tables' (fun _ => False) ∧
      PartCopied memory after dirs tables tables' target source within ∧
      (∀ vma ∈ mm.mmapList, vma ∈ mm'.mmapList) ∧
      (∀ la, within la → Covered areas la ∧ Covered mm'.mmapList la) ∧
      (done = true → ∀ la, Covered areas la → within la) := by
  induction areas generalizing mm memory tables with
  | nil =>
      obtain ⟨rfl, same⟩ := Prod.mk.inj (Except.ok.inj ran)
      obtain ⟨rfl, rfl⟩ := Prod.mk.inj same
      refine ⟨tables, fun _ => False, .refl counted, .nothing, fun _ member => member,
        fun _ impossible => impossible.elim, fun _ la covered => ?_⟩
      obtain ⟨_, impossible, _⟩ := covered
      cases impossible
  | cons vma rest inductionHypothesis =>
      obtain ⟨before, apartRest⟩ := List.pairwise_cons.mp apart
      unfold Mm.dupPagesLoop at ran
      cases created : vmaCreate (kmalloc vma) vma with
      | none =>
          rw [created] at ran
          obtain ⟨rfl, same⟩ := Prod.mk.inj (Except.ok.inj ran)
          obtain ⟨rfl, rfl⟩ := Prod.mk.inj same
          refine ⟨tables, fun _ => False, .refl counted, .nothing, fun _ member => member,
            fun _ impossible => impossible.elim, fun impossible => ?_⟩
          cases impossible
      | some nvma =>
          obtain rfl : nvma = vma := by
            unfold vmaCreate at created
            split_ifs at created
            exact (Option.some.inj created).symm
          rw [created] at ran
          obtain ⟨inserted, insert, ran⟩ := bind_eq_ok ran
          obtain ⟨⟨ret, copied⟩, copy, ran⟩ := bind_eq_ok ran
          obtain ⟨tables', reached, moved, inRange, atEnd, part⟩ :=
            counted.copyRange known knownSource copy
          have first := part distinct fun la user here =>
            vacant la user (covered_cons.mpr (Or.inl here))
          have inVma : ∀ la, Within nvma.vmStart reached la → nvma.Contains la :=
            fun la here => ⟨here.1, lt_of_lt_of_le here.2 inRange.2⟩
          by_cases zero : ret = 0
          · obtain rfl := atEnd zero
            simp only [zero, ne_eq, not_true_eq_false, if_false] at ran
            have disjoint : ∀ la, Covered rest la → ¬ Within nvma.vmStart nvma.vmEnd la := by
              intro la there here
              obtain ⟨other, member, contains⟩ := there
              exact absurd (lt_of_lt_of_le contains.2 (before other member)) (not_lt.mpr here.1)
            have stillVacant := first.range.vacant_rest known (fun la _ => disjoint la)
              fun la user there => vacant la user (covered_cons.mpr (Or.inr there))
            obtain ⟨tables'', within, rest, second, more, inside, whole⟩ :=
              inductionHypothesis moved.counted apartRest stillVacant ran
            have both := first.trans counted moved.counted known knownSource distinct
              (fun la _ here => disjoint la (inside la here).1) second
            refine ⟨tables'', _, moved.trans rest, both, fun other member =>
              more other ((insertVmaStruct_mem insert).mpr (Or.inr member)), ?_, ?_⟩
            · rintro la (here | there)
              · exact ⟨covered_cons.mpr (Or.inl here), nvma,
                  more nvma ((insertVmaStruct_mem insert).mpr (Or.inl rfl)), here⟩
              · obtain ⟨inRest, inList⟩ := inside la there
                exact ⟨covered_cons.mpr (Or.inr inRest), inList⟩
            · exact fun isDone la covered => (covered_cons.mp covered).imp id (whole isDone la)
          · simp only [ne_eq, zero, not_false_eq_true, if_true] at ran
            obtain ⟨rfl, same⟩ := Prod.mk.inj (Except.ok.inj ran)
            obtain ⟨rfl, rfl⟩ := Prod.mk.inj same
            refine ⟨tables', _, moved, first, fun other member =>
              (insertVmaStruct_mem insert).mpr (Or.inr member), fun la here => ?_, fun impossible => ?_⟩
            · exact ⟨covered_cons.mpr (Or.inl (inVma la here)), nvma,
                (insertVmaStruct_mem insert).mpr (Or.inl rfl), inVma la here⟩
            · cases impossible

end Loop

/-! ## A copy of its own -/

/-- The flags of a copy are those of the entry it was made from. -/
theorem copiedPte_user (valid : pteValid pte) : copiedPte npage pte &&& pteUser = pte &&& pteUser := by
  have small : ∀ flags < 32, flags % 2 = 1 → (pteV ||| flags) % 32 = flags := by decide
  have isMask : ∀ value, value &&& pteUser = value % 32 := fun value =>
    Nat.and_two_pow_sub_one_eq_mod value 5
  have flags := small (pte % 32) (Nat.mod_lt _ (by decide)) (by unfold pteValid at valid; omega)
  unfold copiedPte
  rw [isMask, isMask, pteCreate_eq (Nat.or_lt_two_pow (by decide)
    (lt_of_lt_of_le (Nat.mod_lt _ (by decide)) (by decide))), ← Nat.or_assoc, Nat.or_self]
  omega

/-- What a copy of the areas of `source` leaves in `target`. -/
structure ForkedCopy (memory after : Memory) (dirs : Finset Nat) (target source : Nat)
    (areas : List Vma) : Prop where
  /-- equal contents with the same rights, in pages that were free -/
  copy : ∀ la < userTop, Covered areas la → ∀ page, pteTarget (memory.pteAt source la) = some page →
    ∃ npage ∈ memory.free, pteTarget (after.pteAt target la) = some npage ∧
      after.pteAt target la &&& pteUser = memory.pteAt source la &&& pteUser ∧
      after.bytes npage = memory.bytes page
  /-- and nothing else -/
  absent : ∀ la < userTop, ¬ (Covered areas la ∧ pteTarget (memory.pteAt source la) ≠ none) →
    after.pteAt target la = 0
  /-- no page is shared, with another directory or inside the copy -/
  own : ∀ la < userTop, ∀ npage, pteTarget (after.pteAt target la) = some npage →
    ∀ root ∈ dirs, ∀ other < userTop, pteTarget (after.pteAt root other) = some npage →
      root = target ∧ pagePath other = pagePath la
  others : ∀ root ∈ dirs, root ≠ target → ∀ la < userTop,
    after.pteAt root la = memory.pteAt root la
  pages : ∀ page, memory.Maps dirs page →
    after.bytes page = memory.bytes page ∧ after.ref page = memory.ref page

/-- `dup_mmap` comes to a page for whose contents there is no page. -/
inductive DupStops (allocator : PageAllocator) (kmalloc : Vma → Bool) (target source : Nat) :
    List Vma → Memory → Prop
  | here {vma : Vma} {rest : List Vma} {memory : Memory} : kmalloc vma = true →
      Memory.CopyStops allocator target source vma.vmEnd memory vma.vmStart →
      DupStops allocator kmalloc target source (vma :: rest) memory
  | next {vma : Vma} {rest : List Vma} {memory middle : Memory} : kmalloc vma = true →
      memory.copyRange allocator target source vma.vmStart vma.vmEnd = .ok (0, middle) →
      DupStops allocator kmalloc target source rest middle →
      DupStops allocator kmalloc target source (vma :: rest) memory

theorem dupStops_iff {vma : Vma} {rest : List Vma} {ret : Int}
    (copy : memory.copyRange allocator target source vma.vmStart vma.vmEnd = .ok (ret, after))
    (notHere : ¬ Memory.CopyStops allocator target source vma.vmEnd memory vma.vmStart) :
    DupStops allocator kmalloc target source (vma :: rest) memory ↔
      kmalloc vma = true ∧ ret = 0 ∧ DupStops allocator kmalloc target source rest after := by
  constructor
  · intro stops
    cases stops with
    | here _ missing => exact absurd missing notHere
    | next enough other stops =>
        rw [copy] at other
        obtain ⟨rfl, rfl⟩ := Prod.mk.inj (Except.ok.inj other)
        exact ⟨enough, rfl, stops⟩
  · rintro ⟨enough, rfl, stops⟩
    exact .next enough copy stops

/-- Nothing else stops the loop: no area overlaps those that it has inserted. -/
theorem Counted.dupPagesLoop_returns {areas : List Vma} {mm : CachedMm}
    (counted : Counted memory dirs tables) (known : target ∈ dirs) (knownSource : source ∈ dirs)
    (sound : MmSound mm) (whole : VmasSound (areas.reverse ++ mm.mmapList)) :
    (DupStops allocator kmalloc target source areas memory ∧
      Mm.dupPagesLoop allocator kmalloc target source areas mm memory = .error .assertFailed) ∨
    (¬ DupStops allocator kmalloc target source areas memory ∧ ∃ done mm' after,
      Mm.dupPagesLoop allocator kmalloc target source areas mm memory = .ok (done, mm', after)) := by
  induction areas generalizing mm memory tables with
  | nil =>
      refine Or.inr ⟨?_, true, mm, memory, rfl⟩
      intro stops
      cases stops
  | cons vma rest inductionHypothesis =>
      obtain ⟨insert, sound', _, whole', checks⟩ := insertVmaStruct_last sound whole
      unfold Mm.dupPagesLoop vmaCreate
      by_cases enough : kmalloc vma = true
      · rw [if_pos enough]
        simp only [insert, bind, Except.bind]
        rcases counted.copyRange_returns known knownSource checks with
          ⟨missing, stops⟩ | ⟨notHere, ret, copied, copy⟩
        · rw [stops]
          exact Or.inl ⟨.here enough missing, rfl⟩
        · obtain ⟨_, _, moved, _⟩ := counted.copyRange known knownSource copy
          rw [dupStops_iff copy notHere]
          simp only [copy]
          by_cases zero : ret = 0
          · subst zero
            rw [if_neg (not_not.mpr rfl)]
            rcases inductionHypothesis moved.counted sound' whole' with stops | ⟨goesOn, returns⟩
            · exact Or.inl ⟨⟨enough, rfl, stops.1⟩, stops.2⟩
            · exact Or.inr ⟨fun stops => goesOn stops.2.2, returns⟩
          · rw [if_pos zero]
            exact Or.inr ⟨fun stops => zero stops.2.1, _, _, _, rfl⟩
      · rw [if_neg enough]
        refine Or.inr ⟨?_, _, _, _, rfl⟩
        intro stops
        cases stops with
        | here enough' _ => exact enough enough'
        | next enough' _ _ => exact enough enough'

/-- `dup_mmap` into a new `mm` returns, or comes to a page for whose contents there is no page. -/
theorem Counted.dupPages_returns {from' : CachedMm} (counted : Counted memory dirs tables)
    (known : target ∈ dirs) (knownSource : source ∈ dirs) (sound : MmSound from') :
    (DupStops allocator kmalloc target source from'.mmapList.reverse memory ∧
      Mm.dupPages allocator kmalloc target source CachedMm.mmCreate from' memory =
        .error .assertFailed) ∨
    (¬ DupStops allocator kmalloc target source from'.mmapList.reverse memory ∧
      ∃ done mm' after, Mm.dupPages allocator kmalloc target source CachedMm.mmCreate from' memory =
        .ok (done, mm', after)) := by
  apply counted.dupPagesLoop_returns known knownSource MmSound.mmCreate
  rw [List.reverse_reverse]
  exact (List.append_nil from'.mmapList).symm ▸ sound.vmas

section Fork

variable {areas : List Vma} (counted : Counted memory dirs tables) (known : target ∈ dirs)
  (knownSource : source ∈ dirs) (distinct : source ≠ target)
  (vacant : Vacant memory target fun _ => True)

include counted known vacant

theorem PartCopied.forked (later : Counted after dirs tables')
    (copied : PartCopied memory after dirs tables tables' target source (Covered areas)) :
    ForkedCopy memory after dirs target source areas := by
  have range := copied.range
  have absent : ∀ la < userTop, ¬ (Covered areas la ∧ pteTarget (memory.pteAt source la) ≠ none) →
      after.pteAt target la = 0 := by
    intro la user outside
    by_cases covered : Covered areas la
    · exact range.absent la user covered (not_not.mp fun leads => outside ⟨covered, leads⟩)
    · rw [range.kept target known la user fun here => covered here.2, vacant la user trivial]
  -- what the target maps afterwards is a copy in a page that was free
  have isCopy : ∀ la < userTop, ∀ npage, pteTarget (after.pteAt target la) = some npage →
      Covered areas la ∧ npage ∈ memory.free := by
    intro la user npage leads
    by_cases inside : Covered areas la ∧ pteTarget (memory.pteAt source la) ≠ none
    · obtain ⟨page, isPage⟩ := Option.ne_none_iff_exists'.mp inside.2
      obtain ⟨fresh, isFree, _, isFresh, _⟩ := range.copy la user inside.1 page isPage
      rw [leads] at isFresh
      exact ⟨inside.1, Option.some.inj isFresh ▸ isFree⟩
    · rw [absent la user inside, pteTarget_zero] at leads
      cases leads
  have others : ∀ root ∈ dirs, root ≠ target → ∀ la < userTop,
      after.pteAt root la = memory.pteAt root la :=
    fun root isRoot apart la user => range.kept root isRoot la user fun here => apart here.1
  refine ⟨?_, absent, ?_, others, ?_⟩
  · intro la user covered page leads
    obtain ⟨npage, isFree, entry, isFresh, contents⟩ := range.copy la user covered page leads
    refine ⟨npage, isFree, isFresh, ?_, contents⟩
    rw [entry]
    exact copiedPte_user (pteTarget_some.mp leads).1
  · intro la user npage leads root isRoot other otherUser same
    obtain ⟨covered, isFree⟩ := isCopy la user npage leads
    by_cases isTarget : root = target
    · subst isTarget
      refine ⟨rfl, ?_⟩
      by_contra differ
      obtain ⟨otherCovered, _⟩ := isCopy other otherUser npage same
      exact range.apart la user covered other otherUser otherCovered differ npage leads same
    · rw [others root isRoot isTarget other otherUser] at same
      exact absurd isFree (counted.maps_used ⟨root, isRoot, other, otherUser, same⟩)
  · intro page maps
    have data := counted.paged.maps_data maps
    have notTarget : ∀ la < userTop, pteTarget (after.pteAt target la) ≠ some page :=
      fun la user leads => data.used (isCopy la user page leads).2
    have stillMaps : after.Maps dirs page := by
      obtain ⟨root, isRoot, la, user, leads⟩ := maps
      have apart : root ≠ target := by
        rintro rfl
        rw [vacant la user trivial, pteTarget_zero] at leads
        cases leads
      exact ⟨root, isRoot, la, user, by rw [others root isRoot apart la user, leads]⟩
    refine ⟨range.bytes page data.unowned data.used, ?_⟩
    rw [later.exact page (later.paged.maps_data stillMaps), counted.exact page data]
    apply tally_eq_of_mem
    intro slot within
    rw [Finset.mem_product, Finset.mem_range] at within
    have small : slot.2 < userTop / pgSize := within.2
    have inUser : slot.2 * pgSize < userTop := by
      unfold userTop pgSize at small
      unfold userTop pgSize
      omega
    by_cases isTarget : slot.1 = target
    · rw [isTarget, vacant _ inUser trivial, pteTarget_zero]
      exact (decide_eq_false (notTarget _ inUser)).trans
        (decide_eq_false (by rintro ⟨⟩)).symm
    · rw [others slot.1 within.1 isTarget _ inUser]

include knownSource distinct

/-- `dup_mmap` into a new `mm`, whose directory has no user entry: whatever it did when it stops is
in the areas of the new `mm`, and if it succeeds the new `mm` has the areas of the source and copies
of its pages. -/
theorem Counted.dupPages {from' mm' : CachedMm} {done : Bool} (sound : MmSound from')
    (ran : Mm.dupPages allocator kmalloc target source CachedMm.mmCreate from' memory =
      .ok (done, mm', after)) :
    MmSound mm' ∧ ∃ tables', PagesMoved memory after dirs tables tables' (fun _ => False) ∧
      Confined memory after dirs target (fun _ => True) ∧
      (∀ la < userTop, pteTarget (after.pteAt target la) ≠ none → Covered mm'.mmapList la) ∧
      (done = true → mm'.mmapList = from'.mmapList ∧
        ForkedCopy memory after dirs target source from'.mmapList) := by
  have apart := List.pairwise_reverse.mpr sound.vmas.apart
  have sameAreas : ∀ la, Covered from'.mmapList.reverse la ↔ Covered from'.mmapList la := by
    intro la
    simp only [Covered, List.mem_reverse]
  have nodup : from'.mmapList.reverse.Nodup := by
    apply List.Pairwise.imp_of_mem _ apart
    intro vma other isVma _ order same
    have nonempty := (sound.vmas.each vma (List.mem_reverse.mp isVma)).nonempty
    rw [same] at nonempty order
    exact absurd nonempty (not_lt.mpr order)
  obtain ⟨copied, _, areas⟩ := dupPagesLoop_areas nodup ran
  obtain ⟨result, mm'', returns, soundCopy, rest, split, finished⟩ :=
    dupMmap_returns kmalloc copied sound MmSound.mmCreate rfl
  obtain ⟨rfl, rfl⟩ := Prod.mk.inj (Except.ok.inj (areas.symm.trans returns))
  obtain ⟨tables', within, moved, part, _, inside, whole⟩ := counted.dupPagesLoop known knownSource
    distinct apart (fun la user _ => vacant la user trivial) ran
  have confined := part.confined counted known
  refine ⟨soundCopy, tables', moved, confined.weaken fun _ _ => trivial, fun la user leads => ?_,
    fun isDone => ⟨?_, ?_⟩⟩
  · by_contra outside
    have kept := confined.kept target known la user fun here => outside (inside la here.2).2
    rw [kept.pte, vacant la user trivial] at leads
    exact leads pteTarget_zero
  · rw [split, finished isDone, List.nil_append]
  · have sameWithin : ∀ la < userTop, within la ↔ Covered from'.mmapList la := fun la _ =>
      ⟨fun here => (sameAreas la).mp (inside la here).1,
        fun covered => whole isDone la ((sameAreas la).mpr covered)⟩
    have copiedAll : PartCopied memory after dirs tables tables' target source
        (Covered from'.mmapList) := ⟨part.kept, part.range.congr sameWithin⟩
    exact copiedAll.forked counted known vacant moved.counted

end Fork

end UCore.Mm
