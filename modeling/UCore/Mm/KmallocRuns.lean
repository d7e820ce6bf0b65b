import UCore.Mm.KmallocSafety

/-!
Contract: what holds between the requests to `kmalloc` and `kfree`.

Owns:
- the invariant of the heap with its big blocks, and that every request keeps it;
- the requests that are answered, and how large the blocks are that `kmalloc` hands out;
- the heap after any run of requests for small blocks.

Does not own: the page allocator, whose answers are given.
-/

set_option autoImplicit false

namespace UCore.Mm

open UCore.Lib

/-- The record of a big block. -/
def Bigblock.record (bb : Bigblock) : Extent := ⟨bb.address, slobUnit * slobUnits bigblockSize⟩

/-- The small blocks in use and the records of big blocks. -/
def KmallocSystem.taken (system : KmallocSystem) : List Extent :=
  system.live ++ system.heap.bigblocks.map Bigblock.record

/-- What holds between requests. -/
structure KmallocSound (arena : Nat) (system : KmallocSystem) (blocks : List Extent) : Prop where
  shared : SlobShared arena system.heap.slob blocks system.taken
  headers : ∀ extent ∈ system.live, slobUnit * system.heap.slob.units extent.base = extent.size
  big : ∀ bb ∈ system.heap.bigblocks, bb.pages % pgSize = 0 ∧ arena + slobUnit < bb.pages ∧
    ∀ page ∈ system.heap.slob.pages, Extent.Disjoint bb.extent ⟨page, pgSize⟩
  bigApart : system.heap.bigblocks.Pairwise fun left right =>
    Extent.Disjoint left.extent right.extent

variable {arena : Nat} {system : KmallocSystem} {blocks : List Extent}

theorem Bigblock.extent_positive (bb : Bigblock) : 0 < bb.extent.size :=
  Nat.mul_pos (show 0 < pgSize by decide) (Nat.two_pow_pos _)

/-! ## The requests -/

/-- Sizes for which the assertion of `slob_alloc` holds. -/
def Asserted (size : Nat) : Prop := size + 2 * slobUnit < pgSize ∨ pgSize ≤ size + slobUnit

instance {size : Nat} : Decidable (Asserted size) := inferInstanceAs (Decidable (_ ∨ _))

theorem kmalloc_small {fuel size : Nat} {heap : Kheap} {page pages : Option Nat}
    (small : size < pgSize - slobUnit) :
    kmalloc fuel heap size page pages =
      (slobAlloc fuel heap.slob (size + slobUnit) page).bind fun result =>
        .ok (result.1.map (· + slobUnit), { heap with slob := result.2 }) :=
  if_pos small

theorem kmalloc_big {fuel size : Nat} {heap : Kheap} {page pages : Option Nat}
    (big : ¬ size < pgSize - slobUnit) :
    kmalloc fuel heap size page pages =
      (slobAlloc fuel heap.slob bigblockSize page).bind fun result =>
        match result.1 with
        | none => .ok (none, { heap with slob := result.2 })
        | some bb =>
            let order := findOrder (int32 size)
            let slob := { result.2 with units := Function.update result.2.units bb order }
            match pages with
            | some pages => .ok (some pages, {
                slob := { slob with next := Function.update slob.next bb pages }
                bigblocks := ⟨bb, order, pages⟩ :: heap.bigblocks })
            | none =>
                (slobFree fuel { slob with next := Function.update slob.next bb 0 } bb
                  bigblockSize).bind fun slob => .ok (none, { heap with slob := slob }) := by
  rw [kmalloc, if_neg big]
  apply congrArg
  funext ⟨bb, slob⟩
  cases bb with
  | none => rfl
  | some bb => cases pages <;> rfl

/-- The assertion of `slob_alloc` fails. -/
theorem kmalloc_gap {fuel size : Nat} {heap : Kheap} {page pages : Option Nat}
    (gap : ¬ Asserted size) : kmalloc fuel heap size page pages = .error .assertFailed := by
  have gap : ¬ (size + 2 * 16 < 4096 ∨ 4096 ≤ size + 16) := gap
  have small : size < pgSize - slobUnit := show size < 4080 by omega
  have fails : ¬ size + slobUnit + slobUnit < pgSize := show ¬ size + 16 + 16 < 4096 by omega
  rw [kmalloc_small small, slobAlloc, if_neg fails]
  rfl

instance : Std.Symm Extent.Disjoint := ⟨fun _ _ => Extent.Disjoint.symm⟩

instance : Std.Symm fun left right : Bigblock => Extent.Disjoint left.extent right.extent :=
  ⟨fun _ _ => Extent.Disjoint.symm⟩

/-- A block with a small size in use is not a big block. -/
theorem KmallocSound.not_big (sound : KmallocSound arena system blocks) {extent : Extent}
    (inUse : extent ∈ system.taken) {index : Nat} (inside : index ∈ extent) :
    ∀ bb ∈ system.heap.bigblocks, bb.pages ≠ index := by
  rintro bb member rfl
  obtain ⟨page, pageMember, inPage⟩ := sound.shared.in_page inUse inside
  exact ((sound.big bb member).2.2 page pageMember).notMem (Extent.base_mem bb.extent_positive)
    inPage

/-- What `kmalloc` answers. -/
structure KmallocAnswers (arena : Nat) (system : KmallocSystem) (size : Nat) (page pages : Option Nat)
    (block : Option Nat) (heap : Kheap) : Prop where
  returns : Returns (fun fuel => kmalloc fuel system.heap size page pages) (block, heap)
  sound : ∃ blocks', KmallocSound arena (system.handOut size block heap) blocks'
  usable : ∀ block' ∈ block, heap.usable block' =
    if size < pgSize - slobUnit then slobUnit * slobUnits (size + slobUnit) - slobUnit
    else pgSize * 2 ^ findOrder (int32 size)
  /-- there is no block only where there are no pages -/
  refuses : block = none → page = none ∨ (¬ size < pgSize - slobUnit ∧ pages = none)
  bigblocks : size < pgSize - slobUnit → heap.bigblocks = system.heap.bigblocks

/-- The pages that `slob_alloc` is given. -/
theorem Answers.fresh {heap : Kheap} {size : Nat} {page pages : Option Nat}
    (answers : Answers arena heap size page pages) : ∀ page' ∈ page, page' % pgSize = 0 ∧
      arena + slobUnit < page' ∧
      (∀ other ∈ heap.slob.pages, Extent.Disjoint ⟨page', pgSize⟩ ⟨other, pgSize⟩) ∧
      ∀ bb ∈ heap.bigblocks, Extent.Disjoint ⟨page', pgSize⟩ bb.extent := by
  intro page' asked
  obtain ⟨aligned, behind, slobApart, bigApart⟩ := answers.1 page' asked
  rw [Nat.pow_zero, Nat.mul_one] at slobApart bigApart
  exact ⟨aligned, behind, slobApart, bigApart⟩

/-- The big blocks after a page was added. -/
theorem KmallocSound.big_of {size : Nat} {page pages : Option Nat} {slob' : Slob}
    (sound : KmallocSound arena system blocks) (answers : Answers arena system.heap size page pages)
    (pagesOf : ∀ page' ∈ slob'.pages, page' ∈ system.heap.slob.pages ∨ page' ∈ page) :
    ∀ bb ∈ system.heap.bigblocks, bb.pages % pgSize = 0 ∧ arena + slobUnit < bb.pages ∧
      ∀ page' ∈ slob'.pages, Extent.Disjoint bb.extent ⟨page', pgSize⟩ := by
  intro bb member
  obtain ⟨aligned, behind, apart⟩ := sound.big bb member
  refine ⟨aligned, behind, fun page' among => ?_⟩
  rcases pagesOf page' among with old | new
  · exact apart page' old
  · exact ((answers.fresh page' new).2.2.2 bb member).symm

/-- A small size -/
theorem KmallocSound.kmalloc_small {size : Nat} {page pages : Option Nat}
    (sound : KmallocSound arena system blocks) (positive : 0 < size)
    (small : size + 2 * slobUnit < pgSize) (answers : Answers arena system.heap size page pages) :
    ∃ block heap, KmallocAnswers arena system size page pages block heap := by
  have smallNat : size < 4064 := Nat.lt_sub_of_add_lt small
  have isSmall : size < pgSize - slobUnit := show size < 4080 by omega
  have fits : size + slobUnit + slobUnit < pgSize := show size + 16 + 16 < 4096 by omega
  rcases sound.shared.slobAlloc (Nat.lt_add_of_pos_left positive) fits (fun page' asked =>
      ⟨(answers.fresh page' asked).1, (answers.fresh page' asked).2.1,
        (answers.fresh page' asked).2.2.1⟩) with
    ⟨noPage, returns⟩ | ⟨m, slob', blocks', returns, given⟩
  · refine ⟨none, { system.heap with slob := system.heap.slob }, ?_, ⟨blocks, sound⟩, nofun,
      fun _ => Or.inl noPage, fun _ => rfl⟩
    refine (funext fun fuel => Mm.kmalloc_small isSmall : (fun fuel => Mm.kmalloc fuel system.heap size
      page pages) = _) ▸ ?_
    exact Returns.bind returns (Returns.ok _)
  · let heap : Kheap := { system.heap with slob := slob' }
    have handed : system.handOut size (some (m + slobUnit)) heap =
        ⟨heap, ⟨m, slobUnit * slobUnits (size + slobUnit)⟩ :: system.live⟩ := by
      change (if size < pgSize - slobUnit then _ else _) = _
      rw [if_pos isSmall, Nat.add_sub_cancel, given.units]
    have sound' : KmallocSound arena (system.handOut size (some (m + slobUnit)) heap) blocks' := by
      rw [handed]
      refine ⟨given.shared, fun extent member => ?_, sound.big_of answers given.pages,
        sound.bigApart⟩
      rcases List.mem_cons.mp member with rfl | before
      · exact congrArg (slobUnit * ·) given.units
      · exact (congrArg (slobUnit * ·) (given.headers extent (List.mem_append_left _ before))).trans
          (sound.headers extent before)
    refine ⟨some (m + slobUnit), heap, ?_, ⟨blocks', sound'⟩, ?_, nofun, fun _ => rfl⟩
    · refine (funext fun fuel => Mm.kmalloc_small isSmall : (fun fuel => Mm.kmalloc fuel system.heap size
        page pages) = _) ▸ ?_
      exact Returns.bind returns (Returns.ok _)
    · intro block' same
      obtain rfl := Option.some.inj same
      rw [if_pos isSmall]
      rw [handed] at sound'
      have inUse : (⟨m, slobUnit * slobUnits (size + slobUnit)⟩ : Extent) ∈
          (⟨heap, ⟨m, slobUnit * slobUnits (size + slobUnit)⟩ :: system.live⟩ :
            KmallocSystem).taken := List.mem_cons_self
      have large := sound'.shared.large _ inUse
      have notBig := sound'.not_big inUse (Extent.mem_def.mpr
        ⟨Nat.le_add_right m slobUnit, Nat.add_lt_add_left large m⟩)
      have notFound : (heap.bigblocks.find? fun bb => bb.pages = m + slobUnit) = none :=
        List.find?_eq_none.mpr fun bb member same => notBig bb member (of_decide_eq_true same)
      rw [Kheap.usable, notFound, Nat.add_sub_cancel]
      exact congrArg (slobUnit * · - slobUnit) given.units

/-- A size of whole pages -/
theorem KmallocSound.kmalloc_big {size : Nat} {page pages : Option Nat}
    (sound : KmallocSound arena system blocks) (big : pgSize ≤ size + slobUnit)
    (answers : Answers arena system.heap size page pages) :
    ∃ block heap, KmallocAnswers arena system size page pages block heap := by
  have notSmall : ¬ size < pgSize - slobUnit := by
    change 4096 ≤ size + 16 at big
    change ¬ size < 4080
    omega
  have handed : ∀ block heap, system.handOut size block heap = ⟨heap, system.live⟩ := by
    intro block heap
    cases block with
    | none => rfl
    | some block => exact if_neg notSmall
  have opened : (fun fuel => Mm.kmalloc fuel system.heap size page pages) = _ :=
    funext fun fuel => Mm.kmalloc_big notSmall
  rcases sound.shared.slobAlloc (show slobUnit < bigblockSize by decide)
      (show bigblockSize + slobUnit < pgSize by decide) (fun page' asked =>
      ⟨(answers.fresh page' asked).1, (answers.fresh page' asked).2.1,
        (answers.fresh page' asked).2.2.1⟩) with
    ⟨noPage, returns⟩ | ⟨m, slob', blocks', returns, given⟩
  · refine ⟨none, { system.heap with slob := system.heap.slob }, ?_, ⟨blocks, ?_⟩, nofun,
      fun _ => Or.inl noPage, fun small => absurd small notSmall⟩
    · rw [opened]
      exact Returns.bind returns (Returns.ok _)
    · rw [handed]
      exact sound
  have inUse : (⟨m, slobUnit * slobUnits bigblockSize⟩ : Extent) ∈
      (⟨m, slobUnit * slobUnits bigblockSize⟩ : Extent) :: system.taken := List.mem_cons_self
  have positive := given.shared.large _ inUse
  have inRecord : m ∈ (⟨m, slobUnit * slobUnits bigblockSize⟩ : Extent) :=
    Extent.base_mem (by omega)
  have apart := (List.pairwise_cons.mp (List.pairwise_append.mp given.shared.apart).2.1).1
  have notLive : ∀ extent ∈ system.live, extent.base ≠ m := by
    rintro extent member rfl
    have large := sound.shared.large extent (List.mem_append_left _ member)
    exact (apart extent (List.mem_append_left _ member)).notMem inRecord (Extent.base_mem (by omega))
  -- The record is filled in.
  have recorded : ∀ order link, SlobShared arena { slob' with
      units := Function.update slob'.units m order
      next := Function.update slob'.next m link } blocks'
      (⟨m, slobUnit * slobUnits bigblockSize⟩ :: system.taken) := fun order link =>
    given.shared.congr (fun block member =>
      have away := given.shared.ne_base inUse inRecord block member
      ⟨Function.update_of_ne away _ _, Function.update_of_ne away _ _⟩) rfl rfl
  have headers : ∀ order, ∀ extent ∈ system.live,
      slobUnit * Function.update slob'.units m order extent.base = extent.size := by
    intro order extent member
    rw [Function.update_of_ne (notLive extent member),
      given.headers extent (List.mem_append_left _ member)]
    exact sound.headers extent member
  cases pages with
  | some pages =>
      obtain ⟨pagesAligned, pagesBehind, pagesApart, pagesBig⟩ := answers.2.1 pages rfl
      let order := findOrder (int32 size)
      let heap : Kheap := {
        slob := { slob' with
          units := Function.update slob'.units m order
          next := Function.update slob'.next m pages }
        bigblocks := ⟨m, order, pages⟩ :: system.heap.bigblocks }
      refine ⟨some pages, heap, ?_, ⟨blocks', ?_⟩, ?_, nofun, fun small => absurd small notSmall⟩
      · rw [opened]
        exact Returns.bind returns (Returns.ok _)
      · rw [handed]
        refine ⟨(recorded order pages).perm List.perm_middle.symm, headers order, ?_,
          List.pairwise_cons.mpr ⟨fun bb member => pagesBig bb member, sound.bigApart⟩⟩
        intro bb member
        rcases List.mem_cons.mp member with rfl | before
        · refine ⟨pagesAligned, pagesBehind, fun page' among => ?_⟩
          rcases given.pages page' among with old | new
          · exact pagesApart page' old
          · exact (answers.2.2 page' new pages rfl).symm
        · exact sound.big_of answers given.pages bb before
      · intro block' same
        obtain rfl := Option.some.inj same
        have found : heap.bigblocks.find? (fun bb => bb.pages = pages) = some ⟨m, order, pages⟩ :=
          List.find?_cons_of_pos (decide_eq_true rfl)
        rw [if_neg notSmall, Kheap.usable, found]
  | none =>
      obtain ⟨slob'', blocks'', frees, shared, frame, samePages⟩ :=
        (recorded (findOrder (int32 size)) 0).slobFree (show slobUnit * (if bigblockSize ≠ 0 then
          slobUnits bigblockSize else _) = slobUnit * slobUnits bigblockSize from rfl)
      refine ⟨none, { system.heap with slob := slob'' }, ?_, ⟨blocks'', ?_⟩, nofun,
        fun _ => Or.inr ⟨notSmall, rfl⟩, fun small => absurd small notSmall⟩
      · rw [opened]
        exact Returns.bind returns (Returns.bind frees (Returns.ok _))
      · rw [handed]
        refine ⟨shared, ?_, sound.big_of answers ?_, sound.bigApart⟩
        · intro extent member
          have same := frame extent (List.mem_append_left _ member)
          exact (congrArg (slobUnit * ·) same).trans (headers _ extent member)
        · intro page' among
          rw [samePages] at among
          exact given.pages page' among

/-- `kmalloc` is answered. -/
theorem KmallocSound.kmalloc {size : Nat} {page pages : Option Nat}
    (sound : KmallocSound arena system blocks) (positive : 0 < size) (asserted : Asserted size)
    (answers : Answers arena system.heap size page pages) :
    ∃ block heap, KmallocAnswers arena system size page pages block heap := by
  rcases asserted with small | big
  · exact sound.kmalloc_small positive small answers
  · exact sound.kmalloc_big big answers

/-- One block in use and all others. -/
theorem perm_filter {live : List Extent} {extent : Extent}
    (apart : live.Pairwise Extent.Disjoint) (positive : ∀ extent ∈ live, 0 < extent.size)
    (member : extent ∈ live) :
    List.Perm live
      (extent :: live.filter fun other => smallBlock other.base ≠ smallBlock extent.base) := by
  obtain ⟨left, right, rfl⟩ := List.append_of_mem member
  have others := (List.pairwise_cons.mp ((List.perm_middle.pairwise_iff
    fun disjoint => Extent.Disjoint.symm disjoint).mp apart)).1
  have away : ∀ other ∈ left ++ right, smallBlock other.base ≠ smallBlock extent.base := by
    intro other among same
    have sameBase : other.base = extent.base := Nat.add_right_cancel same
    have otherMember : other ∈ left ++ extent :: right :=
      List.perm_middle.mem_iff.mpr (List.mem_cons_of_mem _ among)
    refine (others other among).notMem (Extent.base_mem (positive extent member)) ?_
    rw [← sameBase]
    exact Extent.base_mem (positive other otherMember)
  have kept : (left ++ extent :: right).filter
      (fun other => smallBlock other.base ≠ smallBlock extent.base) = left ++ right := by
    rw [List.filter_append, List.filter_cons_of_neg (by simp)]
    refine congrArg₂ _ (List.filter_eq_self.mpr ?_) (List.filter_eq_self.mpr ?_)
    · exact fun other among => decide_eq_true (away other (List.mem_append_left _ among))
    · exact fun other among => decide_eq_true (away other (List.mem_append_right _ among))
  rw [kept]
  exact List.perm_middle

/-- `kfree` of a small block -/
theorem KmallocSound.kfree_small {extent : Extent} (sound : KmallocSound arena system blocks)
    (member : extent ∈ system.live) :
    ∃ heap blocks',
      Returns (fun fuel => Mm.kfree fuel system.heap (smallBlock extent.base)) heap ∧
      KmallocSound arena ⟨heap, system.live.filter fun other =>
        smallBlock other.base ≠ smallBlock extent.base⟩ blocks' ∧
      heap.bigblocks = system.heap.bigblocks := by
  have inUse : extent ∈ system.taken := List.mem_append_left _ member
  have large := sound.shared.large extent inUse
  have apart := (List.pairwise_append.mp sound.shared.apart).2.1
  have perm := perm_filter (List.pairwise_append.mp apart).1
    (fun other among => Nat.zero_lt_of_lt
      (sound.shared.large other (List.mem_append_left _ among))) member
  have notNull : smallBlock extent.base ≠ 0 := Nat.succ_ne_zero _
  have notBig : (if smallBlock extent.base % pgSize = 0 then
      system.heap.bigblocks.find? fun bb => bb.pages = smallBlock extent.base else none) = none := by
    have none : (system.heap.bigblocks.find? fun bb => bb.pages = smallBlock extent.base) = none :=
      List.find?_eq_none.mpr fun bb among same => sound.not_big inUse (Extent.mem_def.mpr
        ⟨Nat.le_add_right extent.base slobUnit, Nat.add_lt_add_left large extent.base⟩) bb among
        (of_decide_eq_true same)
    rw [none, ite_self]
  have opened : (fun fuel => Mm.kfree fuel system.heap (smallBlock extent.base)) = fun fuel =>
      (slobFree fuel system.heap.slob extent.base 0).bind fun slob =>
        .ok { system.heap with slob := slob } := by
    funext fuel
    rw [Mm.kfree, if_neg notNull]
    dsimp only
    rw [notBig, smallBlock, Nat.add_sub_cancel]
    rfl
  obtain ⟨slob', blocks', frees, shared, frame, pages⟩ :=
    (sound.shared.perm (perm.append_right _)).slobFree
      (show slobUnit * (if 0 ≠ 0 then slobUnits 0 else _) = extent.size from
        sound.headers extent member)
  refine ⟨{ system.heap with slob := slob' }, blocks', ?_, ⟨shared, ?_, ?_, sound.bigApart⟩, rfl⟩
  · rw [opened]
    exact Returns.bind frees (Returns.ok _)
  · intro other among
    have old := frame other (List.mem_append_left _ among)
    exact (congrArg (slobUnit * ·) old).trans
      (sound.headers other (List.mem_of_mem_filter among))
  · change ∀ bb ∈ system.heap.bigblocks, _ ∧ _ ∧ ∀ page ∈ slob'.pages, _
    rw [pages]
    exact sound.big

/-- `kfree` of a big block -/
theorem KmallocSound.kfree_big {bb : Bigblock} (sound : KmallocSound arena system blocks)
    (member : bb ∈ system.heap.bigblocks) :
    ∃ heap blocks', Returns (fun fuel => Mm.kfree fuel system.heap bb.pages) heap ∧
      KmallocSound arena ⟨heap, system.live.filter fun other =>
        smallBlock other.base ≠ bb.pages⟩ blocks' ∧
      ∀ other ∈ heap.bigblocks, other ∈ system.heap.bigblocks := by
  obtain ⟨aligned, behind, _⟩ := sound.big bb member
  have unique : ∀ other ∈ system.heap.bigblocks, other.pages = bb.pages → other = bb := by
    intro other among same
    by_contra different
    have apart := sound.bigApart.forall among member different
    refine apart.notMem (Extent.base_mem other.extent_positive) ?_
    change other.pages ∈ bb.extent
    rw [same]
    exact Extent.base_mem bb.extent_positive
  have found : (system.heap.bigblocks.find? fun other => other.pages = bb.pages) = some bb := by
    cases search : system.heap.bigblocks.find? fun other => other.pages = bb.pages with
    | none =>
        exact absurd (decide_eq_true rfl) (List.find?_eq_none.mp search bb member)
    | some other =>
        have same : decide (other.pages = bb.pages) = true :=
          @List.find?_some _ (fun other : Bigblock => decide (other.pages = bb.pages)) _ _ search
        rw [unique other (List.mem_of_find?_eq_some search) (of_decide_eq_true same)]
  have notNull : bb.pages ≠ 0 := by omega
  have opened : (fun fuel => Mm.kfree fuel system.heap bb.pages) = fun fuel =>
      (slobFree fuel system.heap.slob bb.address bigblockSize).bind fun slob =>
        .ok ⟨slob, system.heap.bigblocks.erase bb⟩ := by
    funext fuel
    rw [Mm.kfree, if_neg notNull, if_pos aligned, found]
    rfl
  have kept : (system.live.filter fun other => smallBlock other.base ≠ bb.pages) = system.live := by
    refine List.filter_eq_self.mpr fun extent among => decide_eq_true fun same => ?_
    have inUse : extent ∈ system.taken := List.mem_append_left _ among
    have large := sound.shared.large extent inUse
    exact sound.not_big inUse (Extent.mem_def.mpr ⟨Nat.le_add_right extent.base slobUnit,
      Nat.add_lt_add_left large extent.base⟩) bb member same.symm
  have perm : List.Perm system.taken (bb.record :: (system.live ++
      (system.heap.bigblocks.erase bb).map Bigblock.record)) :=
    (((List.perm_cons_erase member).map Bigblock.record).append_left system.live).trans
      List.perm_middle
  obtain ⟨slob', blocks', frees, shared, frame, pages⟩ :=
    (sound.shared.perm perm).slobFree (show slobUnit * (if bigblockSize ≠ 0 then
      slobUnits bigblockSize else _) = bb.record.size from rfl)
  refine ⟨⟨slob', system.heap.bigblocks.erase bb⟩, blocks', ?_, ?_, fun other among =>
    List.mem_of_mem_erase among⟩
  · rw [opened]
    exact Returns.bind frees (Returns.ok _)
  · rw [kept]
    refine ⟨shared, ?_, ?_, sound.bigApart.sublist List.erase_sublist⟩
    · intro extent among
      have old := frame extent (List.mem_append_left _ among)
      exact (congrArg (slobUnit * ·) old).trans (sound.headers extent among)
    · intro other among
      change _ ∧ _ ∧ ∀ page ∈ slob'.pages, _
      rw [pages]
      exact sound.big other (List.mem_of_mem_erase among)

/-- `kfree` is answered. -/
theorem KmallocSound.kfree {block : Nat} (sound : KmallocSound arena system blocks)
    (admitted : system.Admits arena (.kfree block)) :
    ∃ heap blocks', Returns (fun fuel => Mm.kfree fuel system.heap block) heap ∧
      KmallocSound arena ⟨heap, system.live.filter fun other => smallBlock other.base ≠ block⟩
        blocks' ∧ ∀ other ∈ heap.bigblocks, other ∈ system.heap.bigblocks := by
  rcases admitted with ⟨extent, member, rfl⟩ | ⟨bb, member, rfl⟩
  · obtain ⟨heap, blocks', returns, sound', same⟩ := sound.kfree_small member
    exact ⟨heap, blocks', returns, sound', fun other among => same ▸ among⟩
  · exact sound.kfree_big member

/-- The owner of a block writes behind its header. -/
theorem KmallocSound.write {address units next : Nat} (sound : KmallocSound arena system blocks)
    (admitted : system.Admits arena (.write address units next)) :
    KmallocSound arena { system with heap := { system.heap with slob := { system.heap.slob with
      units := Function.update system.heap.slob.units address units
      next := Function.update system.heap.slob.next address next } } } blocks := by
  obtain ⟨extent, member, first, last⟩ := admitted
  have inUse : extent ∈ system.taken := List.mem_append_left _ member
  have inside : address ∈ extent := Extent.mem_def.mpr ⟨by omega, last⟩
  refine ⟨sound.shared.congr (fun block among => ?_) rfl rfl, ?_, sound.big, sound.bigApart⟩
  · have away := sound.shared.ne_base inUse inside block among
    exact ⟨Function.update_of_ne away _ _, Function.update_of_ne away _ _⟩
  · intro other among
    have away : other.base ≠ address := by
      rintro rfl
      have apart := (List.pairwise_append.mp
        (List.pairwise_append.mp sound.shared.apart).2.1).1
      have otherLarge := sound.shared.large other (List.mem_append_left _ among)
      by_cases same : other = extent
      · subst same
        have unit : 0 < slobUnit := by decide
        omega
      · exact (apart.forall among member same).notMem (Extent.base_mem (by omega)) inside
    exact (congrArg (slobUnit * ·) (Function.update_of_ne away _ _)).trans (sound.headers other among)

/-! ## Runs -/

/-- An admitted request keeps what holds. -/
theorem KmallocSound.step {request : KmallocRequest} {system' : KmallocSystem}
    (sound : KmallocSound arena system blocks) (step : KmallocStep arena system request system') :
    ∃ blocks', KmallocSound arena system' blocks' := by
  cases step with
  | @kmalloc size page pages block heap admitted returns =>
      obtain ⟨positive, _, answers⟩ := admitted
      have asserted : Asserted size := by
        by_contra gap
        obtain ⟨enough, fails⟩ := returns
        exact nomatch (kmalloc_gap gap).symm.trans (fails enough le_rfl)
      obtain ⟨block', heap', answered⟩ := sound.kmalloc positive asserted answers
      obtain ⟨rfl, rfl⟩ := Prod.mk.inj (Returns.unique answered.returns returns)
      exact answered.sound
  | @kfree block heap admitted returns =>
      obtain ⟨heap', blocks', returns', sound', _⟩ := sound.kfree admitted
      obtain rfl := Returns.unique returns' returns
      exact ⟨blocks', sound'⟩
  | write admitted => exact ⟨blocks, sound.write admitted⟩

theorem KmallocSound.initial : KmallocSound arena (.initial arena) [⟨arena, slobUnit⟩] where
  shared := .initial
  headers := nofun
  big := nofun
  bigApart := List.Pairwise.nil

theorem KmallocSound.run {requests : List KmallocRequest}
    (run : Run (KmallocStep arena) (.initial arena) requests system) :
    ∃ blocks, KmallocSound arena system blocks :=
  run.invariant (fun system => ∃ blocks, KmallocSound arena system blocks)
    (fun _ _ _ ⟨_, sound⟩ step => sound.step step) ⟨_, .initial⟩

/-- Requests for small blocks. -/
def KmallocRequest.Small : KmallocRequest → Prop
  | .kmalloc size _ _ => size + 2 * slobUnit < pgSize
  | _ => True

/-- Requests for small blocks do not add big blocks. -/
theorem KmallocStep.no_bigblocks {request : KmallocRequest} {system' : KmallocSystem}
    (step : KmallocStep arena system request system') (small : request.Small)
    (sound : KmallocSound arena system blocks) (none : system.heap.bigblocks = []) :
    system'.heap.bigblocks = [] := by
  cases step with
  | @kmalloc size page pages block heap admitted returns =>
      obtain ⟨positive, _, answers⟩ := admitted
      have smallNat : size + 2 * 16 < 4096 := small
      obtain ⟨block', heap', answered⟩ := sound.kmalloc positive (Or.inl small) answers
      obtain ⟨rfl, rfl⟩ := Prod.mk.inj (Returns.unique answered.returns returns)
      have same := (answered.bigblocks (show size < 4080 by omega)).trans none
      cases block' with
      | none => exact same
      | some block' =>
          unfold KmallocSystem.handOut
          split_ifs <;> exact same
  | @kfree block heap admitted returns =>
      obtain ⟨heap', blocks', returns', _, old⟩ := sound.kfree admitted
      obtain rfl := Returns.unique returns' returns
      rw [none] at old
      exact List.eq_nil_iff_forall_not_mem.mpr fun bb member => nomatch old bb member
  | write admitted => exact none

theorem KmallocSound.run_small {requests : List KmallocRequest}
    (run : Run (KmallocStep arena) (.initial arena) requests system)
    (small : ∀ request ∈ requests, request.Small) :
    ∃ blocks, KmallocSound arena system blocks ∧ system.heap.bigblocks = [] := by
  have along : ∀ {first last : KmallocSystem} {requests : List KmallocRequest},
      Run (KmallocStep arena) first requests last → (∀ request ∈ requests, request.Small) →
      (∃ blocks, KmallocSound arena first blocks ∧ first.heap.bigblocks = []) →
      ∃ blocks, KmallocSound arena last blocks ∧ last.heap.bigblocks = [] := by
    intro first last requests run
    induction run with
    | nil => exact fun _ start => start
    | cons step _ inductionHypothesis =>
        rintro small ⟨blocks, sound, none⟩
        obtain ⟨blocks', sound'⟩ := sound.step step
        refine inductionHypothesis (fun request member => small request
          (List.mem_cons_of_mem _ member)) ⟨blocks', sound', ?_⟩
        exact step.no_bigblocks (small _ List.mem_cons_self) sound none
  exact along run small ⟨_, .initial, rfl⟩

/-- The units of blocks. -/
theorem sum_units {slob : Slob} {extents : List Extent}
    (units : ∀ extent ∈ extents, slobUnit * slob.units extent.base = extent.size) :
    slobUnit * (extents.map fun extent => slob.units extent.base).sum = Extent.total extents := by
  induction extents with
  | nil => rfl
  | cons extent rest inductionHypothesis =>
      rw [List.map_cons, List.sum_cons, Nat.mul_add, units extent List.mem_cons_self,
        Extent.total_cons, inductionHypothesis fun other member =>
          units other (List.mem_cons_of_mem _ member)]

/-- The heap after any run of requests for small blocks. -/
theorem slob_heap_sound {requests : List KmallocRequest}
    (run : Run (KmallocStep arena) (.initial arena) requests system)
    (small : ∀ request ∈ requests, request.Small) :
    ∃ blocks, SlobHolds arena system.heap.slob blocks ∧
      (blocks ++ system.live).Pairwise Extent.Disjoint ∧
      (∀ extent ∈ system.live, extent.base % slobUnit = 0 ∧ 0 < extent.size ∧
        extent.size = slobUnit * system.heap.slob.units extent.base) ∧
      ((blocks ++ system.live).map fun extent => system.heap.slob.units extent.base).sum =
        1 + slobUnits pgSize * system.heap.slob.pages.length ∧
      ∀ request : KmallocRequest, request.Small → system.Admits arena request →
        ∃ system', KmallocStep arena system request system' := by
  obtain ⟨blocks, sound, none⟩ := KmallocSound.run_small run small
  have taken : system.taken = system.live := by
    rw [KmallocSystem.taken, none, List.map_nil, List.append_nil]
  have shared := sound.shared
  rw [taken] at shared
  refine ⟨blocks, shared.holds, shared.apart, fun extent member => ⟨shared.aligned_of member,
    Nat.zero_lt_of_lt (shared.large extent member), (sound.headers extent member).symm⟩, ?_, ?_⟩
  · have balance := shared.balance
    rw [← sum_units shared.holds.units, ← sum_units sound.headers, ← Nat.mul_add] at balance
    rw [List.map_append, List.sum_append]
    change _ = 1 + 256 * _
    change 16 * _ = 16 + 4096 * _ at balance
    omega
  · intro request isSmall admitted
    cases request with
    | kmalloc size page pages =>
        obtain ⟨block, heap, answered⟩ := sound.kmalloc admitted.1 (Or.inl isSmall) admitted.2.2
        exact ⟨_, .kmalloc admitted answered.returns⟩
    | kfree block =>
        obtain ⟨heap, _, returns, _⟩ := sound.kfree admitted
        exact ⟨_, .kfree admitted returns⟩
    | write address units next => exact ⟨_, .write admitted⟩

/-- One small block -/
theorem slob_heap_sound_once : ∃ system,
    Run (KmallocStep 16) (.initial 16) [.kmalloc 100 (some pgSize) none] system ∧
      system.live ≠ [] ∧ ∃ blocks, SlobHolds 16 system.heap.slob blocks ∧
      (blocks ++ system.live).Pairwise Extent.Disjoint ∧
      (∀ extent ∈ system.live, extent.base % slobUnit = 0 ∧ 0 < extent.size ∧
        extent.size = slobUnit * system.heap.slob.units extent.base) ∧
      ((blocks ++ system.live).map fun extent => system.heap.slob.units extent.base).sum =
        1 + slobUnits pgSize * system.heap.slob.pages.length ∧
      ∀ request : KmallocRequest, request.Small → system.Admits 16 request →
        ∃ system', KmallocStep 16 system request system' := by
  have answers : Answers 16 (KmallocSystem.initial 16).heap 100 (some pgSize) none := by
    refine ⟨?_, nofun, nofun⟩
    rintro page' ⟨⟩
    exact ⟨by decide, by decide, nofun, nofun⟩
  obtain ⟨block, heap, answered⟩ :=
    (@KmallocSound.initial 16).kmalloc_small (by decide) (by decide) answers
  have step : KmallocStep 16 (.initial 16) (.kmalloc 100 (some pgSize) none) _ :=
    .kmalloc ⟨by decide, by decide, answers⟩ answered.returns
  refine ⟨_, Run.single step, ?_, slob_heap_sound (Run.single step) ?_⟩
  · cases block with
    | none =>
        rcases answered.refuses rfl with none | ⟨big, _⟩
        · cases none
        · exact absurd (by decide) big
    | some block => exact List.cons_ne_nil _ _
  · intro request member
    rw [List.mem_singleton.mp member]
    exact show 100 + 2 * slobUnit < pgSize by decide

/-! ## Sizes -/

theorem findOrder_unfold (size : Int) :
    findOrder size = if 4096 < size then findOrder (size / 2) + 1 else 0 := by
  rw [findOrder]

/-- The order is the number of times that the size is halved. -/
theorem findOrder_bounds {size : Int} :
    size < 4097 * 2 ^ findOrder size ∧
      (findOrder size ≠ 0 → 4097 * 2 ^ findOrder size ≤ 2 * size) := by
  induction size using findOrder.induct with
  | case1 size large inductionHypothesis =>
      rw [findOrder_unfold, if_pos large]
      obtain ⟨below, above⟩ := inductionHypothesis
      rw [pow_succ]
      refine ⟨by omega, fun _ => ?_⟩
      by_cases zero : findOrder (size / 2) = 0
      · rw [zero]
        omega
      · have := above zero
        omega
  | case2 size small =>
      rw [findOrder_unfold, if_neg small]
      exact ⟨by omega, fun none => absurd rfl none⟩

/-- The sizes for which `kmalloc` gives enough. -/
def GoodSize (size : Nat) : Prop :=
  size + 2 * slobUnit < pgSize ∨ (pgSize ≤ size + slobUnit ∧ size < 2 ^ 31 ∧
    ∀ order, 0 < order → ¬ (4096 * 2 ^ order < size ∧ size < 4097 * 2 ^ order))

/-- The pages of a big block hold as much as was asked for. -/
theorem pages_enough {size : Nat} (big : pgSize ≤ size + slobUnit) :
    size ≤ pgSize * 2 ^ findOrder (int32 size) ↔ size < 2 ^ 31 ∧
      ∀ order, 0 < order → ¬ (4096 * 2 ^ order < size ∧ size < 4097 * 2 ^ order) := by
  have big : 4096 ≤ size + 16 := big
  change size ≤ 4096 * _ ↔ _
  obtain ⟨below, above⟩ := @findOrder_bounds (int32 size)
  by_cases small : size < 2 ^ 31
  · have asInt : int32 size = size := by
      unfold int32
      rw [u32_of_lt (by omega), if_pos small]
    rw [asInt] at below above ⊢
    have below : size < 4097 * 2 ^ findOrder size := by exact_mod_cast below
    have above : findOrder size ≠ 0 → 4097 * 2 ^ findOrder size ≤ 2 * size :=
      fun some => by exact_mod_cast above some
    constructor
    · intro enough
      refine ⟨small, fun order positive ⟨beyond, under⟩ => ?_⟩
      by_cases smaller : order < findOrder size
      · have doubled : 2 * 2 ^ order ≤ 2 ^ findOrder size := by
          rw [← pow_succ']
          exact Nat.pow_le_pow_right (by decide) smaller
        have := above (by omega)
        omega
      · have grows : 2 ^ findOrder size ≤ 2 ^ order :=
          Nat.pow_le_pow_right (by decide) (Nat.le_of_not_lt smaller)
        omega
    · rintro ⟨_, noGap⟩
      by_contra short
      by_cases zero : findOrder size = 0
      · rw [zero] at below short
        omega
      · exact noGap _ (Nat.pos_of_ne_zero zero) ⟨by omega, below⟩
  · refine iff_of_false ?_ fun holds => small holds.1
    by_cases zero : findOrder (int32 size) = 0
    · rw [zero]
      omega
    · have above := above zero
      have power : (2 : Int) ^ findOrder (int32 size) = ((2 ^ findOrder (int32 size) : Nat) : Int) := by
        push_cast
        rfl
      rw [power] at above
      have narrow : int32 size < 2 ^ 31 ∧ (0 ≤ int32 size → int32 size = size % 2 ^ 32) := by
        unfold int32 u32
        split_ifs <;> omega
      omega

/-- A call of `kmalloc` returns, and a block has the size that was asked for. -/
def KmallocMeets (heap : Kheap) (size : Nat) (page pages : Option Nat) : Prop :=
  ∃ block heap', Returns (fun fuel => kmalloc fuel heap size page pages) (block, heap') ∧
    ∀ block' ∈ block, size ≤ heap'.usable block'

theorem not_meets_gap {heap : Kheap} {size : Nat} {page pages : Option Nat}
    (gap : ¬ Asserted size) : ¬ KmallocMeets heap size page pages := by
  rintro ⟨block, heap', ⟨enough, returns⟩, _⟩
  exact nomatch (kmalloc_gap gap).symm.trans (returns enough le_rfl)

/-- The pages that a new heap is given. -/
theorem initial_answers {size : Nat} :
    Answers 16 (Slob.initial 16 |> (⟨·, []⟩)) size (some pgSize) (some (2 * pgSize)) := by
  refine ⟨?_, ?_, ?_⟩
  · rintro page' ⟨⟩
    exact ⟨by decide, by decide, nofun, nofun⟩
  · rintro pages' ⟨⟩
    exact ⟨by decide, by decide, nofun, nofun⟩
  · rintro page' ⟨⟩ pages' ⟨⟩
    exact Or.inl (show pgSize + pgSize ≤ 2 * pgSize by decide)

/-- A new heap hands out too few pages. -/
theorem not_meets_short {size : Nat} (positive : 0 < size) (big : pgSize ≤ size + slobUnit)
    (short : ¬ size ≤ pgSize * 2 ^ findOrder (int32 size)) :
    ¬ KmallocMeets (KmallocSystem.initial 16).heap size (some pgSize) (some (2 * pgSize)) := by
  rintro ⟨block, heap', returns, enough⟩
  obtain ⟨block', heap'', answered⟩ :=
    (@KmallocSound.initial 16).kmalloc positive (Or.inr big) initial_answers
  obtain ⟨rfl, rfl⟩ := Prod.mk.inj (Returns.unique answered.returns returns)
  have notSmall : ¬ size < pgSize - slobUnit := by
    change 4096 ≤ size + 16 at big
    change ¬ size < 4080
    omega
  cases block' with
  | none => rcases answered.refuses rfl with none | ⟨_, none⟩ <;> cases none
  | some block' =>
      have usable := answered.usable block' rfl
      rw [if_neg notSmall] at usable
      exact short (usable ▸ enough block' rfl)

/-- Exactly for these sizes, every call of `kmalloc` returns a block that is large enough, or
none. -/
theorem kmalloc_size_law {size : Nat} (positive : 1 ≤ size) :
    (∀ (arena : Nat) (requests : List KmallocRequest) (system : KmallocSystem)
      (page pages : Option Nat), Run (KmallocStep arena) (.initial arena) requests system →
      Answers arena system.heap size page pages → KmallocMeets system.heap size page pages) ↔
    GoodSize size := by
  constructor
  · intro meets
    have met := meets 16 [] _ _ _ (.nil _) initial_answers
    have asserted : Asserted size := by
      by_contra gap
      exact not_meets_gap gap met
    rcases asserted with small | big
    · exact Or.inl small
    · refine Or.inr ⟨big, (pages_enough big).mp ?_⟩
      by_contra short
      exact not_meets_short positive big short met
  · intro good arena requests system page pages run answers
    obtain ⟨blocks, sound⟩ := KmallocSound.run run
    obtain ⟨block, heap, answered⟩ :=
      sound.kmalloc positive (good.imp_right And.left) answers
    refine ⟨block, heap, answered.returns, fun block' same => ?_⟩
    rw [answered.usable block' same]
    rcases good with small | ⟨big, enough⟩
    · have smallNat : size + 2 * 16 < 4096 := small
      have isSmall : size < pgSize - slobUnit := show size < 4080 by omega
      rw [if_pos isSmall]
      change size ≤ 16 * ((size + 16 + 16 - 1) / 16) - 16
      omega
    · have notSmall : ¬ size < pgSize - slobUnit := by
        change 4096 ≤ size + 16 at big
        change ¬ size < 4080
        omega
      rw [if_neg notSmall]
      exact (pages_enough big).mpr enough

/-- Two pages and two bytes -/
theorem kmalloc_size_law_pages :
    (∀ (arena : Nat) (requests : List KmallocRequest) (system : KmallocSystem)
      (page pages : Option Nat), Run (KmallocStep arena) (.initial arena) requests system →
      Answers arena system.heap 8194 page pages → KmallocMeets system.heap 8194 page pages) ↔
    GoodSize 8194 :=
  kmalloc_size_law (by decide)

theorem initial_short : ∀ size ∈ [4070, 8193, 2 ^ 32 + 1], 1 ≤ size ∧ size < 2 ^ 64 ∧
    Answers 16 (KmallocSystem.initial 16).heap size (some pgSize) (some (2 * pgSize)) ∧
    ¬ KmallocMeets (KmallocSystem.initial 16).heap size (some pgSize) (some (2 * pgSize)) := by
  have short : ∀ size, 4096 < size → findOrder (int32 size) = 1 ∧ 8192 < size ∨
      findOrder (int32 size) = 0 →
      ¬ KmallocMeets (KmallocSystem.initial 16).heap size (some pgSize) (some (2 * pgSize)) := by
    intro size large order
    refine not_meets_short (by omega) (show 4096 ≤ size + 16 by omega) ?_
    rcases order with ⟨one, beyond⟩ | zero
    · rw [one]
      exact Nat.not_le_of_lt (show 4096 * 2 < size by omega)
    · rw [zero]
      exact Nat.not_le_of_lt (show 4096 * 1 < size by omega)
  intro size member
  simp only [List.mem_cons, List.not_mem_nil, or_false] at member
  rcases member with rfl | rfl | rfl
  · exact ⟨by decide, by decide, initial_answers, not_meets_gap (by decide)⟩
  · refine ⟨by decide, by decide, initial_answers, short _ (by decide) (Or.inl ⟨?_, by decide⟩)⟩
    have asInt : int32 8193 = 8193 := by decide
    rw [asInt, findOrder_unfold, if_pos (by decide), findOrder_unfold, if_neg (by decide)]
  · refine ⟨by decide, by decide, initial_answers, short _ (by decide) (Or.inr ?_)⟩
    have asInt : int32 (2 ^ 32 + 1) = 1 := by decide
    rw [asInt, findOrder_unfold, if_neg (by decide)]

/-- For some sizes the assertion of `slob_alloc` fails, and for others the pages hold too few
bytes. -/
theorem kmalloc_short :
    (Answers 16 (KmallocSystem.initial 16).heap 4070 (some pgSize) (some (2 * pgSize)) ∧
      ¬ KmallocMeets (KmallocSystem.initial 16).heap 4070 (some pgSize) (some (2 * pgSize))) ∧
    (Answers 16 (KmallocSystem.initial 16).heap 8193 (some pgSize) (some (2 * pgSize)) ∧
      ¬ KmallocMeets (KmallocSystem.initial 16).heap 8193 (some pgSize) (some (2 * pgSize))) ∧
    Answers 16 (KmallocSystem.initial 16).heap (2 ^ 32 + 1) (some pgSize) (some (2 * pgSize)) ∧
      ¬ KmallocMeets (KmallocSystem.initial 16).heap (2 ^ 32 + 1) (some pgSize)
        (some (2 * pgSize)) := by
  obtain ⟨_, _, early⟩ := initial_short 4070 (by simp)
  obtain ⟨_, _, rounded⟩ := initial_short 8193 (by simp)
  obtain ⟨_, _, wrapped⟩ := initial_short (2 ^ 32 + 1) (by simp)
  exact ⟨early, rounded, wrapped⟩

end UCore.Mm
