import UCore.Mm.FreeList

/-!
Contract: what the shared free-list code does to the sequence of blocks it keeps.

Owns:
- `Represents`, which says that the state lists exactly a given sequence of blocks, in address
  order, linked both ways, with the size and the flag of every head in place;
- one theorem per function of `FreeList`, in terms of that sequence.

The insertion is specified where its loop leaves through the `break`: either the list is empty
or its last block lies above the new one.
-/

set_option autoImplicit false

namespace UCore.Mm

open UCore.Lib UCore.Libs

/-- The list entries of a sequence of blocks. -/
def entries (blocks : List Extent) : List (ListEntry Unit) :=
  blocks.map fun block => .pageLink block.base

@[simp] theorem entries_nil : entries [] = [] := rfl

@[simp] theorem entries_cons (block : Extent) (rest : List Extent) :
    entries (block :: rest) = .pageLink block.base :: entries rest := rfl

@[simp] theorem entries_append (left right : List Extent) :
    entries (left ++ right) = entries left ++ entries right := List.map_append

theorem pageLink_mem_entries {blocks : List Extent} {page : Nat} :
    .pageLink page ∈ entries blocks ↔ ∃ block ∈ blocks, block.base = page := by
  simp [entries]

theorem mem_middle {block other : Extent} {left right : List Extent} :
    other ∈ left ++ block :: right ↔ other = block ∨ other ∈ left ++ right := by
  rw [List.perm_middle.mem_iff, List.mem_cons]

/-- Address order without overlap. -/
def Sorted (blocks : List Extent) : Prop :=
  blocks.Pairwise fun lower upper => lower.base + lower.size ≤ upper.base

/-- `block` was joined with the block that ends where it starts, if there is one. -/
def JoinsPrevious (left : List Extent) (block : Extent) (left' : List Extent)
    (block' : Extent) : Prop :=
  (left' = left ∧ block' = block ∧ ∀ lower ∈ left, lower.base + lower.size ≠ block.base) ∨
    ∃ lower, left = left' ++ [lower] ∧ lower.base + lower.size = block.base ∧
      block' = ⟨lower.base, lower.size + block.size⟩

/-- `block` was joined with the block that starts where it ends, if there is one. -/
def JoinsNext (block : Extent) (right : List Extent) (block' : Extent)
    (right' : List Extent) : Prop :=
  (right' = right ∧ block' = block ∧ ∀ upper ∈ right, block.base + block.size ≠ upper.base) ∨
    ∃ upper, right = upper :: right' ∧ block.base + block.size = upper.base ∧
      block' = ⟨block.base, block.size + upper.size⟩

section Joins

variable {left left' right right' : List Extent} {block block' : Extent}

theorem JoinsPrevious.covers (joins : JoinsPrevious left block left' block') (page : Nat) :
    Extent.Covers left' page ∨ page ∈ block' ↔ Extent.Covers left page ∨ page ∈ block := by
  rcases joins with ⟨rfl, rfl, _⟩ | ⟨lower, rfl, adjacent, rfl⟩
  · rfl
  · simp only [Extent.covers_append, Extent.covers_cons, Extent.mem_def, or_assoc]
    have nothing : ¬ Extent.Covers [] page := by simp [Extent.Covers]
    simp only [nothing, false_or]
    refine or_congr_right ?_
    omega

theorem JoinsPrevious.total (joins : JoinsPrevious left block left' block') :
    Extent.total left' + block'.size = Extent.total left + block.size := by
  rcases joins with ⟨rfl, rfl, _⟩ | ⟨lower, rfl, _, rfl⟩
  · rfl
  · simp only [Extent.total_append, Extent.total_cons, Extent.total_nil]
    omega

theorem JoinsPrevious.separated (joins : JoinsPrevious left block left' block')
    (separated : Extent.Separated (left ++ right))
    (ordered : ∀ lower ∈ left, lower.base + lower.size ≤ block.base) :
    Extent.Separated (left' ++ right) ∧ ∀ lower ∈ left', lower.base + lower.size < block'.base := by
  rcases joins with ⟨rfl, rfl, apart⟩ | ⟨last, rfl, _, rfl⟩
  · refine ⟨separated, fun lower member => ?_⟩
    exact Nat.lt_of_le_of_ne (ordered lower member) (apart lower member)
  · refine ⟨separated.sublist ?_, fun lower member => ?_⟩
    · exact List.Sublist.append_right (List.sublist_append_left left' [last]) right
    · unfold Extent.Separated at separated
      rw [List.append_assoc, List.pairwise_append] at separated
      exact separated.2.2 lower member last (by simp)

theorem JoinsNext.covers (joins : JoinsNext block right block' right') (page : Nat) :
    page ∈ block' ∨ Extent.Covers right' page ↔ page ∈ block ∨ Extent.Covers right page := by
  rcases joins with ⟨rfl, rfl, _⟩ | ⟨upper, rfl, adjacent, rfl⟩
  · rfl
  · simp only [Extent.covers_cons, Extent.mem_def, ← or_assoc]
    refine or_congr_left ?_
    omega

theorem JoinsNext.total (joins : JoinsNext block right block' right') :
    block'.size + Extent.total right' = block.size + Extent.total right := by
  rcases joins with ⟨rfl, rfl, _⟩ | ⟨upper, rfl, _, rfl⟩
  · rfl
  · simp only [Extent.total_cons]
    omega

theorem JoinsNext.separated (joins : JoinsNext block right block' right')
    (separated : Extent.Separated (left ++ right))
    (ordered : ∀ upper ∈ right, block.base + block.size ≤ upper.base) :
    Extent.Separated (left ++ right') ∧
      ∀ upper ∈ right', block'.base + block'.size < upper.base := by
  rcases joins with ⟨rfl, rfl, apart⟩ | ⟨first, rfl, adjacent, rfl⟩
  · refine ⟨separated, fun upper member => ?_⟩
    exact Nat.lt_of_le_of_ne (ordered upper member) (apart upper member)
  · refine ⟨separated.sublist ?_, fun upper member => ?_⟩
    · exact List.Sublist.append_left (List.sublist_cons_self first right') left
    · unfold Extent.Separated at separated
      rw [List.pairwise_append, List.pairwise_cons] at separated
      have := separated.2.1.1 upper member
      show block.base + (block.size + first.size) < upper.base
      omega

theorem JoinsNext.base (joins : JoinsNext block right block' right') :
    block'.base = block.base := by
  rcases joins with ⟨_, rfl, _⟩ | ⟨_, _, _, rfl⟩ <;> rfl

/-- The freed block was listed, joined with the blocks directly before and after it. -/
def JoinsFreed (blocks : List Extent) (freed : Extent) (blocks' : List Extent) : Prop :=
  ∃ lower upper lower' upper' joined whole, blocks = lower ++ upper ∧
    blocks' = lower' ++ whole :: upper' ∧ Sorted (lower ++ freed :: upper) ∧
    JoinsPrevious lower freed lower' joined ∧ JoinsNext joined upper whole upper' ∧
    ∀ block ∈ upper, joined.base + joined.size ≤ block.base

namespace JoinsFreed

variable {blocks blocks' : List Extent} {freed : Extent}

theorem covers (joins : JoinsFreed blocks freed blocks') (page : Nat) :
    Extent.Covers blocks' page ↔ page ∈ freed ∨ Extent.Covers blocks page := by
  obtain ⟨lower, upper, lower', upper', joined, whole, rfl, rfl, _, previous, next, _⟩ := joins
  have below := previous.covers page
  have above := next.covers page
  simp only [Extent.covers_append, Extent.covers_cons] at *
  grind

theorem total (joins : JoinsFreed blocks freed blocks') :
    Extent.total blocks' = freed.size + Extent.total blocks := by
  obtain ⟨lower, upper, lower', upper', joined, whole, rfl, rfl, _, previous, next, _⟩ := joins
  have below := previous.total
  have above := next.total
  simp only [Extent.total_append, Extent.total_cons] at *
  omega

theorem separated (joins : JoinsFreed blocks freed blocks')
    (separated : Extent.Separated blocks) : Extent.Separated blocks' := by
  obtain ⟨lower, upper, lower', upper', joined, whole, rfl, rfl, sorted, previous, next, ordered⟩ :=
    joins
  have before : ∀ block ∈ lower, block.base + block.size ≤ freed.base := fun block member =>
    (List.pairwise_append.mp sorted).2.2 block member freed List.mem_cons_self
  obtain ⟨separatedBelow, below⟩ := previous.separated separated before
  obtain ⟨separatedBoth, above⟩ := next.separated separatedBelow ordered
  exact separatedBoth.insert (by rw [next.base]; exact below) above

end JoinsFreed

end Joins

/-- The free list holds exactly `blocks`. -/
structure Represents (pmm : Pmm Unit) (blocks : List Extent) : Prop where
  ring : IsRing pmm.links freeList (entries blocks)
  sorted : Sorted blocks
  positive : ∀ block ∈ blocks, 0 < block.size
  property : ∀ block ∈ blocks, pmm.property block.base = block.size
  flagged : ∀ page, pmm.pageProperty page = true ↔ ∃ block ∈ blocks, block.base = page
  count : pmm.nrFree () = Extent.total blocks

/-- The last listed block, if there is one, lies above `base`. -/
def LastAbove (pmm : Pmm Unit) (base : Nat) : Prop :=
  ∀ page, listPrev pmm.links freeList = .pageLink page → base < page

instance (pmm : Pmm Unit) (base : Nat) : Decidable (LastAbove pmm base) :=
  match atEnd : listPrev pmm.links freeList with
  | .freeList _ => isTrue fun _ same => by simp [atEnd] at same
  | .pageLink last =>
      if above : base < last then
        isTrue fun page same => by
          rw [atEnd, ListEntry.pageLink.injEq] at same
          exact same ▸ above
      else isFalse fun lastAbove => above (lastAbove last atEnd)

/-! ## The loops over the pages of a block -/

theorem clearReserved_ok {ι : Type} (pmm : Pmm ι) (base count : Nat)
    (reserved : ∀ page ∈ (⟨base, count⟩ : Extent), pmm.pageReserved page = true) :
    ∃ cleared, clearReserved pmm base count = .ok cleared ∧
      cleared.links = pmm.links ∧ cleared.nrFree = pmm.nrFree ∧
      ∀ page, cleared.pages page =
        if page ∈ (⟨base, count⟩ : Extent) then ⟨0, .clear, 0⟩ else pmm.pages page := by
  induction count generalizing pmm base with
  | zero =>
      refine ⟨pmm, rfl, rfl, rfl, fun page => ?_⟩
      rw [if_neg (by simp [Extent.mem_def])]
  | succ count inductionHypothesis =>
      have first : pmm.pageReserved base = true := reserved base (by simp [Extent.mem_def])
      obtain ⟨cleared, run, links, nrFree, pages⟩ := inductionHypothesis
        (pmm.modifyPage base fun _ => ⟨0, .clear, 0⟩) (base + 1) (by
          intro page member
          have same := reserved page (by simp only [Extent.mem_def] at member ⊢; omega)
          have different : page ≠ base := by simp only [Extent.mem_def] at member; omega
          simpa [Pmm.pageReserved, Function.update_of_ne different] using same)
      refine ⟨cleared, ?_, links, nrFree, fun page => ?_⟩
      · rw [clearReserved, if_pos first, run]
      · rw [pages page, Pmm.modifyPage_pages]
        simp only [Extent.mem_def]
        by_cases same : page = base
        · subst same
          simp
        · rw [Function.update_of_ne same]
          split_ifs <;> first | rfl | omega

theorem clearAllocated_ok {ι : Type} (pmm : Pmm ι) (base count : Nat)
    (allocated : ∀ page ∈ (⟨base, count⟩ : Extent),
      pmm.pageReserved page = false ∧ pmm.pageProperty page = false) :
    ∃ cleared, clearAllocated pmm base count = .ok cleared ∧
      cleared.links = pmm.links ∧ cleared.nrFree = pmm.nrFree ∧
      ∀ page, cleared.pages page =
        if page ∈ (⟨base, count⟩ : Extent) then
          { pmm.pages page with ref := 0, flags := .clear }
        else pmm.pages page := by
  induction count generalizing pmm base with
  | zero =>
      refine ⟨pmm, rfl, rfl, rfl, fun page => ?_⟩
      rw [if_neg (by simp [Extent.mem_def])]
  | succ count inductionHypothesis =>
      have first := allocated base (by simp [Extent.mem_def])
      obtain ⟨cleared, run, links, nrFree, pages⟩ := inductionHypothesis
        (pmm.modifyPage base fun page => { page with ref := 0, flags := .clear }) (base + 1) (by
          intro page member
          have same := allocated page (by simp only [Extent.mem_def] at member ⊢; omega)
          have different : page ≠ base := by simp only [Extent.mem_def] at member; omega
          simpa [Pmm.pageReserved, Pmm.pageProperty, Function.update_of_ne different] using same)
      refine ⟨cleared, ?_, links, nrFree, fun page => ?_⟩
      · rw [clearAllocated, first.1, first.2]
        exact run
      · rw [pages page, Pmm.modifyPage_pages]
        simp only [Extent.mem_def]
        by_cases same : page = base
        · subst same
          simp
        · rw [Function.update_of_ne same]
          split_ifs <;> first | rfl | omega

/-! ## The insertion loop -/

theorem insertLoop_ok {links : Links (ListEntry Unit)} {base : Nat} {left right : List Extent}
    (ring : IsRing links freeList (entries (left ++ right)))
    (sorted : Sorted right)
    (fresh : ∀ block ∈ left ++ right, block.base ≠ base)
    (below : ∀ block ∈ left, block.base < base)
    (above : ∃ block ∈ right, base < block.base)
    {fuel : Nat} (enough : right.length ≤ fuel) :
    ∃ lower upper links', left ++ right = lower ++ upper ∧
      (∀ block ∈ lower, block.base < base) ∧ (∀ block ∈ upper, base < block.base) ∧
      insertLoop base fuel links ((entries left).getLastD freeList) = .ok links' ∧
      IsRing links' freeList (entries lower ++ .pageLink base :: entries upper) := by
  induction right generalizing left fuel with
  | nil => simp at above
  | cons block rest inductionHypothesis =>
      obtain ⟨fuel, rfl⟩ : ∃ smaller, fuel = smaller + 1 :=
        ⟨fuel - 1, by simp only [List.length_cons] at enough; omega⟩
      simp only [entries_append, entries_cons] at ring
      have atBlock : listNext links ((entries left).getLastD freeList) = .pageLink block.base :=
        ring.linked_gap.1
      have newEntry : (.pageLink base : ListEntry Unit) ∉
          freeList :: (entries left ++ .pageLink block.base :: entries rest) := by
        rw [← entries_cons, ← entries_append, List.mem_cons, pageLink_mem_entries, not_or]
        refine ⟨by simp, ?_⟩
        rintro ⟨other, member, same⟩
        exact fresh other member same
      rw [insertLoop, atBlock]
      by_cases isLower : base < block.base
      · -- the `break`: the new entry goes before this block
        refine ⟨left, block :: rest, _, rfl, below, ?_, if_pos isLower, ?_⟩
        · intro other member
          rcases List.mem_cons.mp member with rfl | later
          · exact isLower
          · have := (List.pairwise_cons.mp sorted).1 other later
            omega
        · have added := listAddBefore_isRing ring newEntry
          simpa using added
      · have notSame : block.base ≠ base := fresh block (by simp)
        have higher : block.base < base := by omega
        -- the last block lies above `base`, so this one is not the last
        obtain ⟨further, member, furtherAbove⟩ := above
        have inRest : further ∈ rest := by
          rcases List.mem_cons.mp member with rfl | later
          · omega
          · exact later
        obtain ⟨second, others, rfl⟩ := List.exists_cons_of_ne_nil (List.ne_nil_of_mem inRest)
        have notTail : listNext links (.pageLink block.base) ≠ freeList := by
          have next := ring.next_item
          rw [listNext, next]
          simp
        have step := @inductionHypothesis (left ++ [block])
          (by simpa using ring) (List.pairwise_cons.mp sorted).2 (by simpa using fresh)
          (by
            intro other member
            rcases List.mem_append.mp member with earlier | atEnd
            · exact below other earlier
            · rw [List.mem_singleton.mp atEnd]
              exact higher)
          ⟨further, inRest, furtherAbove⟩ fuel (by simpa using enough)
        obtain ⟨lower, upper, links', split, lowerBelow, upperAbove, run, added⟩ := step
        refine ⟨lower, upper, links', by simpa using split, lowerBelow, upperAbove, ?_, added⟩
        rw [entries_append, entries_cons, entries_nil, List.getLastD_concat] at run
        dsimp only
        rw [if_neg isLower, if_neg notTail]
        exact run

/-- More fuel does not change the result of the insertion. -/
theorem insertLoop_mono {base fuel fuel' : Nat} {links links' : Links (ListEntry Unit)}
    {le : ListEntry Unit} (run : insertLoop base fuel links le = .ok links')
    (more : fuel ≤ fuel') : insertLoop base fuel' links le = .ok links' := by
  induction fuel generalizing fuel' links le with
  | zero => simp [insertLoop] at run
  | succ fuel inductionHypothesis =>
      obtain ⟨fuel', rfl⟩ : ∃ smaller, fuel' = smaller + 1 := ⟨fuel' - 1, by omega⟩
      rw [insertLoop] at run ⊢
      cases atNext : listNext links le with
      | freeList area => simpa [atNext] using run
      | pageLink page =>
          simp only [atNext] at run ⊢
          split_ifs at run ⊢ with isLower isTail
          · exact run
          · exact inductionHypothesis run (by omega)
          · exact inductionHypothesis run (by omega)

theorem insertBlock_mono {base fuel fuel' : Nat} {pmm pmm' : Pmm Unit}
    (run : insertBlock fuel pmm base = .ok pmm') (more : fuel ≤ fuel') :
    insertBlock fuel' pmm base = .ok pmm' := by
  unfold insertBlock at run ⊢
  split_ifs at run ⊢ with empty
  · exact run
  · cases loop : insertLoop base fuel pmm.links freeList with
    | error stop =>
        rw [loop] at run
        cases run
    | ok links =>
        rw [loop] at run
        rw [insertLoop_mono loop more]
        exact run

theorem initMemmap_mono {base n fuel fuel' : Nat} {pmm pmm' : Pmm Unit}
    (run : initMemmap fuel pmm base n = .ok pmm') (more : fuel ≤ fuel') :
    initMemmap fuel' pmm base n = .ok pmm' := by
  unfold initMemmap at run ⊢
  split_ifs at run ⊢ with zero
  · cases clearing : clearReserved pmm base n with
    | error stop =>
        rw [clearing] at run
        cases run
    | ok cleared =>
        rw [clearing] at run
        exact insertBlock_mono run more

theorem freePages_mono {base n fuel fuel' : Nat} {pmm pmm' : Pmm Unit}
    (run : freePages fuel pmm base n = .ok pmm') (more : fuel ≤ fuel') :
    freePages fuel' pmm base n = .ok pmm' := by
  unfold freePages at run ⊢
  split_ifs at run ⊢ with zero
  · cases clearing : clearAllocated pmm base n with
    | error stop =>
        rw [clearing] at run
        cases run
    | ok cleared =>
        rw [clearing] at run
        simp only [bind, Except.bind] at run ⊢
        cases insertion : insertBlock fuel (markBlock cleared base n) base with
        | error stop =>
            rw [insertion] at run
            cases run
        | ok inserted =>
            rw [insertion] at run
            rw [insertBlock_mono insertion more]
            exact run

theorem lastAbove_of_entries {pmm : Pmm Unit} {blocks : List Extent} {base : Nat}
    (ring : IsRing pmm.links freeList (entries blocks)) (lastAbove : LastAbove pmm base) :
    blocks = [] ∨ ∃ block ∈ blocks, base < block.base := by
  rcases List.eq_nil_or_concat blocks with empty | ⟨init, last, rfl⟩
  · exact Or.inl empty
  · rw [List.concat_eq_append] at ring
    refine Or.inr ⟨last, by simp, lastAbove last.base ?_⟩
    have atEnd := ring.prev_head
    rw [entries_append, entries_cons, entries_nil, List.getLastD_concat] at atEnd
    exact atEnd

/-- Inserting below the last block keeps the circle and the address order. -/
theorem insertBlock_ok {pmm : Pmm Unit} {base : Nat} {blocks : List Extent}
    (ring : IsRing pmm.links freeList (entries blocks)) (sorted : Sorted blocks)
    (fresh : ∀ block ∈ blocks, block.base ≠ base) (lastAbove : LastAbove pmm base)
    {fuel : Nat} (enough : blocks.length ≤ fuel) :
    ∃ lower upper links', blocks = lower ++ upper ∧
      (∀ block ∈ lower, block.base < base) ∧ (∀ block ∈ upper, base < block.base) ∧
      insertBlock fuel pmm base = .ok (pmm.setLinks links') ∧
      IsRing links' freeList (entries lower ++ .pageLink base :: entries upper) := by
  by_cases empty : blocks = []
  · subst empty
    refine ⟨[], [], listAdd pmm.links freeList (.pageLink base), rfl, by simp, by simp, ?_, ?_⟩
    · rw [insertBlock, if_pos ((listEmpty_iff ring).mpr rfl)]
    · have added := @listAdd_isRing _ _ pmm.links freeList (.pageLink base) [] [] ring (by simp)
      exact added
  · have notEmpty : ¬ listEmpty pmm.links freeList = true := by
      rw [listEmpty_iff ring]
      simpa [entries] using empty
    have above := (lastAbove_of_entries ring lastAbove).resolve_left empty
    obtain ⟨lower, upper, links', split, below, upperAbove, run, added⟩ :=
      @insertLoop_ok pmm.links base [] blocks ring sorted fresh (by simp) above fuel enough
    refine ⟨lower, upper, links', split, below, upperAbove, ?_, added⟩
    rw [insertBlock, if_neg notEmpty]
    have run' : insertLoop base fuel pmm.links freeList = .ok links' := run
    rw [run']
    rfl

/-! ## One block more, one block less -/

namespace Represents

variable {pmm : Pmm Unit} {blocks left right : List Extent} {block : Extent}

theorem nodup_base (represents : Represents pmm (left ++ block :: right)) :
    ∀ other ∈ left ++ right, other.base ≠ block.base := by
  intro other member same
  have distinct := (List.nodup_cons.mp represents.ring.nodup).2
  rw [entries_append, entries_cons] at distinct
  have away := (List.nodup_cons.mp (List.nodup_middle.mp distinct)).1
  apply away
  rw [← entries_append, pageLink_mem_entries]
  exact ⟨other, member, same⟩

theorem pairwise_disjoint (represents : Represents pmm blocks) :
    blocks.Pairwise Extent.Disjoint :=
  represents.sorted.imp fun below => Or.inl below

/-- Only the links, the sizes of the heads, the flags and the counter matter. -/
theorem congr {other : Pmm Unit} (represents : Represents pmm blocks)
    (links : other.links = pmm.links) (nrFree : other.nrFree = pmm.nrFree)
    (property : ∀ block ∈ blocks, other.property block.base = pmm.property block.base)
    (flags : ∀ page, other.pageProperty page = pmm.pageProperty page) :
    Represents other blocks where
  ring := by rw [links]; exact represents.ring
  sorted := represents.sorted
  positive := represents.positive
  property block member := (property block member).trans (represents.property block member)
  flagged page := by rw [flags page]; exact represents.flagged page
  count := by rw [nrFree]; exact represents.count

theorem sorted_gap (represents : Represents pmm (left ++ block :: right)) :
    (∀ lower ∈ left, lower.base + lower.size ≤ block.base) ∧
      ∀ upper ∈ right, block.base + block.size ≤ upper.base := by
  have sorted := represents.sorted
  unfold Sorted at sorted
  rw [List.pairwise_append, List.pairwise_cons] at sorted
  exact ⟨fun lower member => sorted.2.2 lower member block (by simp), sorted.2.1.1⟩

/-- A block listed at its place, with its size and flag set. -/
theorem place {other : Pmm Unit} (represents : Represents pmm (left ++ right))
    (ring : IsRing other.links freeList (entries left ++ .pageLink block.base :: entries right))
    (positive : 0 < block.size)
    (below : ∀ lower ∈ left, lower.base + lower.size ≤ block.base)
    (above : ∀ upper ∈ right, block.base + block.size ≤ upper.base)
    (size : other.property block.base = block.size)
    (property : ∀ page, page ≠ block.base → other.property page = pmm.property page)
    (flags : ∀ page, other.pageProperty page =
      if page = block.base then true else pmm.pageProperty page)
    (count : other.nrFree () = pmm.nrFree () + block.size) :
    Represents other (left ++ block :: right) := by
  have different : ∀ old ∈ left ++ right, old.base ≠ block.base := by
    intro old member same
    have := represents.positive old member
    rcases List.mem_append.mp member with early | late
    · have := below old early
      omega
    · have := above old late
      omega
  refine ⟨by simpa using ring, ?_, ?_, ?_, ?_, ?_⟩
  · have sorted := represents.sorted
    unfold Sorted at sorted ⊢
    rw [List.pairwise_append] at sorted ⊢
    refine ⟨sorted.1, List.pairwise_cons.mpr ⟨above, sorted.2.1⟩, ?_⟩
    intro lower member upper upperMember
    rcases List.mem_cons.mp upperMember with rfl | later
    · exact below lower member
    · exact sorted.2.2 lower member upper later
  · intro old member
    rcases mem_middle.mp member with rfl | rest
    · exact positive
    · exact represents.positive old rest
  · intro old member
    rcases mem_middle.mp member with rfl | rest
    · exact size
    · rw [property old.base (different old rest)]
      exact represents.property old rest
  · intro page
    rw [flags page]
    by_cases same : page = block.base
    · simp only [same, if_true, true_iff]
      exact ⟨block, by simp, rfl⟩
    · rw [if_neg same, represents.flagged page]
      constructor
      · rintro ⟨old, member, rfl⟩
        exact ⟨old, mem_middle.mpr (Or.inr member), rfl⟩
      · rintro ⟨old, member, rfl⟩
        rcases mem_middle.mp member with rfl | rest
        · exact absurd rfl same
        · exact ⟨old, rest, rfl⟩
  · rw [count, represents.count]
    simp only [Extent.total_append, Extent.total_cons]
    omega

/-- A block unlisted, with its flag cleared. -/
theorem remove {other : Pmm Unit} (represents : Represents pmm (left ++ block :: right))
    (ring : IsRing other.links freeList (entries left ++ entries right))
    (property : ∀ page, page ≠ block.base → other.property page = pmm.property page)
    (flags : ∀ page, other.pageProperty page =
      if page = block.base then false else pmm.pageProperty page)
    (count : other.nrFree () = pmm.nrFree () - block.size) :
    Represents other (left ++ right) := by
  have within : ∀ old ∈ left ++ right, old ∈ left ++ block :: right :=
    fun old member => mem_middle.mpr (Or.inr member)
  have different := represents.nodup_base
  refine ⟨by simpa using ring, ?_, fun old member => represents.positive old (within old member),
    ?_, ?_, ?_⟩
  · exact represents.sorted.sublist (List.Sublist.append_left (List.sublist_cons_self block right) left)
  · intro old member
    rw [property old.base (different old member)]
    exact represents.property old (within old member)
  · intro page
    rw [flags page]
    by_cases same : page = block.base
    · rw [if_pos same]
      simp only [Bool.false_eq_true, false_iff]
      rintro ⟨old, member, atPage⟩
      exact different old member (atPage.trans same)
    · rw [if_neg same, represents.flagged page]
      constructor
      · rintro ⟨old, member, rfl⟩
        rcases mem_middle.mp member with rfl | rest
        · exact absurd rfl same
        · exact ⟨old, rest, rfl⟩
      · rintro ⟨old, member, rfl⟩
        exact ⟨old, within old member, rfl⟩
  · rw [count, represents.count]
    simp only [Extent.total_append, Extent.total_cons]
    omega

/-- Marking and inserting a block adds it at its place. -/
theorem insert (represents : Represents pmm blocks) {base n : Nat} (positive : 0 < n)
    (apart : ∀ block ∈ blocks, Extent.Disjoint ⟨base, n⟩ block)
    (bounded : Extent.total blocks + n < 2 ^ 32) (lastAbove : LastAbove pmm base)
    {fuel : Nat} (enough : blocks.length ≤ fuel) :
    ∃ lower upper inserted, blocks = lower ++ upper ∧
      insertBlock fuel (markBlock pmm base n) base = .ok inserted ∧
      Represents inserted (lower ++ ⟨base, n⟩ :: upper) ∧
      (∀ page, inserted.pageReserved page = pmm.pageReserved page) := by
  have fresh : ∀ block ∈ blocks, block.base ≠ base := by
    intro block member same
    have gap := apart block member
    have size := represents.positive block member
    simp only [Extent.Disjoint] at gap
    omega
  obtain ⟨lower, upper, links', rfl, below, above, run, added⟩ :=
    @insertBlock_ok (markBlock pmm base n) base blocks represents.ring represents.sorted fresh
      lastAbove fuel enough
  refine ⟨lower, upper, (markBlock pmm base n).setLinks links', rfl, run, ?_, ?_⟩
  · refine place represents added positive ?_ ?_ ?_ ?_ ?_ ?_
    · intro block member
      have gap := apart block (List.mem_append_left _ member)
      have order := below block member
      show block.base + block.size ≤ base
      simp only [Extent.Disjoint] at gap
      omega
    · intro block member
      have gap := apart block (List.mem_append_right _ member)
      have order := above block member
      show base + n ≤ block.base
      simp only [Extent.Disjoint] at gap
      omega
    · simp only [markBlock, Pmm.setLinks_property, Pmm.setNrFree_property,
        Pmm.setPageProperty_property, Pmm.setProperty_property, if_true]
      exact u32_of_lt (by omega)
    · intro page different
      simp [markBlock, Pmm.setProperty_property, different]
    · intro page
      simp [markBlock, Pmm.setPageProperty_pageProperty]
    · have count := represents.count
      simp only [markBlock, Pmm.setLinks_nrFree, Pmm.setNrFree, Function.update_self]
      rw [count, u32_of_lt bounded]
  · intro page
    simp [markBlock]

/-- What remains listed of a block after its first `n` pages are taken. -/
def remainder (block : Extent) (n : Nat) : List Extent :=
  if n < block.size then [⟨block.base + n, block.size - n⟩] else []

/-- Taking `n` pages off a listed block leaves the remainder in its place. -/
theorem takeBlock (represents : Represents pmm (left ++ block :: right)) {n : Nat}
    (positive : 0 < n) (fits : n ≤ block.size)
    (bounded : Extent.total (left ++ block :: right) < 2 ^ 32) :
    Represents (takeBlock pmm block.base n) (left ++ remainder block n ++ right) := by
  have size : pmm.property block.base = block.size := represents.property block (by simp)
  obtain ⟨below, above⟩ := represents.sorted_gap
  have ring := represents.ring
  rw [entries_append, entries_cons] at ring
  have prev : listPrev pmm.links (.pageLink block.base) = (entries left).getLastD freeList :=
    ring.prev_item
  have removed := listDel_isRing ring
  have count := represents.count
  simp only [Extent.total_append, Extent.total_cons] at bounded count
  -- the state in which the whole block is gone
  let gone : Pmm Unit := (((pmm.setLinks (listDel pmm.links (.pageLink block.base))).setNrFree ()
    (pmm.nrFree () - block.size)).clearPageProperty block.base)
  have without : Represents gone (left ++ right) :=
    represents.remove removed (fun page _ => by simp [gone])
      (fun page => by simp [gone, Pmm.clearPageProperty_pageProperty])
      (by simp [gone, Pmm.setNrFree])
  by_cases splits : n < block.size
  · rw [remainder, if_pos splits, List.append_assoc, List.singleton_append]
    have newEntry : (.pageLink (block.base + n) : ListEntry Unit) ∉
        freeList :: (entries left ++ entries right) := by
      rw [← entries_append, List.mem_cons, pageLink_mem_entries, not_or]
      refine ⟨by simp, ?_⟩
      rintro ⟨other, member, same⟩
      rcases List.mem_append.mp member with early | late
      · have := below other early
        omega
      · have := above other late
        omega
    have placed := listAdd_isRing removed newEntry
    refine without.place ?_ (by show 0 < block.size - n; omega) ?_ ?_ ?_ ?_ ?_ ?_
    · simpa [Mm.takeBlock, size, splits, prev] using placed
    · intro lower member
      have := below lower member
      show lower.base + lower.size ≤ block.base + n
      omega
    · intro upper member
      have := above upper member
      show block.base + n + (block.size - n) ≤ upper.base
      omega
    · simp only [Mm.takeBlock, Pmm.setLinks_property, size, if_pos splits,
        Pmm.clearPageProperty_property, Pmm.setNrFree_property, Pmm.setPageProperty_property,
        Pmm.setProperty_property, if_true]
      exact u32_of_lt (by omega)
    · intro page different
      have different' : page ≠ block.base + n := different
      simp [Mm.takeBlock, size, splits, gone, Pmm.setProperty_property, different']
    · intro page
      simp only [Mm.takeBlock, Pmm.setLinks_property, size, if_pos splits, gone,
        Pmm.clearPageProperty_pageProperty, Pmm.setNrFree_pageProperty,
        Pmm.setLinks_pageProperty, Pmm.setPageProperty_pageProperty, Pmm.setProperty_pageProperty]
      split_ifs <;> first | rfl | omega
    · simp only [Mm.takeBlock, Pmm.setLinks_property, size, if_pos splits, gone]
      simp only [Pmm.clearPageProperty_nrFree, Pmm.setNrFree, Function.update_self,
        Pmm.setLinks_nrFree, Pmm.setPageProperty_nrFree, Pmm.setProperty_nrFree]
      omega
  · have whole : n = block.size := by omega
    rw [remainder, if_neg splits, List.append_nil]
    refine without.congr ?_ ?_ ?_ ?_
    · simp [Mm.takeBlock, size, splits, gone]
    · simp [Mm.takeBlock, size, gone, whole]
    · intro other _
      simp [Mm.takeBlock, size, splits, gone]
    · intro page
      simp [Mm.takeBlock, size, splits, gone, Pmm.clearPageProperty_pageProperty]

/-- Growing a listed block into the gap above it. -/
theorem resize {other : Pmm Unit} (represents : Represents pmm (left ++ block :: right))
    {size : Nat} (positive : 0 < size)
    (above : ∀ upper ∈ right, block.base + size ≤ upper.base)
    (links : other.links = pmm.links) (newSize : other.property block.base = size)
    (property : ∀ page, page ≠ block.base → other.property page = pmm.property page)
    (flags : ∀ page, other.pageProperty page = pmm.pageProperty page)
    (count : other.nrFree () + block.size = pmm.nrFree () + size) :
    Represents other (left ++ ⟨block.base, size⟩ :: right) := by
  have ring := represents.ring
  rw [entries_append, entries_cons] at ring
  let gone : Pmm Unit := (((pmm.setLinks (listDel pmm.links (.pageLink block.base))).setNrFree ()
    (pmm.nrFree () - block.size)).clearPageProperty block.base)
  have without : Represents gone (left ++ right) :=
    represents.remove (listDel_isRing ring) (fun page _ => by simp [gone])
      (fun page => by simp [gone, Pmm.clearPageProperty_pageProperty])
      (by simp [gone, Pmm.setNrFree])
  have flagged : pmm.pageProperty block.base = true :=
    (represents.flagged block.base).mpr ⟨block, by simp, rfl⟩
  have total := represents.count
  simp only [Extent.total_append, Extent.total_cons] at total
  refine without.place (links ▸ ring) positive represents.sorted_gap.1 above newSize ?_ ?_ ?_
  · intro page different
    rw [property page different]
    simp [gone]
  · intro page
    rw [flags page]
    simp only [gone, Pmm.clearPageProperty_pageProperty, Pmm.setNrFree_pageProperty,
      Pmm.setLinks_pageProperty]
    split_ifs with same
    · rw [same, flagged]
    · rfl
  · simp only [gone, Pmm.clearPageProperty_nrFree, Pmm.setNrFree, Function.update_self]
    omega

/-- Absorbing the next block when it starts where this one ends. -/
theorem absorb {lower upper : Extent} (represents : Represents pmm (left ++ lower :: upper :: right))
    (adjacent : lower.base + lower.size = upper.base)
    (bounded : Extent.total (left ++ lower :: upper :: right) < 2 ^ 32) :
    Represents (((pmm.setProperty lower.base (lower.size + upper.size)).clearPageProperty
      upper.base).setLinks (listDel pmm.links (.pageLink upper.base)))
      (left ++ ⟨lower.base, lower.size + upper.size⟩ :: right) := by
  have split : left ++ lower :: upper :: right = (left ++ [lower]) ++ upper :: right := by simp
  have atUpper : Represents pmm ((left ++ [lower]) ++ upper :: right) := split ▸ represents
  have ring := atUpper.ring
  rw [entries_append (left ++ [lower]), entries_cons] at ring
  have total := represents.count
  simp only [Extent.total_append, Extent.total_cons] at total bounded
  have lowerPositive := represents.positive lower (by simp)
  have upperGap := atUpper.sorted_gap.2
  let gone : Pmm Unit := (((pmm.setLinks (listDel pmm.links (.pageLink upper.base))).setNrFree ()
    (pmm.nrFree () - upper.size)).clearPageProperty upper.base)
  have without : Represents gone ((left ++ [lower]) ++ right) :=
    atUpper.remove (listDel_isRing ring) (fun page _ => by simp [gone])
      (fun page => by simp [gone, Pmm.clearPageProperty_pageProperty])
      (by simp [gone, Pmm.setNrFree])
  rw [List.append_assoc, List.singleton_append] at without
  refine without.resize (by omega) ?_ ?_ ?_ ?_ ?_ ?_
  · intro next member
    have := upperGap next member
    omega
  · simp [gone]
  · rw [Pmm.setLinks_property, Pmm.clearPageProperty_property, Pmm.setProperty_property,
      if_pos rfl]
    exact u32_of_lt (by omega)
  · intro page different
    simp [gone, Pmm.setProperty_property, different]
  · intro page
    simp [gone, Pmm.clearPageProperty_pageProperty]
  · simp only [gone, Pmm.setLinks_nrFree, Pmm.clearPageProperty_nrFree, Pmm.setNrFree,
      Function.update_self, Pmm.setProperty_nrFree]
    omega

/-! ## The merges -/

/-- `mergePrevious` joins the last lower block exactly when it ends at the new one. -/
theorem mergePrevious (represents : Represents pmm (left ++ block :: right))
    (bounded : Extent.total (left ++ block :: right) < 2 ^ 32) :
    ∃ merged left' block', Mm.mergePrevious pmm block.base = (merged, block'.base) ∧
      Represents merged (left' ++ block' :: right) ∧
      (∀ page, merged.pageReserved page = pmm.pageReserved page) ∧
      JoinsPrevious left block left' block' := by
  have ring := represents.ring
  rw [entries_append, entries_cons] at ring
  have prev : listPrev pmm.links (.pageLink block.base) = (entries left).getLastD freeList :=
    ring.prev_item
  have size : pmm.property block.base = block.size := represents.property block (by simp)
  rcases List.eq_nil_or_concat left with rfl | ⟨init, lower, rfl⟩
  · refine ⟨pmm, [], block, ?_, represents, fun _ => rfl, Or.inl ⟨rfl, rfl, by simp⟩⟩
    rw [Mm.mergePrevious, prev]
    rfl
  · rw [List.concat_eq_append] at *
    rw [entries_append, entries_cons, entries_nil, List.getLastD_concat] at prev
    have lowerSize : pmm.property lower.base = lower.size := represents.property lower (by simp)
    by_cases adjacent : lower.base + lower.size = block.base
    · refine ⟨_, init, ⟨lower.base, lower.size + block.size⟩, ?_,
        absorb (by simpa using represents) adjacent (by simpa using bounded), ?_,
        Or.inr ⟨lower, rfl, adjacent, rfl⟩⟩
      · rw [Mm.mergePrevious, prev]
        simp only [lowerSize, if_pos adjacent, size]
        rfl
      · intro page
        simp
    · refine ⟨pmm, init ++ [lower], block, ?_, represents, fun _ => rfl, Or.inl ⟨rfl, rfl, ?_⟩⟩
      · rw [Mm.mergePrevious, prev]
        simp only [lowerSize, if_neg adjacent]
      · intro other member same
        rcases List.mem_append.mp member with early | atEnd
        · have atInit : Represents pmm (init ++ lower :: block :: right) := by
            simpa using represents
          have := atInit.sorted_gap.1 other early
          have := atInit.positive lower (by simp)
          have := represents.sorted_gap.1 lower (by simp)
          omega
        · rw [List.mem_singleton.mp atEnd] at same
          exact adjacent same

/-- `mergeNext` joins the next block exactly when it starts at the end of this one. -/
theorem mergeNext (represents : Represents pmm (left ++ block :: right))
    (bounded : Extent.total (left ++ block :: right) < 2 ^ 32) :
    ∃ right' block', Represents (Mm.mergeNext pmm block.base) (left ++ block' :: right') ∧
      (∀ page, (Mm.mergeNext pmm block.base).pageReserved page = pmm.pageReserved page) ∧
      JoinsNext block right block' right' := by
  have ring := represents.ring
  rw [entries_append, entries_cons] at ring
  have next : listNext pmm.links (.pageLink block.base) = (entries right).headD freeList :=
    ring.next_item
  have size : pmm.property block.base = block.size := represents.property block (by simp)
  cases right with
  | nil =>
      have unchanged : Mm.mergeNext pmm block.base = pmm := by
        rw [Mm.mergeNext, next]
        rfl
      rw [unchanged]
      exact ⟨[], block, represents, fun _ => rfl, Or.inl ⟨rfl, rfl, by simp⟩⟩
  | cons upper rest =>
      have next' : listNext pmm.links (.pageLink block.base) = .pageLink upper.base := next
      have upperSize : pmm.property upper.base = upper.size := represents.property upper (by simp)
      by_cases adjacent : block.base + block.size = upper.base
      · have joined := absorb represents adjacent bounded
        have run : Mm.mergeNext pmm block.base =
            ((pmm.setProperty block.base (block.size + upper.size)).clearPageProperty
              upper.base).setLinks (listDel pmm.links (.pageLink upper.base)) := by
          rw [Mm.mergeNext, next']
          simp only [size, upperSize, if_pos adjacent]
          rfl
        rw [run]
        exact ⟨rest, _, joined, fun page => by simp, Or.inr ⟨upper, rfl, adjacent, rfl⟩⟩
      · have unchanged : Mm.mergeNext pmm block.base = pmm := by
          rw [Mm.mergeNext, next']
          simp only [size, if_neg adjacent]
        rw [unchanged]
        refine ⟨upper :: rest, block, represents, fun _ => rfl, Or.inl ⟨rfl, rfl, ?_⟩⟩
        intro other member same
        rcases List.mem_cons.mp member with rfl | later
        · exact adjacent same
        · have atUpper : Represents pmm ((left ++ [block]) ++ upper :: rest) := by
            simpa using represents
          have := atUpper.sorted_gap.2 other later
          have := represents.positive upper (by simp)
          have := represents.sorted_gap.2 upper (by simp)
          omega

/-! ## The two operations -/

/-- A fresh range of reserved pages becomes one listed block. -/
theorem initMemmap (represents : Represents pmm blocks) {base n : Nat} (positive : 0 < n)
    (reserved : ∀ page ∈ (⟨base, n⟩ : Extent), pmm.pageReserved page = true)
    (apart : ∀ block ∈ blocks, Extent.Disjoint ⟨base, n⟩ block)
    (bounded : Extent.total blocks + n < 2 ^ 32) (lastAbove : LastAbove pmm base) :
    ∃ result lower upper, blocks = lower ++ upper ∧
      Returns (fun fuel => Mm.initMemmap fuel pmm base n) result ∧
      Represents result (lower ++ ⟨base, n⟩ :: upper) ∧
      ∀ page, result.pageReserved page =
        if page ∈ (⟨base, n⟩ : Extent) then false else pmm.pageReserved page := by
  obtain ⟨cleared, clearing, links, nrFree, pages⟩ := clearReserved_ok pmm base n reserved
  have outside : ∀ block ∈ blocks, block.base ∉ (⟨base, n⟩ : Extent) := fun block member =>
    (apart block member).symm.notMem (Extent.base_mem (represents.positive block member))
  have kept : Represents cleared blocks := by
    refine represents.congr links nrFree ?_ ?_
    · intro block member
      simp [Pmm.property, pages, outside block member]
    · intro page
      by_cases inside : page ∈ (⟨base, n⟩ : Extent)
      · have unflagged : pmm.pageProperty page = false := by
          rw [← Bool.not_eq_true, represents.flagged page]
          rintro ⟨block, member, rfl⟩
          exact outside block member inside
        simp [Pmm.pageProperty, pages, inside, PageFlags.clear]
        simpa [Pmm.pageProperty] using unflagged.symm
      · simp [Pmm.pageProperty, pages, inside]
  obtain ⟨lower, upper, inserted, split, insertion, listed, same⟩ :=
    kept.insert positive apart bounded (by unfold LastAbove; rw [links]; exact lastAbove)
      (Nat.le_refl blocks.length)
  refine ⟨inserted, lower, upper, split, ⟨blocks.length, fun fuel enough => ?_⟩, listed, ?_⟩
  · show Mm.initMemmap fuel pmm base n = .ok inserted
    rw [Mm.initMemmap, if_neg (by omega), clearing]
    exact insertBlock_mono insertion enough
  · intro page
    rw [same page]
    by_cases inside : page ∈ (⟨base, n⟩ : Extent) <;>
      simp [Pmm.pageReserved, pages, inside, PageFlags.clear]

/-- An allocated block comes back, joined with the listed blocks directly before and after it. -/
theorem freePages_joins (represents : Represents pmm blocks) {base n : Nat} (positive : 0 < n)
    (allocated : ∀ page ∈ (⟨base, n⟩ : Extent),
      pmm.pageReserved page = false ∧ pmm.pageProperty page = false)
    (apart : ∀ block ∈ blocks, Extent.Disjoint ⟨base, n⟩ block)
    (bounded : Extent.total blocks + n < 2 ^ 32) (lastAbove : LastAbove pmm base) :
    ∃ result blocks', Returns (fun fuel => Mm.freePages fuel pmm base n) result ∧
      Represents result blocks' ∧
      (∀ page, result.pageReserved page = pmm.pageReserved page) ∧
      JoinsFreed blocks ⟨base, n⟩ blocks' := by
  obtain ⟨cleared, clearing, links, nrFree, pages⟩ := clearAllocated_ok pmm base n allocated
  have kept : Represents cleared blocks := by
    refine represents.congr links nrFree ?_ ?_
    · intro block member
      simp only [Pmm.property, pages]
      split_ifs <;> rfl
    · intro page
      by_cases inside : page ∈ (⟨base, n⟩ : Extent)
      · simp [Pmm.pageProperty, pages, inside, PageFlags.clear]
        simpa [Pmm.pageProperty] using (allocated page inside).2.symm
      · simp [Pmm.pageProperty, pages, inside]
  obtain ⟨lower, upper, inserted, rfl, insertion, listed, reserved⟩ :=
    kept.insert positive apart bounded (by unfold LastAbove; rw [links]; exact lastAbove)
      (Nat.le_refl blocks.length)
  have total : Extent.total (lower ++ ⟨base, n⟩ :: upper) < 2 ^ 32 := by
    simp only [Extent.total_append, Extent.total_cons] at bounded ⊢
    omega
  obtain ⟨merged, lower', block', runPrevious, previous, reservedPrevious, joinedPrevious⟩ :=
    listed.mergePrevious total
  have totalPrevious : Extent.total (lower' ++ block' :: upper) =
      Extent.total (lower ++ ⟨base, n⟩ :: upper) := by
    have := joinedPrevious.total
    simp only [Extent.total_append, Extent.total_cons] at this ⊢
    omega
  obtain ⟨upper', block'', next, reservedNext, joinedNext⟩ :=
    previous.mergeNext (totalPrevious ▸ total)
  refine ⟨_, lower' ++ block'' :: upper', ⟨(lower ++ upper).length, fun fuel enough => ?_⟩,
    next, ?_, lower, upper, lower', upper', block', block'', rfl, rfl, listed.sorted,
    joinedPrevious, joinedNext, previous.sorted_gap.2⟩
  · show Mm.freePages fuel pmm base n = _
    rw [Mm.freePages, if_neg (by omega), clearing]
    have insertion' := insertBlock_mono insertion enough
    change (insertBlock fuel (markBlock cleared base n) base >>= _) = _
    simp only [insertion', bind, Except.bind, runPrevious]
    rfl
  · intro page
    rw [reservedNext page, reservedPrevious page, reserved page]
    by_cases inside : page ∈ (⟨base, n⟩ : Extent)
    · simp [Pmm.pageReserved, pages, inside, PageFlags.clear]
      simpa [Pmm.pageReserved] using (allocated page inside).1.symm
    · simp [Pmm.pageReserved, pages, inside]

/-- An allocated block comes back, joined with the free blocks it touches. -/
theorem freePages (represents : Represents pmm blocks) {base n : Nat} (positive : 0 < n)
    (allocated : ∀ page ∈ (⟨base, n⟩ : Extent),
      pmm.pageReserved page = false ∧ pmm.pageProperty page = false)
    (apart : ∀ block ∈ blocks, Extent.Disjoint ⟨base, n⟩ block)
    (bounded : Extent.total blocks + n < 2 ^ 32) (lastAbove : LastAbove pmm base) :
    ∃ result blocks', Returns (fun fuel => Mm.freePages fuel pmm base n) result ∧
      Represents result blocks' ∧
      (∀ page, result.pageReserved page = pmm.pageReserved page) ∧
      (∀ page, Extent.Covers blocks' page ↔
        page ∈ (⟨base, n⟩ : Extent) ∨ Extent.Covers blocks page) ∧
      Extent.total blocks' = n + Extent.total blocks ∧
      (Extent.Separated blocks → Extent.Separated blocks') := by
  obtain ⟨result, blocks', returns, listed, reserved, joins⟩ :=
    represents.freePages_joins positive allocated apart bounded lastAbove
  exact ⟨result, blocks', returns, listed, reserved, joins.covers, joins.total, joins.separated⟩

end Represents

end UCore.Mm
