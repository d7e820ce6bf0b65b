import UCore.Lib.Walk
import UCore.Mm.FitSystem
import UCore.Mm.Slob

/-!
Contract: the free blocks of `slob_alloc` and `slob_free`.

Owns:
- the circle of free blocks in address order that the headers make;
- that `slob_free` puts a block there, joined with the blocks it touches, and `slob_alloc` takes one
  out, after a new page if there is none;
- that both return.

Does not own: the blocks that are handed out.
-/

set_option autoImplicit false

namespace UCore.Mm

open UCore.Lib

variable {arena b n : Nat} {slob : Slob} {blocks lower upper : List Extent}

/-- The headers link the free blocks into a circle, in address order and with gaps between them. The
block `arena` is the first one. -/
structure SlobHolds (arena : Nat) (slob : Slob) (blocks : List Extent) : Prop where
  walk : Walk slob.next (blocks.map Extent.base) arena
  head : ∃ rest, blocks = ⟨arena, slobUnit⟩ :: rest
  separated : Extent.Separated blocks
  positive : ∀ block ∈ blocks, 0 < block.size
  units : ∀ block ∈ blocks, slobUnit * slob.units block.base = block.size
  start : slob.slobfree ∈ blocks.map Extent.base

namespace SlobHolds

theorem initial : SlobHolds arena (Slob.initial arena) [⟨arena, slobUnit⟩] where
  walk := ⟨rfl, trivial⟩
  head := ⟨[], rfl⟩
  separated := List.pairwise_singleton _ _
  positive block member := by
    rw [List.mem_singleton.mp member]
    exact show 0 < slobUnit by decide
  units block member := by
    rw [List.mem_singleton.mp member]
    exact congrArg (slobUnit * ·) (if_pos rfl)
  start := List.mem_singleton_self _

/-- Headers of other blocks do not matter. -/
theorem congr {slob' : Slob} (holds : SlobHolds arena slob blocks)
    (sameNext : ∀ block ∈ blocks, slob'.next block.base = slob.next block.base)
    (sameUnits : ∀ block ∈ blocks, slob'.units block.base = slob.units block.base)
    (start : slob'.slobfree = slob.slobfree) : SlobHolds arena slob' blocks where
  walk := holds.walk.congr fun node member => by
    obtain ⟨block, within, rfl⟩ := List.mem_map.mp member
    exact sameNext block within
  head := holds.head
  separated := holds.separated
  positive := holds.positive
  units block member := by rw [sameUnits block member, holds.units block member]
  start := start ▸ holds.start

theorem sorted (holds : SlobHolds arena slob blocks) :
    (blocks.map Extent.base).Pairwise (· < ·) :=
  List.pairwise_map.mpr (holds.separated.imp fun {lower upper} apart => by omega)

theorem arena_le (holds : SlobHolds arena slob blocks) {address : Nat}
    (member : address ∈ blocks.map Extent.base) : arena ≤ address := by
  have ascending := holds.sorted
  obtain ⟨rest, rfl⟩ := holds.head
  rcases List.mem_cons.mp member with rfl | later
  · exact le_rfl
  · exact le_of_lt ((List.pairwise_cons.mp ascending).1 address later)

theorem nodup (holds : SlobHolds arena slob blocks) : (blocks.map Extent.base).Nodup :=
  holds.sorted.imp fun less => Nat.ne_of_lt less

end SlobHolds

/-! ## Putting a block in its place -/

/-- The blocks below an extent and those above it. -/
theorem split_at (separated : Extent.Separated blocks)
    (apart : ∀ block ∈ blocks, Extent.Disjoint ⟨b, n⟩ block) :
    ∃ lower upper, blocks = lower ++ upper ∧ (∀ block ∈ lower, block.base + block.size ≤ b) ∧
      ∀ block ∈ upper, b + n ≤ block.base := by
  induction blocks with
  | nil => exact ⟨[], [], rfl, nofun, nofun⟩
  | cons first rest inductionHypothesis =>
      obtain ⟨later, separatedRest⟩ := List.pairwise_cons.mp separated
      rcases apart first List.mem_cons_self with above | below
      · refine ⟨[], first :: rest, rfl, nofun, ?_⟩
        intro block member
        rcases List.mem_cons.mp member with rfl | further
        · exact above
        · have := later block further
          dsimp only at above
          omega
      · obtain ⟨lower, upper, rfl, ends, starts⟩ := inductionHypothesis separatedRest
          fun block member => apart block (List.mem_cons_of_mem _ member)
        refine ⟨first :: lower, upper, rfl, ?_, starts⟩
        intro block member
        rcases List.mem_cons.mp member with rfl | further
        · exact below
        · exact ends block further

/-- The place that `slob_free` looks for. -/
def StopsAt (slob : Slob) (b cur : Nat) : Prop :=
  (b > cur ∧ b < slob.next cur) ∨ (cur ≥ slob.next cur ∧ (b > cur ∨ b < slob.next cur))

theorem slobFreeLoop_stops {cur fuel : Nat} (stops : StopsAt slob b cur) :
    slobFreeLoop slob b (fuel + 1) cur = .ok cur := by
  unfold slobFreeLoop
  split_ifs with first second
  · rfl
  · rfl
  · exact absurd stops (not_or.mpr ⟨first, second⟩)

theorem slobFreeLoop_walk {items : List Nat} {cur goal fuel : Nat}
    (walk : Walk slob.next (cur :: items) goal) (passes : ∀ node ∈ cur :: items, ¬ StopsAt slob b node)
    (stops : StopsAt slob b goal) (enough : items.length + 2 ≤ fuel) :
    slobFreeLoop slob b fuel cur = .ok goal := by
  induction items generalizing cur fuel with
  | nil =>
      obtain ⟨fuel, rfl⟩ : ∃ smaller, fuel = smaller + 2 := ⟨fuel - 2, by
        rw [List.length_nil] at enough
        omega⟩
      obtain ⟨first, second⟩ := not_or.mp (passes cur List.mem_cons_self)
      have follows : slob.next cur = goal := walk.1
      rw [slobFreeLoop, if_neg first, if_neg second, follows]
      exact slobFreeLoop_stops stops
  | cons item items inductionHypothesis =>
      rw [List.length_cons] at enough
      obtain ⟨fuel, rfl⟩ : ∃ smaller, fuel = smaller + 1 := ⟨fuel - 1, by omega⟩
      obtain ⟨first, second⟩ := not_or.mp (passes cur List.mem_cons_self)
      have follows : slob.next cur = item := walk.1
      rw [slobFreeLoop, if_neg first, if_neg second, follows]
      exact inductionHypothesis walk.2
        (fun node member => passes node (List.mem_cons_of_mem _ member)) (by omega)

/-- `slob_free` finds the last block below the one it puts back. -/
theorem SlobHolds.slobFreeLoop {cur : Nat} (holds : SlobHolds arena slob blocks)
    (member : cur ∈ blocks.map Extent.base) (below : cur < b)
    (greatest : ∀ other ∈ blocks.map Extent.base, other ≤ cur ∨ b < other) :
    Returns (fun fuel => Mm.slobFreeLoop slob b fuel slob.slobfree) cur := by
  have ascending := holds.sorted
  have stops : StopsAt slob b cur := by
    rcases holds.walk.next_sorted ascending member with ⟨greater, within, _⟩ | ⟨wraps, _⟩
    · rcases greatest _ within with least | above
      · omega
      · exact Or.inl ⟨below, above⟩
    · exact Or.inr ⟨wraps ▸ holds.arena_le member, Or.inl below⟩
  have passes : ∀ other ∈ blocks.map Extent.base, other ≠ cur → ¬ StopsAt slob b other := by
    intro other within apart
    rcases holds.walk.next_sorted ascending within with ⟨greater, _, least⟩ | ⟨wraps, last⟩
    · rintro (⟨above, under⟩ | ⟨least, _⟩)
      · rcases greatest other within with less | more
        · have := least cur member (by omega)
          omega
        · omega
      · omega
    · have highest := last cur member
      have := holds.arena_le member
      rintro (⟨above, under⟩ | ⟨_, above | under⟩)
      · rw [wraps] at under
        omega
      · rcases greatest other within with less | more <;> omega
      · rw [wraps] at under
        omega
  by_cases here : slob.slobfree = cur
  · exact ⟨1, fun fuel enough => by
      obtain ⟨fuel, rfl⟩ : ∃ smaller, fuel = smaller + 1 := ⟨fuel - 1, by omega⟩
      rw [here]
      exact slobFreeLoop_stops stops⟩
  · have circle := holds.walk
    have distinct := holds.nodup
    have start := holds.start
    obtain ⟨rest, rfl⟩ := holds.head
    obtain ⟨items, walk, away, within⟩ := circle.between distinct start member here
    refine ⟨items.length + 2, fun fuel enough => slobFreeLoop_walk walk ?_ stops enough⟩
    intro node among
    exact passes node (within node among) fun same => away (same ▸ among)

/-- What `joinNext` leaves: the block that was put back, joined with the one above it. -/
structure NextJoined (arena : Nat) (slob : Slob) (b n : Nat) (upper : List Extent) (slob' : Slob)
    (mid : Extent) (upper' : List Extent) : Prop where
  joins : JoinsNext ⟨b, n⟩ upper mid upper'
  units : slobUnit * slob'.units b = mid.size
  next : slob'.next b = (upper'.map Extent.base).headD arena
  walk : Walk slob'.next (upper'.map Extent.base) arena
  others : ∀ address, address ≠ b →
    slob'.units address = slob.units address ∧ slob'.next address = slob.next address
  pages : slob'.pages = slob.pages

theorem joinNext_spec {cur : Nat} (walk : Walk slob.next (upper.map Extent.base) arena)
    (follows : slob.next cur = (upper.map Extent.base).headD arena)
    (separated : Extent.Separated upper)
    (units : ∀ block ∈ upper, slobUnit * slob.units block.base = block.size)
    (size : slobUnit * slob.units b = n) (positive : 0 < n) (above : arena < b)
    (starts : ∀ block ∈ upper, b + n ≤ block.base) :
    ∃ mid upper', NextJoined arena slob b n upper (joinNext slob b cur) mid upper' := by
  have away : ∀ {node}, node ∈ upper.map Extent.base → node ≠ b := by
    intro node member
    obtain ⟨block, within, rfl⟩ := List.mem_map.mp member
    have := starts block within
    omega
  rw [joinNext, size, follows]
  by_cases touches : b + n = (upper.map Extent.base).headD arena
  · rw [if_pos touches]
    cases upper with
    | nil =>
        change b + n = arena at touches
        omega
    | cons first rest =>
        change b + n = first.base at touches
        refine ⟨⟨b, n + first.size⟩, rest, ?_, ?_, ?_, ?_, ?_, rfl⟩
        · exact Or.inr ⟨first, rfl, touches, rfl⟩
        · change slobUnit * Function.update slob.units b (slob.units b + slob.units first.base) b = _
          rw [Function.update_self, Nat.mul_add, size, units first List.mem_cons_self]
        · exact (Function.update_self _ _ _).trans walk.1
        · apply walk.2.congr
          intro node member
          exact Function.update_of_ne (away (List.mem_cons_of_mem _ member)) _ _
        · exact fun address apart =>
            ⟨Function.update_of_ne apart _ _, Function.update_of_ne apart _ _⟩
  · rw [if_neg touches]
    refine ⟨⟨b, n⟩, upper, ?_, size, Function.update_self _ _ _, ?_, ?_, rfl⟩
    · refine Or.inl ⟨rfl, rfl, ?_⟩
      cases upper with
      | nil => exact nofun
      | cons first rest =>
          change b + n ≠ first.base at touches
          intro block member
          rcases List.mem_cons.mp member with rfl | later
          · exact touches
          · have := (List.pairwise_cons.mp separated).1 block later
            have := starts first List.mem_cons_self
            change b + n ≠ block.base
            omega
    · exact walk.congr fun node member => Function.update_of_ne (away member) _ _
    · exact fun address apart => ⟨rfl, Function.update_of_ne apart _ _⟩

/-- What `joinPrevious` leaves: the block, joined with the one below it. -/
structure PreviousJoined (arena : Nat) (slob : Slob) (b : Nat) (mid : Extent)
    (lower upper : List Extent) (slob' : Slob) (lower' : List Extent) (whole : Extent) : Prop where
  joins : JoinsPrevious lower mid lower' whole
  walk : Walk slob'.next ((lower' ++ whole :: upper).map Extent.base) arena
  units : ∀ block ∈ lower' ++ whole :: upper, slobUnit * slob'.units block.base = block.size
  others : ∀ address, address ≠ b → (∀ block ∈ lower, block.base ≠ address) →
    slob'.units address = slob.units address
  pages : slob'.pages = slob.pages

theorem joinPrevious_spec {mid last : Extent} {init : List Extent}
    (lowerWalk : Walk slob.next (init.map Extent.base) last.base)
    (midBase : mid.base = b) (midUnits : slobUnit * slob.units b = mid.size)
    (midNext : slob.next b = (upper.map Extent.base).headD arena)
    (upperWalk : Walk slob.next (upper.map Extent.base) arena)
    (separated : Extent.Separated (init ++ [last]))
    (ends : ∀ block ∈ init ++ [last], block.base + block.size ≤ b)
    (sizes : ∀ block ∈ init ++ [last], 0 < block.size ∧
      slobUnit * slob.units block.base = block.size)
    (starts : ∀ block ∈ upper, b < block.base ∧ slobUnit * slob.units block.base = block.size) :
    ∃ lower' whole, PreviousJoined arena slob b mid (init ++ [last]) upper
      (joinPrevious slob b last.base) lower' whole := by
  obtain ⟨lastPositive, lastUnits⟩ := sizes last (List.mem_append_right _ List.mem_cons_self)
  have lastEnds := ends last (List.mem_append_right _ List.mem_cons_self)
  have initBelow : ∀ block ∈ init, block.base + block.size < last.base := fun block member =>
    (List.pairwise_append.mp separated).2.2 block member last List.mem_cons_self
  have initAway : ∀ block ∈ init, block.base ≠ last.base ∧ block.base ≠ b := by
    intro block member
    have := initBelow block member
    omega
  have upperAway : ∀ block ∈ upper, block.base ≠ last.base ∧ block.base ≠ b := by
    intro block member
    have := (starts block member).1
    omega
  rw [joinPrevious, lastUnits]
  by_cases touches : last.base + last.size = b
  · rw [if_pos touches]
    refine ⟨init, ⟨last.base, last.size + mid.size⟩, ?_, ?_, ?_, ?_, rfl⟩
    · exact Or.inr ⟨last, rfl, by rw [midBase, touches], rfl⟩
    · rw [List.map_append, List.map_cons]
      refine Walk.middle_iff.mpr ⟨?_, ?_, ?_⟩
      · apply lowerWalk.congr
        intro node member
        obtain ⟨block, within, rfl⟩ := List.mem_map.mp member
        exact Function.update_of_ne (initAway block within).1 _ _
      · exact (Function.update_self _ _ _).trans midNext
      · apply upperWalk.congr
        intro node member
        obtain ⟨block, within, rfl⟩ := List.mem_map.mp member
        exact Function.update_of_ne (upperAway block within).1 _ _
    · intro block member
      rcases mem_middle.mp member with rfl | other
      · change slobUnit * Function.update slob.units last.base _ last.base = _
        rw [Function.update_self, Nat.mul_add, lastUnits, midUnits]
      · rcases List.mem_append.mp other with before | after
        · change slobUnit * Function.update slob.units last.base _ block.base = _
          rw [Function.update_of_ne (initAway block before).1]
          exact (sizes block (List.mem_append_left _ before)).2
        · change slobUnit * Function.update slob.units last.base _ block.base = _
          rw [Function.update_of_ne (upperAway block after).1]
          exact (starts block after).2
    · intro address _ others
      have apart := others last (List.mem_append_right _ List.mem_cons_self)
      exact Function.update_of_ne apart.symm _ _
  · rw [if_neg touches]
    refine ⟨init ++ [last], mid, ?_, ?_, ?_, fun _ _ _ => rfl, rfl⟩
    · refine Or.inl ⟨rfl, rfl, ?_⟩
      rw [midBase]
      intro block member
      rcases List.mem_append.mp member with before | here
      · have := initBelow block before
        omega
      · rwa [List.mem_singleton.mp here]
    · rw [List.map_append, List.map_append, List.map_cons, List.append_assoc, List.map_cons, midBase]
      refine Walk.middle_iff.mpr ⟨?_, ?_, ?_, ?_⟩
      · apply lowerWalk.congr
        intro node member
        obtain ⟨block, within, rfl⟩ := List.mem_map.mp member
        exact Function.update_of_ne (initAway block within).1 _ _
      · exact Function.update_self _ _ _
      · have apart : b ≠ last.base := by omega
        exact (Function.update_of_ne apart _ _).trans midNext
      · apply upperWalk.congr
        intro node member
        obtain ⟨block, within, rfl⟩ := List.mem_map.mp member
        exact Function.update_of_ne (upperAway block within).1 _ _
    · intro block member
      rcases mem_middle.mp member with rfl | other
      · rw [midBase]
        exact midUnits
      · rcases List.mem_append.mp other with before | after
        · exact (sizes block before).2
        · exact (starts block after).2

/-- What `slob_free` leaves. -/
structure SlobFreed (arena : Nat) (slob : Slob) (blocks : List Extent) (b n : Nat) (slob' : Slob)
    (blocks' : List Extent) : Prop where
  holds : SlobHolds arena slob' blocks'
  total : Extent.total blocks' = n + Extent.total blocks
  covers : ∀ index, Extent.Covers blocks' index ↔
    index ∈ (⟨b, n⟩ : Extent) ∨ Extent.Covers blocks index
  room : ∃ block ∈ blocks', n ≤ block.size
  bases : ∀ block ∈ blocks', block.base = b ∨ ∃ old ∈ blocks, old.base = block.base
  units : ∀ address, address ≠ b → (∀ block ∈ blocks, block.base ≠ address) →
    slob'.units address = slob.units address
  pages : slob'.pages = slob.pages

/-- The block `b` is joined with the blocks around it. -/
theorem slobFreed_of_joined {slob₁ slob₂ slob' : Slob} {init lower' upper' : List Extent}
    {last mid whole : Extent}
    (holds : SlobHolds arena slob (init ++ [last] ++ upper))
    (nextJoined : NextJoined arena slob b n upper slob₁ mid upper')
    (previousJoined : PreviousJoined arena slob₁ b mid (init ++ [last]) upper' slob₂ lower' whole)
    (above : arena + slobUnit < b) (positive : 0 < n)
    (ends : ∀ block ∈ init ++ [last], block.base + block.size ≤ b)
    (starts : ∀ block ∈ upper, b + n ≤ block.base)
    (same : slob'.units = slob₂.units ∧ slob'.next = slob₂.next ∧ slob'.pages = slob₂.pages)
    (start : slob'.slobfree = last.base) :
    SlobFreed arena slob (init ++ [last] ++ upper) b n slob' (lower' ++ whole :: upper') := by
  obtain ⟨sameUnits, sameNext, samePages⟩ := same
  have midBase : mid.base = b := nextJoined.joins.base
  obtain ⟨separated₁, midEnds⟩ := nextJoined.joins.separated holds.separated starts
  obtain ⟨separated₂, wholeStarts⟩ := previousJoined.joins.separated separated₁
    (by rwa [midBase])
  have wholeEnds : whole.base + whole.size = mid.base + mid.size := by
    rcases previousJoined.joins with ⟨_, rfl, _⟩ | ⟨low, _, touches, rfl⟩
    · rfl
    · dsimp only
      omega
  have midTotal := nextJoined.joins.total
  have wholeTotal := previousJoined.joins.total
  have midPositive : 0 < mid.size := by
    rcases nextJoined.joins with ⟨_, rfl, _⟩ | ⟨_, _, _, rfl⟩
    · exact positive
    · exact Nat.add_pos_left positive _
  have wholePositive : 0 < whole.size := by
    rcases previousJoined.joins with ⟨_, rfl, _⟩ | ⟨_, _, _, rfl⟩
    · exact midPositive
    · exact Nat.add_pos_right _ midPositive
  have shape : (lower' = init ++ [last] ∧ whole.base = b) ∨
      (lower' = init ∧ whole.base = last.base ∧ last.base + last.size = b) := by
    rcases previousJoined.joins with ⟨rfl, rfl, _⟩ | ⟨low, split, touches, rfl⟩
    · exact Or.inl ⟨rfl, midBase⟩
    · obtain ⟨rfl, same⟩ := List.append_inj' split rfl
      obtain rfl := (List.cons.inj same).1
      exact Or.inr ⟨rfl, rfl, touches.trans midBase⟩
  have lowerOld : ∀ block ∈ lower', block ∈ init ++ [last] := by
    rcases shape with ⟨rfl, _⟩ | ⟨rfl, _⟩
    · exact fun block => id
    · exact fun block => List.mem_append_left _
  have upperOld : ∀ block ∈ upper', block ∈ upper := by
    rcases nextJoined.joins with ⟨rfl, _⟩ | ⟨up, rfl, _⟩
    · exact fun block => id
    · exact fun block => List.mem_cons_of_mem _
  refine ⟨⟨?_, ?_, ?_, ?_, ?_, ?_⟩, ?_, ?_, ⟨whole, ?_, ?_⟩, ?_, ?_, ?_⟩
  · rw [sameNext]
    exact previousJoined.walk
  · obtain ⟨rest, split⟩ := holds.head
    cases init with
    | nil =>
        obtain ⟨rfl, rfl⟩ := List.cons.inj split
        rcases shape with ⟨rfl, _⟩ | ⟨_, _, touches⟩
        · exact ⟨_, rfl⟩
        · dsimp only at touches
          omega
    | cons first init =>
        obtain ⟨rfl, _⟩ := List.cons.inj split
        rcases shape with ⟨rfl, _⟩ | ⟨rfl, _⟩ <;> exact ⟨_, rfl⟩
  · exact separated₂.insert wholeStarts (by rw [wholeEnds]; exact midEnds)
  · intro block member
    rcases mem_middle.mp member with rfl | other
    · exact wholePositive
    · rcases List.mem_append.mp other with before | after
      · exact holds.positive block (List.mem_append_left _ (lowerOld block before))
      · exact holds.positive block (List.mem_append_right _ (upperOld block after))
  · rw [sameUnits]
    exact previousJoined.units
  · rw [start]
    rcases shape with ⟨rfl, _⟩ | ⟨_, same, _⟩
    · exact List.mem_map_of_mem (List.mem_append_left _ (List.mem_append_right _ List.mem_cons_self))
    · rw [← same]
      exact List.mem_map_of_mem (List.mem_append_right _ List.mem_cons_self)
  · simp only [Extent.total_append, Extent.total_cons] at *
    omega
  · intro index
    have first := nextJoined.joins.covers index
    have second := previousJoined.joins.covers index
    rw [Extent.covers_append, Extent.covers_cons, ← or_assoc, second, or_assoc, first,
      @Extent.covers_append (init ++ [last]) upper, or_left_comm]
  · exact List.mem_append_right _ List.mem_cons_self
  · have midGrows : n ≤ mid.size := by
      rcases nextJoined.joins with ⟨_, rfl, _⟩ | ⟨_, _, _, rfl⟩
      · exact le_rfl
      · exact Nat.le_add_right _ _
    have wholeGrows : mid.size ≤ whole.size := by
      rcases previousJoined.joins with ⟨_, rfl, _⟩ | ⟨_, _, _, rfl⟩
      · exact le_rfl
      · exact Nat.le_add_left _ _
    exact le_trans midGrows wholeGrows
  · intro block member
    rcases mem_middle.mp member with rfl | other
    · rcases shape with ⟨_, same⟩ | ⟨_, same, _⟩
      · exact Or.inl same
      · exact Or.inr ⟨last, List.mem_append_left _ (List.mem_append_right _ List.mem_cons_self),
          same.symm⟩
    · rcases List.mem_append.mp other with before | after
      · exact Or.inr ⟨block, List.mem_append_left _ (lowerOld block before), rfl⟩
      · exact Or.inr ⟨block, List.mem_append_right _ (upperOld block after), rfl⟩
  · intro address apart others
    rw [sameUnits, previousJoined.others address apart fun block member =>
      others block (List.mem_append_left _ member)]
    exact (nextJoined.others address apart).1
  · rw [samePages, previousJoined.pages, nextJoined.pages]

/-- `slob_free` puts a block back that lies behind the arena and apart from all free blocks. -/
theorem SlobHolds.slobFree {size : Nat} (holds : SlobHolds arena slob blocks)
    (sized : slobUnit * (if size ≠ 0 then slobUnits size else slob.units b) = n)
    (positive : 0 < n) (above : arena + slobUnit < b)
    (apart : ∀ block ∈ blocks, Extent.Disjoint ⟨b, n⟩ block) :
    ∃ slob' blocks', Returns (fun fuel => Mm.slobFree fuel slob b size) slob' ∧
      SlobFreed arena slob blocks b n slob' blocks' := by
  obtain ⟨lower, upper, rfl, ends, starts⟩ := split_at holds.separated apart
  -- The arena lies below the block.
  have nonempty : lower ≠ [] := by
    rintro rfl
    obtain ⟨rest, split⟩ := holds.head
    have := starts ⟨arena, slobUnit⟩ (by
      rw [List.nil_append] at split
      rw [split]
      exact List.mem_cons_self)
    dsimp only at this
    omega
  obtain ⟨init, last, rfl⟩ := (List.eq_nil_or_concat lower).resolve_left nonempty
  rw [List.concat_eq_append] at *
  have away : ∀ block ∈ init ++ [last] ++ upper, block.base ≠ b := by
    intro block member
    have size := holds.positive block member
    rcases List.mem_append.mp member with before | after
    · have := ends block before
      omega
    · have := starts block after
      omega
  let start : Slob := if size ≠ 0 then
      { slob with units := Function.update slob.units b (slobUnits size) } else slob
  have startUnits : slobUnit * start.units b = n := by
    rw [← sized]
    change slobUnit * (if size ≠ 0 then _ else slob : Slob).units b = _
    split_ifs
    · exact congrArg (slobUnit * ·) (Function.update_self _ _ _)
    · rfl
  have startOthers : ∀ address, address ≠ b → start.units address = slob.units address := by
    intro address apart
    change (if size ≠ 0 then _ else slob : Slob).units address = _
    split_ifs
    · exact Function.update_of_ne apart _ _
    · rfl
  have startSame : start.next = slob.next ∧ start.slobfree = slob.slobfree ∧
      start.pages = slob.pages := by
    change (if size ≠ 0 then _ else slob : Slob).next = _ ∧
      (if size ≠ 0 then _ else slob : Slob).slobfree = _ ∧
      (if size ≠ 0 then _ else slob : Slob).pages = _
    split_ifs <;> exact ⟨rfl, rfl, rfl⟩
  have started : SlobHolds arena start (init ++ [last] ++ upper) :=
    holds.congr (fun block _ => by rw [startSame.1])
      (fun block member => startOthers block.base (away block member)) startSame.2.1
  have member : last.base ∈ (init ++ [last] ++ upper).map Extent.base :=
    List.mem_map_of_mem (List.mem_append_left _ (List.mem_append_right _ List.mem_cons_self))
  have lastEnds := ends last (List.mem_append_right _ List.mem_cons_self)
  have lastPositive := holds.positive last
    (List.mem_append_left _ (List.mem_append_right _ List.mem_cons_self))
  have below : last.base < b := by omega
  have greatest : ∀ other ∈ (init ++ [last] ++ upper).map Extent.base,
      other ≤ last.base ∨ b < other := by
    intro other within
    obtain ⟨block, among, rfl⟩ := List.mem_map.mp within
    have apart := List.pairwise_append.mp holds.separated
    rcases List.mem_append.mp among with before | after
    · left
      rcases List.mem_append.mp before with early | here
      · have := (List.pairwise_append.mp apart.1).2.2 block early last List.mem_cons_self
        omega
      · rw [List.mem_singleton.mp here]
    · have := starts block after
      omega
  have walk := started.walk
  rw [List.map_append, List.map_append, List.append_assoc] at walk
  obtain ⟨lowerWalk, follows, upperWalk⟩ := Walk.middle_iff.mp walk
  have separated := List.pairwise_append.mp holds.separated
  obtain ⟨mid, upper', nextJoined⟩ := @joinNext_spec arena b n start upper last.base upperWalk follows
    separated.2.1 (fun block among => started.units block (List.mem_append_right _ among)) startUnits
    positive (by omega) starts
  have upperOld : ∀ block ∈ upper', block ∈ upper := by
    rcases nextJoined.joins with ⟨rfl, _⟩ | ⟨up, rfl, _⟩
    · exact fun block => id
    · exact fun block => List.mem_cons_of_mem _
  have joinedUnits : ∀ block ∈ init ++ [last] ++ upper,
      slobUnit * (joinNext start b last.base).units block.base = block.size := by
    intro block among
    rw [(nextJoined.others block.base (away block among)).1]
    exact started.units block among
  have midWalk : Walk (joinNext start b last.base).next (init.map Extent.base) last.base := by
    apply lowerWalk.congr
    intro node within
    obtain ⟨block, among, rfl⟩ := List.mem_map.mp within
    exact (nextJoined.others block.base
      (away block (List.mem_append_left _ (List.mem_append_left _ among)))).2
  have upperStarts : ∀ block ∈ upper', b < block.base ∧
      slobUnit * (joinNext start b last.base).units block.base = block.size := by
    intro block among
    have behind := starts block (upperOld block among)
    exact ⟨by omega, joinedUnits block (List.mem_append_right _ (upperOld block among))⟩
  obtain ⟨lower', whole, previousJoined⟩ := joinPrevious_spec midWalk nextJoined.joins.base
    nextJoined.units nextJoined.next nextJoined.walk separated.1 ends
    (fun block among => ⟨holds.positive block (List.mem_append_left _ among),
      joinedUnits block (List.mem_append_left _ among)⟩) upperStarts
  have freed := @slobFreed_of_joined arena b n start upper _ _
    { joinPrevious (joinNext start b last.base) b last.base with slobfree := last.base }
    init lower' upper' last mid whole started nextJoined previousJoined above positive ends starts
    ⟨rfl, rfl, rfl⟩ rfl
  refine ⟨_, _, ?_, freed.holds, freed.total, freed.covers, freed.room, freed.bases,
    ?_, ?_⟩
  · obtain ⟨enough, found⟩ := started.slobFreeLoop member below greatest
    refine ⟨enough, fun fuel more => ?_⟩
    have notNull : b ≠ 0 := by omega
    have loop : Mm.slobFreeLoop start b fuel start.slobfree = .ok last.base := found fuel more
    change (if b = 0 then _ else Except.bind (Mm.slobFreeLoop start b fuel start.slobfree) _) = _
    rw [if_neg notNull, loop]
    rfl
  · intro address different others
    rw [freed.units address different others, startOthers address different]
  · rw [freed.pages, startSame.2.2]

/-! ## Taking a block out -/

/-- What `slob_alloc` leaves of a block. -/
structure SlobTaken (arena : Nat) (slob : Slob) (blocks : List Extent) (units m : Nat) (slob' : Slob)
    (blocks' : List Extent) : Prop where
  holds : SlobHolds arena slob' blocks'
  total : Extent.total blocks' + slobUnit * units = Extent.total blocks
  covers : ∀ index, Extent.Covers blocks index ↔
    index ∈ (⟨m, slobUnit * units⟩ : Extent) ∨ Extent.Covers blocks' index
  apart : ∀ block ∈ blocks', Extent.Disjoint ⟨m, slobUnit * units⟩ block
  among : ∃ block ∈ blocks, block.base = m ∧ m ≠ arena
  bases : ∀ block ∈ blocks', (∃ old ∈ blocks, old.base = block.base) ∨
    block.base = m + slobUnit * units
  units : slob'.units m = units
  others : ∀ address, ¬ Extent.Covers blocks address → slob'.units address = slob.units address
  pages : slob'.pages = slob.pages

section Take

variable {left right : List Extent} {previous block : Extent} {units : Nat}

/-- The blocks with the start of one block taken off. -/
theorem covers_taken {index : Nat} (fits : n ≤ block.size) :
    Extent.Covers (left ++ block :: right) index ↔
      index ∈ (⟨block.base, n⟩ : Extent) ∨
        Extent.Covers (left ++ Represents.remainder block n ++ right) index := by
  have rest : Extent.Covers (Represents.remainder block n) index ↔
      block.base + n ≤ index ∧ index < block.base + block.size := by
    unfold Represents.remainder
    split_ifs with less
    · rw [Extent.covers_cons, Extent.mem_def]
      have nothing : ¬ Extent.Covers [] index := by
        rintro ⟨_, member, _⟩
        cases member
      rw [or_iff_left nothing]
      dsimp only
      omega
    · constructor
      · rintro ⟨_, member, _⟩
        cases member
      · omega
  rw [Extent.covers_append, Extent.covers_cons, Extent.covers_append, Extent.covers_append, rest,
    Extent.mem_def, Extent.mem_def]
  dsimp only
  constructor
  · rintro (before | inside | after)
    · exact Or.inr (Or.inl (Or.inl before))
    · by_cases early : index < block.base + n
      · exact Or.inl ⟨inside.1, early⟩
      · exact Or.inr (Or.inl (Or.inr ⟨by omega, inside.2⟩))
    · exact Or.inr (Or.inr after)
  · rintro (inside | (before | inside) | after)
    · exact Or.inr (Or.inl ⟨inside.1, by omega⟩)
    · exact Or.inl before
    · exact Or.inr (Or.inl ⟨by omega, inside.2⟩)
    · exact Or.inr (Or.inr after)

theorem apart_taken (separated : Extent.Separated (left ++ block :: right))
    (fits : n ≤ block.size) :
    ∀ other ∈ left ++ Represents.remainder block n ++ right,
      Extent.Disjoint ⟨block.base, n⟩ other := by
  obtain ⟨_, upperSeparated, below⟩ := List.pairwise_append.mp separated
  obtain ⟨above, _⟩ := List.pairwise_cons.mp upperSeparated
  intro other member
  rcases List.mem_append.mp member with inner | after
  · rcases List.mem_append.mp inner with before | inside
    · have := below other before block List.mem_cons_self
      exact Or.inr (by dsimp only; omega)
    · unfold Represents.remainder at inside
      split_ifs at inside
      · rw [List.mem_singleton.mp inside]
        exact Or.inl le_rfl
      · cases inside
  · have := above other after
    exact Or.inl (by dsimp only; omega)

theorem total_taken (fits : n ≤ block.size) :
    Extent.total (left ++ Represents.remainder block n ++ right) + n =
      Extent.total (left ++ block :: right) := by
  have rest : Extent.total (Represents.remainder block n) + n = block.size := by
    unfold Represents.remainder
    split_ifs
    · rw [Extent.total_cons, Extent.total_nil]
      dsimp only
      omega
    · rw [Extent.total_nil]
      omega
  simp only [Extent.total_append, Extent.total_cons]
  omega

/-- Headers after `slob_alloc` took the first units of a block: what is left of it follows the block
before it. -/
theorem slobTake_headers (holds : SlobHolds arena slob (left ++ previous :: block :: right))
    (positive : 0 < units) (fits : units ≤ slob.units block.base) :
    let slob' := Mm.slobTake slob units previous.base block.base
    let rest := Represents.remainder block (slobUnit * units)
    Walk slob'.next ((rest ++ right).map Extent.base) arena ∧
      slob'.next previous.base = ((rest ++ right).map Extent.base).headD arena ∧
      (∀ other ∈ rest, slobUnit * slob'.units other.base = other.size) ∧
      slob'.units block.base = units ∧
      (∀ address, address ≠ previous.base → address ≠ block.base + slobUnit * units →
        slob'.next address = slob.next address) ∧
      (∀ address, address ≠ block.base → address ∉ rest.map Extent.base →
        slob'.units address = slob.units address) := by
  have blockMember : block ∈ left ++ previous :: block :: right :=
    List.mem_append_right _ (List.mem_cons_of_mem _ List.mem_cons_self)
  have size := holds.units block blockMember
  have unitPositive : 0 < slobUnit := by decide
  have takenPositive : 0 < slobUnit * units := Nat.mul_pos unitPositive positive
  have ascending := List.pairwise_append.mp holds.separated
  have later := List.pairwise_cons.mp ascending.2.1
  have afterBlock := List.pairwise_cons.mp later.2
  have gap := later.1 block List.mem_cons_self
  have walk := holds.walk
  simp only [List.map_append, List.map_cons] at walk
  obtain ⟨_, _, blockWalk⟩ := Walk.middle_iff.mp walk
  have follows : slob.next block.base = (right.map Extent.base).headD arena := blockWalk.1
  have upperWalk : Walk slob.next (right.map Extent.base) arena := blockWalk.2
  have rightAbove : ∀ node ∈ right.map Extent.base, block.base + block.size < node := by
    intro node member
    obtain ⟨other, within, rfl⟩ := List.mem_map.mp member
    exact afterBlock.1 other within
  dsimp only
  by_cases exact : slob.units block.base = units
  · have whole : ¬ slobUnit * units < block.size := by
      rw [← size, exact]
      exact Nat.lt_irrefl _
    rw [Represents.remainder, if_neg whole, List.nil_append, Mm.slobTake, if_pos exact]
    refine ⟨?_, ?_, (by intros; contradiction), exact, ?_, fun _ _ _ => rfl⟩
    · apply upperWalk.congr
      intro node member
      have := rightAbove node member
      exact Function.update_of_ne (by omega) _ _
    · exact (Function.update_self _ _ _).trans follows
    · exact fun address apart _ => Function.update_of_ne apart _ _
  · have fewer : units < slob.units block.base := by omega
    have less : slobUnit * units < block.size := by
      rw [← size]
      exact Nat.mul_lt_mul_of_pos_left fewer unitPositive
    have apart : block.base ≠ previous.base := by omega
    have restApart : block.base + slobUnit * units ≠ previous.base := by omega
    have restBlock : block.base + slobUnit * units ≠ block.base := by omega
    rw [Represents.remainder, if_pos less, List.singleton_append, Mm.slobTake, if_neg exact]
    refine ⟨⟨?_, ?_⟩, ?_, ?_, Function.update_self _ _ _, ?_, ?_⟩
    · refine (Function.update_self _ _ _).trans ?_
      rw [Function.update_of_ne apart]
      exact follows
    · apply upperWalk.congr
      intro node member
      have := rightAbove node member
      change Function.update (Function.update slob.next previous.base _) _ _ node = _
      rw [Function.update_of_ne (by omega), Function.update_of_ne (by omega)]
    · change Function.update (Function.update slob.next previous.base _) _ _ previous.base = _
      rw [Function.update_of_ne restApart.symm, Function.update_self]
      rfl
    · intro other member
      rw [List.mem_singleton.mp member]
      change slobUnit * Function.update (Function.update slob.units _ _) _ _ _ = _
      rw [Function.update_of_ne restBlock, Function.update_self, Nat.mul_sub, size]
    · intro address first second
      change Function.update (Function.update slob.next previous.base _) _ _ address = _
      rw [Function.update_of_ne second, Function.update_of_ne first]
    · intro address first second
      change Function.update (Function.update slob.units _ _) _ _ address = _
      rw [Function.update_of_ne first, Function.update_of_ne]
      exact fun same => second (same ▸ List.mem_singleton_self _)

/-- `slob_alloc` takes the first units of a block that is not the arena. -/
theorem SlobHolds.slobTake (holds : SlobHolds arena slob (left ++ previous :: block :: right))
    (positive : 0 < units) (fits : units ≤ slob.units block.base) :
    SlobTaken arena slob (left ++ previous :: block :: right) units block.base
      (Mm.slobTake slob units previous.base block.base)
      (left ++ previous :: (Represents.remainder block (slobUnit * units) ++ right)) := by
  have blockMember : block ∈ left ++ previous :: block :: right :=
    List.mem_append_right _ (List.mem_cons_of_mem _ List.mem_cons_self)
  have fitsBytes : slobUnit * units ≤ block.size := by
    rw [← holds.units block blockMember]
    exact Nat.mul_le_mul_left _ fits
  have takenPositive : 0 < slobUnit * units := Nat.mul_pos (by decide) positive
  have regroup : ∀ rest : List Extent, left ++ previous :: rest = (left ++ [previous]) ++ rest :=
    fun rest => by rw [List.append_assoc, List.singleton_append]
  have separated := holds.separated
  rw [regroup] at separated
  have ascending := List.pairwise_append.mp holds.separated
  have later := List.pairwise_cons.mp ascending.2.1
  have afterBlock := List.pairwise_cons.mp later.2
  have leftBelow : ∀ other ∈ left, other.base + other.size < previous.base := fun other member =>
    ascending.2.2 other member previous List.mem_cons_self
  have gap := later.1 block List.mem_cons_self
  have remainderOf : ∀ other ∈ Represents.remainder block (slobUnit * units),
      other.base = block.base + slobUnit * units ∧ 0 < other.size := by
    intro other member
    unfold Represents.remainder at member
    split_ifs at member with less
    · rw [List.mem_singleton.mp member]
      exact ⟨rfl, Nat.sub_pos_of_lt less⟩
    · cases member
  obtain ⟨restWalk, follows, restUnits, takenUnits, sameNext, sameUnits⟩ :=
    slobTake_headers holds positive fits
  have walk := holds.walk
  simp only [List.map_append, List.map_cons] at walk
  obtain ⟨lowerWalk, _, _⟩ := Walk.middle_iff.mp walk
  have old : ∀ other, other ∈ left ∨ other = previous ∨ other ∈ right →
      other ∈ left ++ previous :: block :: right ∧ other.base ≠ block.base ∧
        other.base ≠ block.base + slobUnit * units := by
    rintro other (before | rfl | after)
    · have := leftBelow other before
      exact ⟨List.mem_append_left _ before, by omega, by omega⟩
    · exact ⟨List.mem_append_right _ List.mem_cons_self, by omega, by omega⟩
    · have := afterBlock.1 other after
      exact ⟨List.mem_append_right _ (List.mem_cons_of_mem _ (List.mem_cons_of_mem _ after)),
        by omega, by omega⟩
  have cases : ∀ other ∈ left ++ previous ::
      (Represents.remainder block (slobUnit * units) ++ right),
      other ∈ Represents.remainder block (slobUnit * units) ∨
        (other ∈ left ∨ other = previous ∨ other ∈ right) := by
    intro other member
    rcases List.mem_append.mp member with before | rest
    · exact Or.inr (Or.inl before)
    rcases List.mem_cons.mp rest with rfl | rest
    · exact Or.inr (Or.inr (Or.inl rfl))
    rcases List.mem_append.mp rest with inside | after
    · exact Or.inl inside
    · exact Or.inr (Or.inr (Or.inr after))
  refine ⟨⟨?_, ?_, ?_, ?_, ?_, ?_⟩, ?_, ?_, ?_, ⟨block, blockMember, rfl, ?_⟩, ?_, takenUnits, ?_, ?_⟩
  · rw [List.map_append, List.map_cons]
    refine Walk.middle_iff.mpr ⟨?_, follows, restWalk⟩
    apply lowerWalk.congr
    intro node member
    obtain ⟨other, within, rfl⟩ := List.mem_map.mp member
    have below := leftBelow other within
    exact sameNext other.base (by omega) (by omega)
  · obtain ⟨rest, split⟩ := holds.head
    cases left with
    | nil =>
        obtain ⟨rfl, _⟩ := List.cons.inj split
        exact ⟨_, rfl⟩
    | cons first left =>
        obtain ⟨rfl, _⟩ := List.cons.inj split
        exact ⟨_, rfl⟩
  · rw [regroup, ← List.append_assoc]
    exact separated_remainder separated
  · intro other member
    rcases cases other member with inside | outside
    · exact (remainderOf other inside).2
    · exact holds.positive other (old other outside).1
  · intro other member
    rcases cases other member with inside | outside
    · exact restUnits other inside
    · obtain ⟨among, notBlock, notRest⟩ := old other outside
      rw [sameUnits other.base notBlock]
      · exact holds.units other among
      · intro again
        obtain ⟨rest, within, same⟩ := List.mem_map.mp again
        exact notRest (same ▸ (remainderOf rest within).1)
  · have start : (Mm.slobTake slob units previous.base block.base).slobfree = previous.base := by
      unfold Mm.slobTake
      split_ifs <;> rfl
    rw [start]
    exact List.mem_map_of_mem (List.mem_append_right _ List.mem_cons_self)
  · rw [regroup, regroup (block :: right), ← List.append_assoc]
    exact total_taken fitsBytes
  · intro index
    rw [regroup, regroup (Represents.remainder _ _ ++ right), ← List.append_assoc]
    exact covers_taken fitsBytes
  · rw [regroup, ← List.append_assoc]
    exact apart_taken separated fitsBytes
  · have := holds.arena_le (List.mem_map_of_mem
      (List.mem_append_right _ List.mem_cons_self : previous ∈ left ++ previous :: block :: right))
    omega
  · intro other member
    rcases cases other member with inside | outside
    · exact Or.inr (remainderOf other inside).1
    · exact Or.inl ⟨other, (old other outside).1, rfl⟩
  · intro address uncovered
    have inBlock : ∀ address', block.base ≤ address' → address' < block.base + block.size →
        address ≠ address' := fun address' first last same =>
      uncovered ⟨block, blockMember, Extent.mem_def.mpr ⟨same ▸ first, same ▸ last⟩⟩
    have blockPositive := holds.positive block blockMember
    apply sameUnits address (inBlock _ le_rfl (by omega))
    intro again
    obtain ⟨rest, within, same⟩ := List.mem_map.mp again
    unfold Represents.remainder at within
    split_ifs at within with less
    · rw [List.mem_singleton.mp within] at same
      exact inBlock (block.base + slobUnit * units) (Nat.le_add_right _ _)
        (Nat.add_lt_add_left less _) same.symm
    · cases within
  · unfold Mm.slobTake
    split_ifs <;> rfl

end Take

/-! ## Searching -/

theorem slobAllocLoop_room {size units fuel prev cur : Nat} {page : Option Nat}
    (room : units ≤ slob.units cur) : slobAllocLoop size units (fuel + 1) slob page prev cur =
      .ok (some cur, slobTake slob units prev cur) :=
  if_pos room

theorem slobAllocLoop_next {size units fuel prev cur : Nat} {page : Option Nat}
    (small : slob.units cur < units) (goesOn : cur ≠ slob.slobfree) :
    slobAllocLoop size units (fuel + 1) slob page prev cur =
      slobAllocLoop size units fuel slob page cur (slob.next cur) :=
  (if_neg (Nat.not_le_of_lt small)).trans (if_neg goesOn)

/-- All blocks are too small. -/
theorem slobAllocLoop_round {size units fuel prev : Nat} {page : Option Nat}
    (small : slob.units slob.slobfree < units) (notPage : size ≠ pgSize) :
    slobAllocLoop size units (fuel + 1) slob page prev slob.slobfree =
      (match page with
      | none => .ok (none, slob)
      | some page =>
          (slobFree fuel { slob with pages := page :: slob.pages } page pgSize).bind fun slob =>
            slobAllocLoop size units fuel slob none slob.slobfree (slob.next slob.slobfree)) :=
  (if_neg (Nat.not_le_of_lt small)).trans ((if_pos rfl).trans (if_neg notPage))

/-- The search from `prev` on to the place where it started finds a block, or passes all of them. -/
theorem slobAllocLoop_scan {size units prev : Nat} {page : Option Nat} {items : List Nat}
    (walk : Walk slob.next (prev :: items) slob.slobfree) (away : slob.slobfree ∉ items) :
    (∃ prev' ∈ prev :: items, units ≤ slob.units (slob.next prev') ∧
      ∀ fuel, items.length + 1 ≤ fuel →
        slobAllocLoop size units fuel slob page prev (slob.next prev) =
          .ok (some (slob.next prev'), slobTake slob units prev' (slob.next prev'))) ∨
    ((∀ node ∈ slob.slobfree :: items, slob.units node < units) ∧
      ∃ prev', ∀ fuel, slobAllocLoop size units (fuel + items.length) slob page prev (slob.next prev) =
        slobAllocLoop size units fuel slob page prev' slob.slobfree) := by
  induction items generalizing prev with
  | nil =>
      have follows : slob.next prev = slob.slobfree := walk.1
      by_cases room : units ≤ slob.units (slob.next prev)
      · refine Or.inl ⟨prev, List.mem_cons_self, room, fun fuel enough => ?_⟩
        obtain ⟨fuel, rfl⟩ : ∃ smaller, fuel = smaller + 1 := ⟨fuel - 1, by omega⟩
        exact slobAllocLoop_room room
      · refine Or.inr ⟨?_, prev, fun fuel => by rw [List.length_nil, Nat.add_zero, follows]⟩
        intro node member
        rw [List.mem_singleton.mp member, ← follows]
        omega
  | cons item items inductionHypothesis =>
      have follows : slob.next prev = item := walk.1
      by_cases room : units ≤ slob.units (slob.next prev)
      · refine Or.inl ⟨prev, List.mem_cons_self, room, fun fuel enough => ?_⟩
        obtain ⟨fuel, rfl⟩ : ∃ smaller, fuel = smaller + 1 := ⟨fuel - 1, by omega⟩
        exact slobAllocLoop_room room
      have goesOn : item ≠ slob.slobfree := fun same => away (same ▸ List.mem_cons_self)
      have round : ∀ fuel, slobAllocLoop size units (fuel + 1) slob page prev (slob.next prev) =
          slobAllocLoop size units fuel slob page item (slob.next item) := by
        intro fuel
        rw [← follows] at goesOn ⊢
        exact slobAllocLoop_next (Nat.lt_of_not_le room) goesOn
      rcases inductionHypothesis walk.2 (fun member => away (List.mem_cons_of_mem _ member)) with
        ⟨prev', member, fits, finds⟩ | ⟨small, prev', passes⟩
      · refine Or.inl ⟨prev', List.mem_cons_of_mem _ member, fits, fun fuel enough => ?_⟩
        rw [List.length_cons] at enough
        obtain ⟨fuel, rfl⟩ : ∃ smaller, fuel = smaller + 1 := ⟨fuel - 1, by omega⟩
        rw [round]
        exact finds fuel (by omega)
      · refine Or.inr ⟨?_, prev', fun fuel => ?_⟩
        · intro node member
          rcases List.mem_cons.mp member with rfl | later
          · exact small _ List.mem_cons_self
          rcases List.mem_cons.mp later with rfl | further
          · rw [follows] at room
            omega
          · exact small node (List.mem_cons_of_mem _ further)
        · rw [List.length_cons, ← Nat.add_assoc, round]
          exact passes fuel

/-- The search takes a block, or passes all of them. -/
theorem SlobHolds.search (size : Nat) {units : Nat} (page : Option Nat) (holds : SlobHolds arena slob blocks)
    (large : 2 ≤ units) :
    (∃ m slob' blocks', SlobTaken arena slob blocks units m slob' blocks' ∧
      ∃ enough, ∀ fuel, enough ≤ fuel →
        slobAllocLoop size units fuel slob page slob.slobfree (slob.next slob.slobfree) =
          .ok (some m, slob')) ∨
    ((∀ block ∈ blocks, slob.units block.base < units) ∧
      ∃ passed prev', ∀ fuel,
        slobAllocLoop size units (fuel + passed) slob page slob.slobfree (slob.next slob.slobfree) =
          slobAllocLoop size units fuel slob page prev' slob.slobfree) := by
  have circle := holds.walk
  have start := holds.start
  have distinct := holds.nodup
  obtain ⟨rest, split⟩ := holds.head
  have bases : blocks.map Extent.base = arena :: rest.map Extent.base := by
    rw [split]
    rfl
  have arenaUnits : slob.units arena = 1 := by
    have sized := holds.units ⟨arena, slobUnit⟩ (split ▸ List.mem_cons_self)
    change 16 * slob.units arena = 16 at sized
    omega
  rw [bases] at circle start distinct
  obtain ⟨items, walk, perm⟩ := circle.rotate start
  have away := (List.nodup_cons.mp (perm.nodup_iff.mpr distinct)).1
  rcases @slobAllocLoop_scan slob size units slob.slobfree page items walk away with ⟨prev', member, fits, finds⟩ | ⟨small, prev', passes⟩
  · left
    rw [← bases] at perm circle
    have notArena : slob.next prev' ≠ arena := by
      intro same
      rw [same, arenaUnits] at fits
      omega
    obtain ⟨left, right, decomposed⟩ := circle.split_next (perm.mem_iff.mp member) notArena
    obtain ⟨leftBlocks, tail, rfl, _, tailBases⟩ := List.map_eq_append_iff.mp decomposed
    obtain ⟨previous, tail, rfl, previousBase, tailBases⟩ := List.map_eq_cons_iff.mp tailBases
    obtain ⟨block, rightBlocks, rfl, blockBase, _⟩ := List.map_eq_cons_iff.mp tailBases
    rw [← blockBase] at fits finds
    rw [← previousBase] at finds
    exact ⟨_, _, _, holds.slobTake (by omega) fits, _, finds⟩
  · right
    refine ⟨fun block member => small _ (perm.mem_iff.mpr ?_), items.length, prev', passes⟩
    rw [← bases]
    exact List.mem_map_of_mem member

/-- What `slob_alloc` does: it takes a block, it takes one after a new page, or there is none. -/
inductive SlobAlloced (arena : Nat) (slob : Slob) (blocks : List Extent) (units : Nat) :
    Option Nat → Option Nat × Slob → List Extent → Prop
  | found {page : Option Nat} {m : Nat} {slob' : Slob} {blocks' : List Extent}
      (taken : SlobTaken arena slob blocks units m slob' blocks') :
      SlobAlloced arena slob blocks units page (some m, slob') blocks'
  | added {page m : Nat} {slob₁ slob' : Slob} {blocks₁ blocks' : List Extent}
      (freed : SlobFreed arena { slob with pages := page :: slob.pages } blocks page pgSize slob₁ blocks₁)
      (taken : SlobTaken arena slob₁ blocks₁ units m slob' blocks') :
      SlobAlloced arena slob blocks units (some page) (some m, slob') blocks'
  | none : SlobAlloced arena slob blocks units none (none, slob) blocks

/-- `slob_alloc` returns, for sizes that fit into a page with two headers. -/
theorem SlobHolds.slobAlloc {size : Nat} {page : Option Nat} (holds : SlobHolds arena slob blocks)
    (large : slobUnit < size) (small : size + slobUnit < pgSize)
    (fresh : ∀ page' ∈ page, arena + slobUnit < page' ∧
      ∀ block ∈ blocks, Extent.Disjoint ⟨page', pgSize⟩ block) :
    ∃ result blocks', Returns (fun fuel => Mm.slobAlloc fuel slob size page) result ∧
      SlobAlloced arena slob blocks (slobUnits size) page result blocks' := by
  have smallNat : size < 4080 := Nat.lt_sub_of_add_lt small
  have largeNat : 16 < size := large
  have unitsLarge : 2 ≤ slobUnits size := by
    change 2 ≤ (size + 16 - 1) / 16
    omega
  have unitsSmall : slobUnits size < 256 := by
    change (size + 16 - 1) / 16 < 256
    omega
  have opened : ∀ fuel, Mm.slobAlloc fuel slob size page =
      slobAllocLoop size (slobUnits size) fuel slob page slob.slobfree (slob.next slob.slobfree) :=
    fun fuel => if_pos small
  rcases holds.search size page unitsLarge with
    ⟨m, slob', blocks', taken, enough, finds⟩ | ⟨few, passed, prev, passes⟩
  · exact ⟨_, _, ⟨enough, fun fuel more => (opened fuel).trans (finds fuel more)⟩, .found taken⟩
  have startSmall : slob.units slob.slobfree < slobUnits size := by
    obtain ⟨block, member, same⟩ := List.mem_map.mp holds.start
    rw [← same]
    exact few block member
  have notPage : size ≠ pgSize := by
    change size ≠ 4096
    omega
  cases page with
  | none =>
      refine ⟨(none, slob), blocks, ⟨passed + 1, fun fuel more => ?_⟩, .none⟩
      obtain ⟨fuel, rfl⟩ : ∃ smaller, fuel = smaller + 1 + passed := ⟨fuel - 1 - passed, by omega⟩
      dsimp only
      rw [opened, passes, slobAllocLoop_round startSmall notPage]
  | some page =>
      obtain ⟨behind, apart⟩ := fresh page rfl
      have grown : SlobHolds arena { slob with pages := page :: slob.pages } blocks :=
        holds.congr (fun _ _ => rfl) (fun _ _ => rfl) rfl
      have pageUnits : slobUnit * (if pgSize ≠ 0 then slobUnits pgSize else
          ({ slob with pages := page :: slob.pages } : Slob).units page) = pgSize := rfl
      obtain ⟨slob₁, blocks₁, ⟨enough, frees⟩, freed⟩ :=
        grown.slobFree pageUnits (by decide) behind apart
      rcases freed.holds.search size none unitsLarge with
        ⟨m, slob', blocks', taken, enough', finds⟩ | ⟨few', _⟩
      · refine ⟨_, _, ⟨max enough enough' + passed + 1, fun fuel more => ?_⟩, .added freed taken⟩
        obtain ⟨fuel, rfl⟩ : ∃ smaller, fuel = smaller + 1 + passed := ⟨fuel - 1 - passed, by omega⟩
        have frees := frees fuel (by omega)
        dsimp only at frees ⊢
        rw [opened, passes, slobAllocLoop_round startSmall notPage]
        dsimp only
        rw [frees]
        exact finds fuel (by omega)
      · -- The new page has room.
        obtain ⟨block, member, room⟩ := freed.room
        have sized := freed.holds.units block member
        have fewUnits := few' block member
        change 4096 ≤ block.size at room
        change 16 * slob₁.units block.base = block.size at sized
        omega

end UCore.Mm
