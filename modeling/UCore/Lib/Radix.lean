import Mathlib.Data.List.Induction
import Mathlib.Logic.Function.Basic

/-!
Contract: radix trees of tables that are kept in frames, over arbitrary frames, entries and roots.

Owns:
- `lookup`, the walk from a table down to an entry;
- `Owned`, which says that each table belongs to one place of one tree;
- the rules for writing an entry of a lowest table, for linking a fresh table, for planting a fresh
  root and for cutting off a part of a tree.

Does not own: how tables are stored, or what the entries of the lowest tables mean.
-/

set_option autoImplicit false

namespace UCore.Lib

universe u v w

/-- `child` is the table that an entry leads to, and `absent` what the walk finds where there is
no table. -/
structure Radix (Frame : Type u) (Entry : Type v) where
  child : Entry → Option Frame
  absent : Entry
  childless : child absent = none
  depth : Nat
  /-- which indices of the table at a place the tree uses -/
  uses : List Nat → Nat → Prop

namespace Radix

variable {Frame : Type u} {Entry : Type v} {Root : Type w} (radix : Radix Frame Entry)

/-- The entry at the end of a path from a table. -/
def lookup (entries : Frame → Nat → Entry) : Frame → List Nat → Entry
  | _, [] => radix.absent
  | frame, [index] => entries frame index
  | frame, index :: next :: rest =>
      match radix.child (entries frame index) with
      | none => radix.absent
      | some below => lookup entries below (next :: rest)

/-- The tree uses every index of a path from a place. -/
def UsesAll : List Nat → List Nat → Prop
  | _, [] => True
  | place, index :: rest => radix.uses place index ∧ UsesAll (place ++ [index]) rest

/-- `owner` says of which tree, and at which place of it, a frame is a table. -/
structure Owned (entries : Frame → Nat → Entry) (owner : Frame → Option (Root × List Nat)) :
    Prop where
  unique : ∀ frame other place, owner frame = some place → owner other = some place →
    frame = other
  /-- entries lead to the table of the place below -/
  below : ∀ frame root place index down, owner frame = some (root, place) →
    place.length + 1 < radix.depth → radix.uses place index →
    radix.child (entries frame index) = some down → owner down = some (root, place ++ [index])
  /-- a table is reached from the place above -/
  above : ∀ frame root place index, owner frame = some (root, place ++ [index]) →
    place.length + 1 < radix.depth ∧ radix.uses place index ∧
      ∃ up, owner up = some (root, place) ∧ radix.child (entries up index) = some frame
  /-- an entry that leads nowhere is the absent one -/
  clean : ∀ frame root place index, owner frame = some (root, place) → radix.uses place index →
    radix.child (entries frame index) = none → entries frame index = radix.absent

variable {radix} {entries entries' : Frame → Nat → Entry} {owner : Frame → Option (Root × List Nat)}
  {frame fresh : Frame} {root : Root} {place path : List Nat} {index : Nat} {value : Entry}

/-- A table whose entries are all absent leads nowhere. -/
theorem lookup_absent (absent : ∀ index, entries frame index = radix.absent) :
    radix.lookup entries frame path = radix.absent := by
  cases path with
  | nil => rfl
  | cons index rest =>
      cases rest with
      | nil => exact absent index
      | cons next rest =>
          unfold lookup
          rw [absent index, radix.childless]

/-- The walk only reads the entries on its path. -/
theorem Owned.lookup_congr (owned : radix.Owned entries owner)
    (here : owner frame = some (root, place)) (deep : place.length + path.length = radix.depth)
    (uses : radix.UsesAll place path)
    (same : ∀ frame before index after, owner frame = some (root, before) →
      radix.uses before index → place ++ path = before ++ index :: after →
      entries' frame index = entries frame index) :
    radix.lookup entries' frame path = radix.lookup entries frame path := by
  induction path generalizing frame place with
  | nil => rfl
  | cons index rest inductionHypothesis =>
      have sameEntry := same frame place index rest here uses.1 rfl
      cases rest with
      | nil => exact sameEntry
      | cons next rest =>
          unfold lookup
          rw [sameEntry]
          cases leads : radix.child (entries frame index) with
          | none => rfl
          | some below =>
              simp only [List.length_cons] at deep
              have inner : place.length + 1 < radix.depth := by omega
              have split : (place ++ [index]) ++ next :: rest = place ++ index :: next :: rest := by
                simp
              have belowHere := owned.below _ _ _ _ _ here inner uses.1 leads
              have belowDeep : (place ++ [index]).length + (next :: rest).length =
                  radix.depth := by
                simp only [List.length_append, List.length_cons, List.length_nil]
                omega
              exact inductionHypothesis belowHere belowDeep uses.2
                fun frame before position after isOwned isUsed isPath =>
                  same frame before position after isOwned isUsed (split ▸ isPath)

/-- Only the entries of the tables matter. -/
theorem Owned.congr (owned : radix.Owned entries owner)
    (same : ∀ frame place, owner frame = some place → entries' frame = entries frame) :
    radix.Owned entries' owner where
  unique := owned.unique
  below frame root place index down here inner uses leads := by
    rw [same _ _ here] at leads
    exact owned.below _ _ _ _ _ here inner uses leads
  above frame root place index here := by
    obtain ⟨inner, uses, up, isUp, leads⟩ := owned.above _ _ _ _ here
    exact ⟨inner, uses, up, isUp, by rw [same _ _ isUp, leads]⟩
  clean frame root place index here uses none := by
    rw [same _ _ here] at none ⊢
    exact owned.clean _ _ _ _ here uses none

/-- The tables above a table. -/
theorem Owned.prefix (owned : radix.Owned entries owner) {below : List Nat}
    (here : owner frame = some (root, place ++ below)) :
    ∃ up, owner up = some (root, place) := by
  induction below using List.reverseRecOn generalizing frame with
  | nil =>
      rw [List.append_nil] at here
      exact ⟨frame, here⟩
  | append_singleton below index inductionHypothesis =>
      rw [← List.append_assoc] at here
      obtain ⟨_, _, up, isUp, _⟩ := owned.above _ _ _ _ here
      exact inductionHypothesis isUp

/-- The walk reaches every table of its tree. -/
theorem Owned.lookup_eq (owned : radix.Owned entries owner) {target : Frame} {below : List Nat}
    (here : owner frame = some (root, place))
    (atTarget : owner target = some (root, place ++ below)) :
    radix.lookup entries frame (below ++ [index]) = entries target index := by
  induction below generalizing frame place with
  | nil =>
      rw [List.append_nil] at atTarget
      rw [owned.unique _ _ _ here atTarget]
      rfl
  | cons first rest inductionHypothesis =>
      have split : place ++ first :: rest = (place ++ [first]) ++ rest := by simp
      rw [split] at atTarget
      obtain ⟨down, isDown⟩ := owned.prefix atTarget
      obtain ⟨_, _, up, isUp, leads⟩ := owned.above _ _ _ _ isDown
      obtain rfl := owned.unique _ _ _ isUp here
      have continues := inductionHypothesis isDown atTarget
      cases rest with
      | nil =>
          simp only [List.cons_append, List.nil_append, lookup, leads]
          exact continues
      | cons next rest =>
          simp only [List.cons_append, lookup, leads]
          exact continues

theorem usesAll_append {index : Nat} :
    radix.UsesAll place (path ++ [index]) ↔ radix.UsesAll place path ∧ radix.uses (place ++ path) index := by
  induction path generalizing place with
  | nil => simp [UsesAll]
  | cons first rest inductionHypothesis =>
      simp only [List.cons_append, UsesAll, inductionHypothesis, List.append_assoc, List.nil_append,
        and_assoc]

/-- Tables stand only at places that the tree uses. -/
theorem Owned.usesAll (owned : radix.Owned entries owner) (here : owner frame = some (root, place)) :
    radix.UsesAll [] place := by
  induction place using List.reverseRecOn generalizing frame with
  | nil => exact trivial
  | append_singleton above index inductionHypothesis =>
      obtain ⟨_, uses, up, isUp, _⟩ := owned.above _ _ _ _ here
      exact usesAll_append.mpr ⟨inductionHypothesis isUp, uses⟩

/-- The table that the entries lead to along a path. -/
def walk (entries : Frame → Nat → Entry) : Frame → List Nat → Option Frame
  | frame, [] => some frame
  | frame, index :: rest =>
      (radix.child (entries frame index)).bind fun below => walk entries below rest

/-- The walk along a path reaches the table at that place, if there is one. -/
theorem Owned.walk_iff (owned : radix.Owned entries owner) {target : Frame}
    (here : owner frame = some (root, place)) (inner : place.length + path.length < radix.depth)
    (uses : radix.UsesAll place path) :
    radix.walk entries frame path = some target ↔ owner target = some (root, place ++ path) := by
  induction path generalizing frame place with
  | nil =>
      rw [List.append_nil]
      constructor
      · intro same
        rw [← Option.some.inj same]
        exact here
      · intro isTarget
        rw [owned.unique _ _ _ isTarget here]
        rfl
  | cons index rest inductionHypothesis =>
      have split : place ++ index :: rest = (place ++ [index]) ++ rest := by simp
      have shorter : place.length + 1 + rest.length < radix.depth := by
        rw [List.length_cons] at inner
        omega
      have below : place.length + 1 < radix.depth := by omega
      have length : (place ++ [index]).length + rest.length < radix.depth := by
        rw [List.length_append]
        exact shorter
      rw [split]
      unfold walk
      rw [Option.bind_eq_some_iff]
      constructor
      · rintro ⟨down, leads, rests⟩
        have isDown := owned.below _ _ _ _ _ here below uses.1 leads
        exact (inductionHypothesis isDown length uses.2).mp rests
      · intro isTarget
        obtain ⟨down, isDown⟩ := owned.prefix isTarget
        obtain ⟨_, _, up, isUp, leads⟩ := owned.above _ _ _ _ isDown
        obtain rfl := owned.unique _ _ _ isUp here
        exact ⟨down, leads, (inductionHypothesis isDown length uses.2).mpr isTarget⟩

section Update

variable [DecidableEq Frame]

/-- One entry of one table changes. -/
def write (entries : Frame → Nat → Entry) (frame : Frame) (index : Nat) (value : Entry) :
    Frame → Nat → Entry :=
  Function.update entries frame (Function.update (entries frame) index value)

theorem write_self : write entries frame index value frame index = value := by
  unfold write
  rw [Function.update_self, Function.update_self]

theorem write_of_ne {other : Frame} {position : Nat} (apart : ¬ (other = frame ∧ position = index)) :
    write entries frame index value other position = entries other position := by
  unfold write
  by_cases same : other = frame
  · subst same
    rw [Function.update_self, Function.update_of_ne fun here => apart ⟨rfl, here⟩]
  · rw [Function.update_of_ne same]

/-! ## Writing an entry of a lowest table -/

section Lowest

variable {target : Frame} {targetRoot : Root} {targetPlace : List Nat}

theorem Owned.write (owned : radix.Owned entries owner)
    (atTarget : owner target = some (targetRoot, targetPlace))
    (lowest : targetPlace.length + 1 = radix.depth)
    (proper : radix.child value = none → value = radix.absent) :
    radix.Owned (write entries target index value) owner := by
  have interior : ∀ frame root place position, owner frame = some (root, place) →
      place.length + 1 < radix.depth →
      Radix.write entries target index value frame position = entries frame position := by
    intro frame root place position here inner
    apply write_of_ne
    rintro ⟨rfl, _⟩
    obtain ⟨_, samePlace⟩ := Prod.mk.inj (Option.some.inj (here.symm.trans atTarget))
    rw [samePlace] at inner
    omega
  constructor
  · exact owned.unique
  · intro frame root place position down here inner uses leads
    rw [interior frame root place position here inner] at leads
    exact owned.below _ _ _ _ _ here inner uses leads
  · intro frame root place position here
    obtain ⟨inner, uses, up, isUp, leads⟩ := owned.above _ _ _ _ here
    refine ⟨inner, uses, up, isUp, ?_⟩
    rw [interior up root place position isUp inner]
    exact leads
  · intro frame root place position here uses none
    by_cases same : frame = target ∧ position = index
    · obtain ⟨rfl, rfl⟩ := same
      rw [write_self] at none ⊢
      exact proper none
    · rw [write_of_ne same] at none ⊢
      exact owned.clean _ _ _ _ here uses none

/-- Other walks find what they found before. -/
theorem Owned.lookup_write (owned : radix.Owned entries owner)
    (atTarget : owner target = some (targetRoot, targetPlace))
    (lowest : targetPlace.length + 1 = radix.depth) (here : owner frame = some (root, place))
    (deep : place.length + path.length = radix.depth) (uses : radix.UsesAll place path)
    (apart : ¬ (root = targetRoot ∧ place ++ path = targetPlace ++ [index])) :
    radix.lookup (Radix.write entries target index value) frame path =
      radix.lookup entries frame path := by
  apply owned.lookup_congr here deep uses
  intro visited before position after isOwned _ isPath
  apply write_of_ne
  rintro ⟨rfl, rfl⟩
  obtain ⟨rfl, rfl⟩ := Prod.mk.inj (Option.some.inj (isOwned.symm.trans atTarget))
  have last : after = [] := by
    have lengths := congrArg List.length isPath
    simp only [List.length_append, List.length_cons] at lengths
    exact List.length_eq_zero_iff.mp (by omega)
  subst last
  exact apart ⟨rfl, isPath⟩

/-- The walk to the entry finds the value. -/
theorem Owned.lookup_write_self (owned : radix.Owned entries owner)
    (atTarget : owner target = some (targetRoot, targetPlace))
    (lowest : targetPlace.length + 1 = radix.depth)
    (proper : radix.child value = none → value = radix.absent)
    (here : owner frame = some (targetRoot, [])) :
    radix.lookup (Radix.write entries target index value) frame (targetPlace ++ [index]) =
      value := by
  have written : radix.Owned (Radix.write entries target index value) owner :=
    owned.write atTarget lowest proper
  rw [written.lookup_eq here (by rwa [List.nil_append]), write_self]

end Lowest

/-! ## Linking and unlinking tables -/

section Link

variable {up : Frame} {upRoot : Root} {upPlace : List Nat}

/-- A fresh table is cleared and linked at an entry that leads nowhere. -/
def link (radix : Radix Frame Entry) (entries : Frame → Nat → Entry) (up : Frame) (index : Nat)
    (fresh : Frame) (value : Entry) : Frame → Nat → Entry :=
  Radix.write (Function.update entries fresh fun _ => radix.absent) up index value

theorem link_fresh (apart : fresh ≠ up) (position : Nat) :
    radix.link entries up index fresh value fresh position = radix.absent := by
  unfold link
  rw [write_of_ne fun both => apart both.1, Function.update_self]

theorem link_of_ne {other : Frame} {position : Nat} (notFresh : other ≠ fresh)
    (apart : ¬ (other = up ∧ position = index)) :
    radix.link entries up index fresh value other position = entries other position := by
  unfold link
  rw [write_of_ne apart, Function.update_of_ne notFresh]

theorem link_self : radix.link entries up index fresh value up index = value := write_self

theorem Owned.link (owned : radix.Owned entries owner) (atUp : owner up = some (upRoot, upPlace))
    (inner : upPlace.length + 1 < radix.depth) (uses : radix.uses upPlace index)
    (leadsNowhere : radix.child (entries up index) = none) (unowned : owner fresh = none)
    (leads : radix.child value = some fresh) :
    radix.Owned (radix.link entries up index fresh value)
      (Function.update owner fresh (some (upRoot, upPlace ++ [index]))) := by
  have freshUp : fresh ≠ up := by
    rintro rfl
    rw [unowned] at atUp
    cases atUp
  have vacant : ∀ frame, owner frame ≠ some (upRoot, upPlace ++ [index]) := by
    intro frame here
    obtain ⟨_, _, other, isUp, isLinked⟩ := owned.above _ _ _ _ here
    rw [owned.unique _ _ _ isUp atUp, leadsNowhere] at isLinked
    cases isLinked
  have old : ∀ frame place, frame ≠ fresh →
      Function.update owner fresh (some (upRoot, upPlace ++ [index])) frame = some place →
      owner frame = some place := by
    intro frame place apart here
    rwa [Function.update_of_ne apart] at here
  constructor
  · intro frame other place here otherHere
    by_cases isFresh : frame = fresh <;> by_cases otherFresh : other = fresh
    · rw [isFresh, otherFresh]
    · subst isFresh
      rw [Function.update_self] at here
      rw [← here] at otherHere
      exact absurd (old _ _ otherFresh otherHere) (vacant other)
    · subst otherFresh
      rw [Function.update_self] at otherHere
      rw [← otherHere] at here
      exact absurd (old _ _ isFresh here) (vacant frame)
    · exact owned.unique _ _ _ (old _ _ isFresh here) (old _ _ otherFresh otherHere)
  · intro frame root place position down here deeper isUsed isLinked
    have notFresh : frame ≠ fresh := by
      rintro rfl
      rw [link_fresh freshUp, radix.childless] at isLinked
      cases isLinked
    have wasHere := old _ _ notFresh here
    by_cases same : frame = up ∧ position = index
    · obtain ⟨rfl, rfl⟩ := same
      obtain ⟨rfl, rfl⟩ := Prod.mk.inj (Option.some.inj (wasHere.symm.trans atUp))
      rw [link_self, leads] at isLinked
      rw [← Option.some.inj isLinked, Function.update_self]
    · rw [link_of_ne notFresh same] at isLinked
      have downHere := owned.below _ _ _ _ _ wasHere deeper isUsed isLinked
      have downOld : down ≠ fresh := by
        rintro rfl
        rw [unowned] at downHere
        cases downHere
      rw [Function.update_of_ne downOld]
      exact downHere
  · intro frame root place position here
    by_cases isFresh : frame = fresh
    · subst isFresh
      rw [Function.update_self] at here
      obtain ⟨rfl, isPlace⟩ := Prod.mk.inj (Option.some.inj here)
      obtain ⟨rfl, isIndex⟩ := List.append_inj' isPlace rfl
      obtain rfl : index = position := List.singleton_inj.mp isIndex
      refine ⟨inner, uses, up, ?_, ?_⟩
      · rw [Function.update_of_ne freshUp.symm]
        exact atUp
      · rw [link_self]
        exact leads
    · obtain ⟨deeper, isUsed, other, isUp, isLinked⟩ := owned.above _ _ _ _ (old _ _ isFresh here)
      have otherOld : other ≠ fresh := by
        rintro rfl
        rw [unowned] at isUp
        cases isUp
      have elsewhere : ¬ (other = up ∧ position = index) := by
        rintro ⟨rfl, rfl⟩
        rw [leadsNowhere] at isLinked
        cases isLinked
      refine ⟨deeper, isUsed, other, ?_, ?_⟩
      · rw [Function.update_of_ne otherOld]
        exact isUp
      · rw [link_of_ne otherOld elsewhere]
        exact isLinked
  · intro frame root place position here isUsed none
    by_cases isFresh : frame = fresh
    · subst isFresh
      exact link_fresh freshUp position
    · by_cases same : frame = up ∧ position = index
      · obtain ⟨rfl, rfl⟩ := same
        rw [link_self, leads] at none
        cases none
      · rw [link_of_ne isFresh same] at none ⊢
        exact owned.clean _ _ _ _ (old _ _ isFresh here) isUsed none

/-- A fresh root is planted, with no table below it. -/
theorem Owned.plant {newRoot : Root} (owned : radix.Owned entries owner)
    (unowned : owner fresh = none) (vacant : ∀ frame place, owner frame ≠ some (newRoot, place))
    (same : ∀ frame, frame ≠ fresh → entries' frame = entries frame)
    (empty : ∀ index, radix.uses [] index → entries' fresh index = radix.absent) :
    radix.Owned entries' (Function.update owner fresh (some (newRoot, []))) := by
  have old : ∀ frame place, frame ≠ fresh →
      Function.update owner fresh (some (newRoot, [])) frame = some place →
      owner frame = some place := by
    intro frame place apart here
    rwa [Function.update_of_ne apart] at here
  have owned_apart : ∀ frame place, owner frame = some place → frame ≠ fresh := by
    intro frame place here isFresh
    rw [isFresh, unowned] at here
    cases here
  constructor
  · intro frame other place here otherHere
    by_cases isFresh : frame = fresh <;> by_cases otherFresh : other = fresh
    · rw [isFresh, otherFresh]
    · subst isFresh
      rw [Function.update_self] at here
      rw [← here] at otherHere
      exact absurd (old _ _ otherFresh otherHere) (vacant other [])
    · subst otherFresh
      rw [Function.update_self] at otherHere
      rw [← otherHere] at here
      exact absurd (old _ _ isFresh here) (vacant frame [])
    · exact owned.unique _ _ _ (old _ _ isFresh here) (old _ _ otherFresh otherHere)
  · intro frame root place index down here inner uses leads
    by_cases isFresh : frame = fresh
    · subst isFresh
      rw [Function.update_self] at here
      obtain ⟨rfl, rfl⟩ := Prod.mk.inj (Option.some.inj here)
      rw [empty index uses, radix.childless] at leads
      cases leads
    · rw [same frame isFresh] at leads
      have isDown := owned.below _ _ _ _ _ (old _ _ isFresh here) inner uses leads
      rw [Function.update_of_ne (owned_apart _ _ isDown), isDown]
  · intro frame root place index here
    by_cases isFresh : frame = fresh
    · subst isFresh
      rw [Function.update_self] at here
      have isNil := (Prod.mk.inj (Option.some.inj here)).2
      exact absurd isNil.symm (List.append_ne_nil_of_right_ne_nil _ (List.cons_ne_nil _ _))
    · obtain ⟨inner, uses, up, isUp, leads⟩ := owned.above _ _ _ _ (old _ _ isFresh here)
      have apart := owned_apart _ _ isUp
      exact ⟨inner, uses, up, by rw [Function.update_of_ne apart, isUp], by rw [same up apart, leads]⟩
  · intro frame root place index here uses none
    by_cases isFresh : frame = fresh
    · subst isFresh
      rw [Function.update_self] at here
      obtain ⟨rfl, rfl⟩ := Prod.mk.inj (Option.some.inj here)
      exact empty index uses
    · rw [same frame isFresh] at none ⊢
      exact owned.clean _ _ _ _ (old _ _ isFresh here) uses none

/-- Linking a table changes no walk. -/
theorem Owned.lookup_link (owned : radix.Owned entries owner)
    (leadsNowhere : radix.child (entries up index) = none) (unowned : owner fresh = none)
    (freshUp : fresh ≠ up) (leads : radix.child value = some fresh)
    (here : owner frame = some (root, place)) (inner : place.length < radix.depth)
    (deep : place.length + path.length = radix.depth) (uses : radix.UsesAll place path)
    (upper : ∀ place, owner up = some place → place.2.length + 1 < radix.depth) :
    radix.lookup (radix.link entries up index fresh value) frame path =
      radix.lookup entries frame path := by
  induction path generalizing frame place with
  | nil => rfl
  | cons position rest inductionHypothesis =>
      have notFresh : frame ≠ fresh := by
        rintro rfl
        rw [unowned] at here
        cases here
      simp only [List.length_cons] at deep
      cases rest with
      | nil =>
          have notUp : frame ≠ up := by
            rintro rfl
            have short : place.length + 1 < radix.depth := upper _ here
            simp only [List.length_nil] at deep
            omega
          exact link_of_ne notFresh fun both => notUp both.1
      | cons next rest =>
          unfold lookup
          by_cases same : frame = up ∧ position = index
          · obtain ⟨rfl, rfl⟩ := same
            rw [link_self, leads, leadsNowhere]
            exact lookup_absent fun position => link_fresh freshUp position
          · rw [link_of_ne notFresh same]
            cases isLinked : radix.child (entries frame position) with
            | none => rfl
            | some below =>
                simp only [List.length_cons] at deep
                have deeper : place.length + 1 < radix.depth := by omega
                have belowHere := owned.below _ _ _ _ _ here deeper uses.1 isLinked
                refine inductionHypothesis belowHere ?_ ?_ uses.2
                · simp only [List.length_append, List.length_cons, List.length_nil]
                  omega
                · simp only [List.length_append, List.length_cons, List.length_nil]
                  omega

end Link

end Update

/-! ## Cutting off a part of a tree -/

section Prune

variable [DecidableEq Root] {cutRoot : Root} {cut : List Nat}

/-- The tables at a place and below it belong to the tree no longer. -/
def prune (owner : Frame → Option (Root × List Nat)) (cutRoot : Root) (cut : List Nat) (frame : Frame) :
    Option (Root × List Nat) :=
  (owner frame).filter fun here => decide (¬ (here.1 = cutRoot ∧ cut <+: here.2))

theorem prune_some : prune owner cutRoot cut frame = some (root, place) ↔
    owner frame = some (root, place) ∧ ¬ (root = cutRoot ∧ cut <+: place) := by
  unfold prune
  rw [Option.filter_eq_some_iff, decide_eq_true_eq]

/-- Of the tables that stay, the one above the cut loses its entry for it. -/
def Cut (radix : Radix Frame Entry) (entries entries' : Frame → Nat → Entry)
    (owner : Frame → Option (Root × List Nat)) (cutRoot : Root) (cut : List Nat) : Prop :=
  ∀ frame root place index, prune owner cutRoot cut frame = some (root, place) →
    entries' frame index =
      if root = cutRoot ∧ cut = place ++ [index] then radix.absent else entries frame index

theorem Owned.prune (owned : radix.Owned entries owner)
    (isCut : radix.Cut entries entries' owner cutRoot cut) :
    radix.Owned entries' (Radix.prune owner cutRoot cut) := by
  constructor
  · intro frame other place here otherHere
    exact owned.unique _ _ _ (prune_some.mp here).1 (prune_some.mp otherHere).1
  · intro frame root place index down here inner uses leads
    obtain ⟨isOwned, stays⟩ := prune_some.mp here
    rw [isCut frame root place index here] at leads
    split_ifs at leads with atCut
    · rw [radix.childless] at leads
      cases leads
    · refine prune_some.mpr ⟨owned.below _ _ _ _ _ isOwned inner uses leads, fun gone => ?_⟩
      rcases List.prefix_concat_iff.mp gone.2 with same | above
      · exact atCut ⟨gone.1, same⟩
      · exact stays ⟨gone.1, above⟩
  · intro frame root place index here
    obtain ⟨isOwned, stays⟩ := prune_some.mp here
    obtain ⟨inner, uses, up, isUp, leads⟩ := owned.above _ _ _ _ isOwned
    have upStays : Radix.prune owner cutRoot cut up = some (root, place) :=
      prune_some.mpr ⟨isUp, fun gone => stays ⟨gone.1, gone.2.trans (List.prefix_append _ _)⟩⟩
    refine ⟨inner, uses, up, upStays, ?_⟩
    rw [isCut up root place index upStays, if_neg]
    · exact leads
    · exact fun atCut => stays ⟨atCut.1, atCut.2 ▸ List.prefix_rfl⟩
  · intro frame root place index here uses none
    rw [isCut frame root place index here] at none ⊢
    split_ifs at none ⊢ with atCut
    · rfl
    · exact owned.clean _ _ _ _ (prune_some.mp here).1 uses none

/-- A walk through the cut finds nothing, and other walks find what they found before. -/
theorem Owned.lookup_prune (owned : radix.Owned entries owner)
    (isCut : radix.Cut entries entries' owner cutRoot cut)
    (here : Radix.prune owner cutRoot cut frame = some (root, place))
    (deep : place.length + path.length = radix.depth) (uses : radix.UsesAll place path) :
    radix.lookup entries' frame path =
      if root = cutRoot ∧ cut <+: place ++ path then radix.absent
      else radix.lookup entries frame path := by
  induction path generalizing frame place with
  | nil => exact (ite_self _).symm
  | cons index rest inductionHypothesis =>
      obtain ⟨isOwned, stays⟩ := prune_some.mp here
      have entry := isCut frame root place index here
      cases rest with
      | nil =>
          have through : (root = cutRoot ∧ cut <+: place ++ [index]) ↔
              root = cutRoot ∧ cut = place ++ [index] := by
            refine and_congr_right fun same => ?_
            rw [List.prefix_concat_iff]
            exact or_iff_left fun above => stays ⟨same, above⟩
          simp only [through]
          exact entry
      | cons next rest =>
          simp only [List.length_cons] at deep
          have split : (place ++ [index]) ++ next :: rest = place ++ index :: next :: rest := by simp
          unfold lookup
          rw [entry]
          by_cases atCut : root = cutRoot ∧ cut = place ++ [index]
          · rw [if_pos atCut, radix.childless, if_pos]
            exact ⟨atCut.1, atCut.2 ▸ split ▸ List.prefix_append _ _⟩
          · rw [if_neg atCut]
            cases leads : radix.child (entries frame index) with
            | none => exact (ite_self _).symm
            | some below =>
                have inner : place.length + 1 < radix.depth := by omega
                have belowHere := (owned.prune isCut).below frame root place index below here inner
                  uses.1 (by rw [entry, if_neg atCut, leads])
                have belowDeep : (place ++ [index]).length + (next :: rest).length =
                    radix.depth := by
                  simp only [List.length_append, List.length_cons, List.length_nil]
                  omega
                have inner := inductionHypothesis belowHere belowDeep uses.2
                rw [split] at inner
                exact inner

end Prune

end Radix

end UCore.Lib
