import Mathlib.Data.List.Basic
import Mathlib.Data.List.Nodup
import Mathlib.Tactic.Ring

/-!
Contract: lists whose entries each count from the entry before them, over arbitrary names.

Owns:
- inserting an entry that is due after a while, and removing one;
- `due`, what the entries up to a name count together, and how each operation changes it;
- the entries at the front that are due at once.

Does not own: what happens to an entry that is due.
-/

set_option autoImplicit false

namespace UCore.Lib

universe u

/-- Names with the count from the entry before. -/
abbrev DeltaList (Name : Type u) : Type u := List (Name × Nat)

namespace DeltaList

variable {Name : Type u}

def insert : DeltaList Name → Name → Nat → DeltaList Name
  | [], name, wait => [(name, wait)]
  | (next, gap) :: rest, name, wait =>
      if wait < gap then (name, wait) :: (next, gap - wait) :: rest
      else (next, gap) :: insert rest name (wait - gap)

/-- What an entry counted goes to the one behind it. -/
def merge (gap : Nat) : DeltaList Name → DeltaList Name
  | [] => []
  | (next, gap') :: rest => (next, gap' + gap) :: rest

def names (entries : DeltaList Name) : List Name := entries.map Prod.fst

variable [DecidableEq Name]

def remove : DeltaList Name → Name → DeltaList Name
  | [], _ => []
  | (other, gap) :: rest, name =>
      if other = name then merge gap rest else (other, gap) :: remove rest name

/-- How long the entry of a name has to wait. -/
def due : DeltaList Name → Name → Option Nat
  | [], _ => none
  | (other, gap) :: rest, name =>
      if other = name then some gap else (due rest name).map (gap + ·)

variable {entries rest : DeltaList Name} {name other : Name} {gap wait : Nat}

theorem due_head : due ((name, gap) :: rest) name = some gap := if_pos rfl

theorem due_tail (apart : other ≠ name) :
    due ((other, gap) :: rest) name = (due rest name).map (gap + ·) := if_neg apart

theorem due_eq_none : due entries name = none ↔ name ∉ entries.names := by
  induction entries with
  | nil => exact iff_of_true rfl List.not_mem_nil
  | cons entry rest inductionHypothesis =>
      obtain ⟨other, gap⟩ := entry
      by_cases same : other = name
      · subst same
        rw [due_head]
        exact iff_of_false nofun fun absent => absent List.mem_cons_self
      · rw [due_tail same, Option.map_eq_none_iff, inductionHypothesis]
        unfold names
        rw [List.map_cons, List.mem_cons, not_or]
        exact (and_iff_right (Ne.symm same)).symm

/-! ## Inserting -/

omit [DecidableEq Name] in
theorem names_insert : (insert entries name wait).names.Perm (name :: entries.names) := by
  induction entries generalizing wait with
  | nil => exact List.Perm.refl _
  | cons entry rest inductionHypothesis =>
      obtain ⟨next, gap⟩ := entry
      unfold insert
      split_ifs
      · exact List.Perm.refl _
      · exact (inductionHypothesis.cons next).trans (List.Perm.swap name next (names rest))

/-- The others wait as long as before. -/
theorem due_insert (fresh : name ∉ entries.names) :
    due (insert entries name wait) other = if other = name then some wait else due entries other := by
  induction entries generalizing wait with
  | nil =>
      by_cases same : other = name
      · rw [if_pos same, same]
        exact due_head
      · rw [if_neg same]
        exact due_tail (Ne.symm same)
  | cons entry rest inductionHypothesis =>
      obtain ⟨next, gap⟩ := entry
      have freshRest : name ∉ names rest := fun member => fresh (List.mem_cons_of_mem _ member)
      have apart : next ≠ name := by
        rintro rfl
        exact fresh List.mem_cons_self
      unfold insert
      split_ifs with earlier isName isName
      · subst isName
        exact due_head
      · rw [due_tail (Ne.symm isName)]
        by_cases isNext : next = other
        · subst isNext
          rw [due_head, due_head, Option.map_some]
          congr 1
          omega
        · rw [due_tail isNext, due_tail isNext, Option.map_map]
          congr 1
          funext more
          show wait + (gap - wait + more) = gap + more
          omega
      · subst isName
        rw [due_tail apart, inductionHypothesis freshRest, if_pos rfl, Option.map_some]
        congr 1
        omega
      · by_cases isNext : next = other
        · subst isNext
          rw [due_head, due_head]
        · rw [due_tail isNext, due_tail isNext, inductionHypothesis freshRest, if_neg isName]

omit [DecidableEq Name] in
theorem head_insert (positive : wait ≠ 0)
    (counts : ∀ first, entries.head? = some first → first.2 ≠ 0) :
    ∀ first, (insert entries name wait).head? = some first → first.2 ≠ 0 := by
  cases entries with
  | nil =>
      intro first isHead
      cases isHead
      exact positive
  | cons next rest =>
      unfold insert
      split_ifs
      · intro first isHead
        cases isHead
        exact positive
      · exact counts

/-! ## Removing -/

omit [DecidableEq Name] in
theorem names_merge : (merge gap entries).names = entries.names := by
  cases entries <;> rfl

theorem due_merge : due (merge gap entries) name = (due entries name).map (gap + ·) := by
  cases entries with
  | nil => rfl
  | cons entry rest =>
      obtain ⟨next, gap'⟩ := entry
      unfold merge
      by_cases same : next = name
      · subst same
        rw [due_head, due_head, Option.map_some, Nat.add_comm]
      · rw [due_tail same, due_tail same, Option.map_map]
        congr 1
        funext more
        show gap' + gap + more = gap + (gap' + more)
        omega

theorem names_remove : (remove entries name).names = entries.names.erase name := by
  induction entries with
  | nil => rfl
  | cons entry rest inductionHypothesis =>
      obtain ⟨other, gap⟩ := entry
      unfold remove
      by_cases same : other = name
      · subst same
        rw [if_pos rfl, names_merge]
        exact (List.erase_cons_head other (names rest)).symm
      · rw [if_neg same]
        have tail : names ((other, gap) :: rest) = other :: names rest := rfl
        rw [tail, List.erase_cons_tail fun equal => same (beq_iff_eq.mp equal)]
        exact congrArg (other :: ·) inductionHypothesis

theorem due_remove (distinct : entries.names.Nodup) :
    due (remove entries name) other = if other = name then none else due entries other := by
  by_cases isName : other = name
  · subst isName
    rw [if_pos rfl, due_eq_none, names_remove]
    exact fun member => (distinct.mem_erase_iff.mp member).1 rfl
  · rw [if_neg isName]
    induction entries with
    | nil => rfl
    | cons entry rest inductionHypothesis =>
        obtain ⟨next, gap⟩ := entry
        have distinctRest : (names rest).Nodup := (List.nodup_cons.mp distinct).2
        unfold remove
        by_cases same : next = name
        · subst same
          rw [if_pos rfl, due_merge, due_tail (Ne.symm isName)]
        · rw [if_neg same]
          by_cases isNext : next = other
          · subst isNext
            rw [due_head, due_head]
          · rw [due_tail isNext, due_tail isNext, inductionHypothesis distinctRest]

theorem head_remove (counts : ∀ first, entries.head? = some first → first.2 ≠ 0) :
    ∀ first, (remove entries name).head? = some first → first.2 ≠ 0 := by
  cases entries with
  | nil => exact nofun
  | cons entry rest =>
      obtain ⟨other, gap⟩ := entry
      have positive : gap ≠ 0 := counts (other, gap) rfl
      unfold remove
      split_ifs
      · cases rest with
        | nil => exact nofun
        | cons next rest =>
            intro first isHead
            cases isHead
            show next.2 + gap ≠ 0
            omega
      · exact counts

/-! ## Time passing -/

/-- One unit of time passes. -/
def tick : DeltaList Name → DeltaList Name
  | [] => []
  | (name, gap) :: rest => (name, gap - 1) :: rest

omit [DecidableEq Name] in
theorem names_tick : (tick entries).names = entries.names := by
  cases entries <;> rfl

/-- Where the first entry still counts, every entry waits for at least one unit. -/
theorem due_pos (counts : ∀ first, entries.head? = some first → first.2 ≠ 0)
    (waits : due entries name = some wait) : 0 < wait := by
  cases entries with
  | nil => cases waits
  | cons entry rest =>
      obtain ⟨other, gap⟩ := entry
      have positive : gap ≠ 0 := counts (other, gap) rfl
      by_cases same : other = name
      · subst same
        rw [due_head] at waits
        cases waits
        exact Nat.pos_of_ne_zero positive
      · rw [due_tail same] at waits
        obtain ⟨more, _, rfl⟩ := Option.map_eq_some_iff.mp waits
        omega

theorem due_tick (counts : ∀ first, entries.head? = some first → first.2 ≠ 0) :
    due (tick entries) name = (due entries name).map (· - 1) := by
  cases entries with
  | nil => rfl
  | cons entry rest =>
      obtain ⟨other, gap⟩ := entry
      have positive : gap ≠ 0 := counts (other, gap) rfl
      unfold tick
      by_cases same : other = name
      · subst same
        rw [due_head, due_head, Option.map_some]
      · rw [due_tail same, due_tail same, Option.map_map]
        congr 1
        funext more
        show gap - 1 + more = gap + more - 1
        omega

/-- What all entries count together is what the last one waits. -/
theorem sum_lt {bound : Nat} (positive : 0 < bound) (distinct : entries.names.Nodup)
    (small : ∀ name wait, due entries name = some wait → wait < bound) :
    (entries.map Prod.snd).sum < bound := by
  induction entries generalizing bound with
  | nil => exact positive
  | cons entry rest inductionHypothesis =>
      obtain ⟨other, gap⟩ := entry
      obtain ⟨absent, distinctRest⟩ := List.nodup_cons.mp distinct
      have first : gap < bound := small other gap due_head
      have others : (rest.map Prod.snd).sum < bound - gap := by
        apply inductionHypothesis (by omega) distinctRest
        intro name wait waits
        have apart : other ≠ name := by
          rintro rfl
          have listed : ¬ due rest other = none := by
            rw [waits]
            exact nofun
          exact listed (due_eq_none.mpr absent)
        have later := small name (gap + wait) (by rw [due_tail apart, waits, Option.map_some])
        omega
      rw [List.map_cons, List.sum_cons]
      show gap + (rest.map Prod.snd).sum < bound
      omega

/-- The entries that are due at once are those at the front that count nothing. -/
theorem due_expired {expired : DeltaList Name} (zero : ∀ entry ∈ expired, entry.2 = 0)
    (counts : ∀ first, rest.head? = some first → first.2 ≠ 0)
    (distinct : (expired ++ rest).names.Nodup) :
    (due (expired ++ rest) name = some 0 ↔ name ∈ expired.names) ∧
      (name ∉ expired.names → due (expired ++ rest) name = due rest name) := by
  induction expired with
  | nil =>
      refine ⟨iff_of_false ?_ List.not_mem_nil, fun _ => rfl⟩
      intro atOnce
      exact absurd (due_pos counts atOnce) (Nat.lt_irrefl 0)
  | cons entry expired inductionHypothesis =>
      obtain ⟨other, gap⟩ := entry
      have noGap : gap = 0 := zero (other, gap) List.mem_cons_self
      subst noGap
      obtain ⟨zeroIff, later⟩ := inductionHypothesis
        (fun entry member => zero entry (List.mem_cons_of_mem _ member))
        (List.nodup_cons.mp distinct).2
      have unchanged : other ≠ name → due ((other, 0) :: (expired ++ rest)) name =
          due (expired ++ rest) name := by
        intro apart
        rw [due_tail apart]
        have same : (fun more => 0 + more) = (id : Nat → Nat) := by
          funext more
          exact Nat.zero_add more
        rw [same, Option.map_id_fun, id]
      rw [List.cons_append]
      by_cases same : other = name
      · subst same
        rw [due_head]
        exact ⟨iff_of_true rfl List.mem_cons_self, fun absent => absurd List.mem_cons_self absent⟩
      · have listed : name ∈ names ((other, 0) :: expired) ↔ name ∈ names expired := by
          unfold names
          rw [List.map_cons, List.mem_cons]
          exact or_iff_right (Ne.symm same)
        rw [unchanged same, listed]
        exact ⟨zeroIff, later⟩

end DeltaList

end UCore.Lib
