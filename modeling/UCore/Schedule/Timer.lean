import UCore.Lib.DeltaList
import UCore.Schedule.Sched

/-!
Contract: timers, `kern/schedule/sched.c`.

Owns: the list of timers, each of which counts from the one before it, and `add_timer`,
`del_timer` and `run_timer_list`.

Does not own: `do_sleep`, and runs of ticks.
-/

set_option autoImplicit false

namespace UCore.Schedule

open UCore.Lib

/-- `link` is the address of the timer. -/
structure Timer where
  link : Nat
  expires : Nat
  proc : Nat
deriving DecidableEq, Repr

/-- The loop of `add_timer`. -/
def insertTimer : List Timer → Timer → List Timer
  | [], timer => [timer]
  | next :: rest, timer =>
      if timer.expires < next.expires then
        timer :: { next with expires := next.expires - timer.expires } :: rest
      else next :: insertTimer rest { timer with expires := timer.expires - next.expires }

def addTimer (timers : List Timer) (timer : Timer) : Except Stop (List Timer) :=
  if timer.expires > 0 then .ok (insertTimer timers timer) else .error .assertFailed

/-- `del_timer` of the timer at `link`: what is left of it goes to the next one. -/
def delTimer : List Timer → Nat → List Timer
  | [], _ => []
  | timer :: rest, link =>
      if timer.link = link then
        match rest with
        | [] => []
        | next :: rest => { next with expires := next.expires + timer.expires } :: rest
      else timer :: delTimer rest link

/-! ## The timers as a delta list -/

def Timer.delta (timer : Timer) : Nat × Nat := (timer.link, timer.expires)

def deltas (timers : List Timer) : DeltaList Nat := timers.map Timer.delta

theorem deltas_insertTimer {timers : List Timer} {timer : Timer} :
    deltas (insertTimer timers timer) = (deltas timers).insert timer.link timer.expires := by
  induction timers generalizing timer with
  | nil => rfl
  | cons next rest inductionHypothesis =>
      unfold insertTimer
      by_cases earlier : timer.expires < next.expires
      · rw [if_pos earlier]
        exact (if_pos earlier).symm
      · rw [if_neg earlier]
        have tail : deltas (next :: rest) = (next.link, next.expires) :: deltas rest := rfl
        rw [tail, DeltaList.insert, if_neg earlier]
        exact congrArg ((next.link, next.expires) :: ·) inductionHypothesis

theorem deltas_delTimer {timers : List Timer} {link : Nat} :
    deltas (delTimer timers link) = (deltas timers).remove link := by
  induction timers with
  | nil => rfl
  | cons timer rest inductionHypothesis =>
      have tail : deltas (timer :: rest) = (timer.link, timer.expires) :: deltas rest := rfl
      unfold delTimer
      rw [tail, DeltaList.remove]
      by_cases here : timer.link = link
      · rw [if_pos here, if_pos here]
        cases rest <;> rfl
      · rw [if_neg here, if_neg here]
        exact congrArg ((timer.link, timer.expires) :: ·) inductionHypothesis

theorem names_deltas (timers : List Timer) : (deltas timers).names = timers.map Timer.link := by
  unfold deltas DeltaList.names
  rw [List.map_map]
  rfl

/-- The first timer still counts. -/
def HeadCounts (timers : List Timer) : Prop :=
  ∀ first, timers.head? = some first → first.expires ≠ 0

theorem headCounts_iff {timers : List Timer} :
    HeadCounts timers ↔ ∀ first, (deltas timers).head? = some first → first.2 ≠ 0 := by
  cases timers with
  | nil => exact iff_of_true nofun nofun
  | cons timer rest =>
      constructor
      · intro counts first isHead
        cases isHead
        exact counts timer rfl
      · intro counts first isHead
        cases isHead
        exact counts timer.delta rfl

theorem head_insertTimer {timers : List Timer} {timer : Timer} (positive : timer.expires ≠ 0)
    (counts : HeadCounts timers) : HeadCounts (insertTimer timers timer) := by
  rw [headCounts_iff, deltas_insertTimer]
  exact DeltaList.head_insert positive (headCounts_iff.mp counts)

theorem head_delTimer {timers : List Timer} {link : Nat} (counts : HeadCounts timers) :
    HeadCounts (delTimer timers link) := by
  rw [headCounts_iff, deltas_delTimer]
  exact DeltaList.head_remove (headCounts_iff.mp counts)

/-- Inserting a timer changes nothing of the others but what they count. -/
theorem map_insertTimer {Value : Type} {timers : List Timer} {timer : Timer} {read : Timer → Value}
    (keeps : ∀ (timer : Timer) expires, read { timer with expires := expires } = read timer) :
    ((insertTimer timers timer).map read).Perm (read timer :: timers.map read) := by
  induction timers generalizing timer with
  | nil => exact List.Perm.refl _
  | cons next rest inductionHypothesis =>
      unfold insertTimer
      split_ifs
      · rw [List.map_cons, List.map_cons, List.map_cons, keeps next]
      · have rest := @inductionHypothesis { timer with expires := timer.expires - next.expires }
        rw [keeps timer] at rest
        exact (rest.cons (read next)).trans (List.Perm.swap _ _ _)

/-- So does removing one. -/
theorem map_delTimer {Value : Type} {timers : List Timer} {link : Nat} {read : Timer → Value}
    (keeps : ∀ (timer : Timer) expires, read { timer with expires := expires } = read timer) :
    ((delTimer timers link).map read).Sublist (timers.map read) := by
  induction timers with
  | nil => exact List.Sublist.refl _
  | cons timer rest inductionHypothesis =>
      unfold delTimer
      split_ifs
      · cases rest with
        | nil => exact List.nil_sublist _
        | cons next rest =>
            rw [List.map_cons, keeps next]
            exact List.sublist_cons_self _ _
      · exact inductionHypothesis.cons_cons _

/-! ## Timers on the stacks of their processes -/

/-- Each timer lives on the stack of the process that it wakes, so that its address names the
process. -/
structure OnStacks (timers : List Timer) : Prop where
  own : ∀ timer ∈ timers, timer.link = timer.proc
  distinct : (timers.map Timer.link).Nodup

namespace OnStacks

variable {timers : List Timer} {timer : Timer} {proc other : Nat}

theorem nil : OnStacks [] := ⟨nofun, List.nodup_nil⟩

theorem links_eq (onStacks : OnStacks timers) : timers.map Timer.link = timers.map Timer.proc :=
  List.map_congr_left onStacks.own

theorem own_iff : (∀ timer ∈ timers, timer.link = timer.proc) ↔
    ∀ names ∈ timers.map (fun timer => (timer.link, timer.proc)), names.1 = names.2 := by
  rw [List.forall_mem_map]

theorem insert (onStacks : OnStacks timers) (fresh : proc ∉ timers.map Timer.proc) {expires : Nat} :
    OnStacks (insertTimer timers ⟨proc, expires, proc⟩) := by
  constructor
  · rw [own_iff]
    intro names member
    have moved := (map_insertTimer fun _ _ => rfl).mem_iff.mp member
    rcases List.mem_cons.mp moved with rfl | old
    · rfl
    · exact own_iff.mp onStacks.own names old
  · have moved : ((insertTimer timers ⟨proc, expires, proc⟩).map Timer.link).Perm
        (proc :: timers.map Timer.link) := map_insertTimer fun _ _ => rfl
    rw [moved.nodup_iff, onStacks.links_eq]
    exact List.nodup_cons.mpr ⟨fresh, onStacks.links_eq ▸ onStacks.distinct⟩

theorem delete (onStacks : OnStacks timers) : OnStacks (delTimer timers proc) := by
  constructor
  · rw [own_iff]
    intro names member
    exact own_iff.mp onStacks.own names ((map_delTimer fun _ _ => rfl).mem member)
  · exact (map_delTimer fun _ _ => rfl).nodup onStacks.distinct

theorem mem_delete (onStacks : OnStacks timers) :
    other ∈ (delTimer timers proc).map Timer.proc ↔
      other ≠ proc ∧ other ∈ timers.map Timer.proc := by
  rw [← onStacks.delete.links_eq, ← onStacks.links_eq, ← names_deltas, ← names_deltas,
    deltas_delTimer, DeltaList.names_remove]
  have distinct := onStacks.distinct
  rw [← names_deltas] at distinct
  exact distinct.mem_erase_iff

theorem suffix {left : List Timer} (onStacks : OnStacks timers) (suffix : left <:+ timers) :
    OnStacks left :=
  ⟨fun timer member => onStacks.own timer (suffix.mem member),
    (suffix.map Timer.link).sublist.nodup onStacks.distinct⟩

theorem count {rest : List Timer} {expires : Nat} (onStacks : OnStacks (timer :: rest)) :
    OnStacks ({ timer with expires := expires } :: rest) := by
  refine ⟨fun other member => ?_, onStacks.distinct⟩
  rcases List.mem_cons.mp member with rfl | within
  · exact onStacks.own timer List.mem_cons_self
  · exact onStacks.own other (List.mem_cons_of_mem _ within)

end OnStacks

theorem mem_insertTimer {timers : List Timer} {timer : Timer} {proc : Nat} :
    proc ∈ (insertTimer timers timer).map Timer.proc ↔
      proc = timer.proc ∨ proc ∈ timers.map Timer.proc := by
  rw [(map_insertTimer fun _ _ => rfl).mem_iff, List.mem_cons]

def interruptible (waitState : Nat) : Bool := waitState / 2 ^ 31 % 2 = 1

section Sched

variable (schedClass : SchedClass)

/-- The loop of `run_timer_list`: the timers at the front that have expired wake their processes
and are deleted. -/
def wakeExpired (kernel : Kernel) : List Timer → Except Stop (Kernel × List Timer)
  | [] => .ok (kernel, [])
  | timer :: rest =>
      if timer.expires = 0 then
        let waitState := (kernel.procs timer.proc).waitState
        if waitState ≠ 0 ∧ interruptible waitState = false then .error .assertFailed
        else do
          let woken ← wakeupProc schedClass kernel timer.proc
          wakeExpired woken rest
      else .ok (kernel, timer :: rest)

def runTimerList (kernel : Kernel) (timers : List Timer) : Except Stop (Kernel × List Timer) := do
  let (woken, left) ← match timers with
    | [] => pure (kernel, [])
    | timer :: rest =>
        if timer.expires = 0 then Except.error .assertFailed
        else wakeExpired schedClass kernel ({ timer with expires := timer.expires - 1 } :: rest)
  pure (schedClassProcTick schedClass woken woken.current, left)

end Sched

end UCore.Schedule
