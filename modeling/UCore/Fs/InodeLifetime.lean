import UCore.Lib.Tally
import UCore.Fs.InodeRef

/-!
Contract: the life of one inode in memory.

Owns:
- what a process is to an inode, and how the counts of the inode follow the processes;
- what each step of `sfs_load_inode`, `inode_ref_inc`, `inode_ref_dec` and `sfs_reclaim` does to
  them.

Does not own: the hash lists, and the lock that makes the steps of `sfs_reclaim` one at a time.
-/

set_option autoImplicit false

namespace UCore.Fs

open UCore.Lib UCore.Sync

/-! ## One inode -/

/-- What a process is to an inode. -/
inductive Role
  | none
  /-- `sfs_load_inode` has found or made it and has not returned it yet -/
  | carries
  /-- between dropping the last reference and the checks of `sfs_reclaim` -/
  | pends
  /-- `sfs_reclaim` has decided to free it -/
  | decided
  /-- it is off the list and about to be freed -/
  | dead
  /-- `sfs_reclaim` leaves without freeing it -/
  | fails
deriving DecidableEq, Repr

/-- The counts of an inode: the references, one reclaim for each process that is to make one and
one for those who hold references, and how often it was freed. -/
structure NodeOk (procs : Finset Nat) (linked : Prop) (inode : MemInode) (holders : Nat)
    (roles : Nat → Role) : Prop where
  outside : ∀ proc, proc ∉ procs → roles proc = .none
  counted : (inode.sin.refCount : Int) = holders + tally procs roles fun role => role = .carries
  reclaims : linked → (inode.sin.reclaimCount : Int) =
    (tally procs roles fun role => role = .pends) + if 0 < inode.sin.refCount then 1 else 0
  unlinked : ¬ linked → inode.sin.refCount = 0 ∧ ∀ proc, roles proc = .none ∨ roles proc = .dead
  decided : ∀ proc, roles proc = .decided →
    inode.sin.refCount = 0 ∧ inode.sin.reclaimCount = 0
  dead : ∀ proc, roles proc = .dead →
    ¬ linked ∧ inode.frees = 0 ∧ ∀ other, roles other = .dead → other = proc
  once : inode.frees ≤ 1
  alive : linked → inode.frees = 0

namespace NodeOk

variable {procs : Finset Nat} {linked : Prop} {inode after : MemInode} {holders : Nat}
  {roles : Nat → Role} {proc : Nat} {role : Role}

theorem outside_update (ok : NodeOk procs linked inode holders roles) (member : proc ∈ procs) :
    ∀ other, other ∉ procs → Function.update roles proc role other = .none := by
  intro other absent
  have apart : other ≠ proc := fun same => absent (same ▸ member)
  rw [Function.update_of_ne apart]
  exact ok.outside other absent

/-- A role that is not new to `proc` was there. -/
theorem of_update {other : Nat} {kind : Role}
    (here : Function.update roles proc role other = kind) (differs : role ≠ kind) : other ≠ proc ∧ roles other = kind := by
  by_cases same : other = proc
  · subst same
    rw [Function.update_self] at here
    exact absurd here differs
  · rw [Function.update_of_ne same] at here
    exact ⟨same, here⟩

/-- Who references an inode finds it on its list. -/
theorem linked_of_role (ok : NodeOk procs linked inode holders roles)
    (alive : roles proc ≠ .none) (notDead : roles proc ≠ .dead) : linked := by
  by_contra gone
  rcases (ok.unlinked gone).2 proc with none | dead
  · exact alive none
  · exact notDead dead

theorem linked_of_refCount (ok : NodeOk procs linked inode holders roles)
    (referenced : 0 < inode.sin.refCount) : linked := by
  by_contra gone
  rw [(ok.unlinked gone).1] at referenced
  omega

theorem refCount_pos_of_carries (ok : NodeOk procs linked inode holders roles)
    (carries : roles proc = .carries) : 0 < inode.sin.refCount := by
  have member : proc ∈ procs := by
    by_contra absent
    rw [ok.outside proc absent] at carries
    cases carries
  by_contra none
  have counted := ok.counted
  have nonneg : 0 ≤ tally procs roles fun role => role = .carries := tally_nonneg
  have zero : (tally procs roles fun role => role = .carries) = 0 := by omega
  have contradiction := tally_eq_zero zero member
  rw [carries] at contradiction
  cases contradiction

theorem refCount_pos_of_holders (ok : NodeOk procs linked inode holders roles)
    (held : 0 < holders) : 0 < inode.sin.refCount := by
  have counted := ok.counted
  have nonneg : 0 ≤ tally procs roles fun role => role = .carries := tally_nonneg
  omega

theorem reclaimCount_pos_of_pends (ok : NodeOk procs linked inode holders roles)
    (pends : roles proc = .pends) : 0 < inode.sin.reclaimCount := by
  have linked := ok.linked_of_role (by rw [pends]; exact nofun) (by rw [pends]; exact nofun)
  have member : proc ∈ procs := by
    by_contra absent
    rw [ok.outside proc absent] at pends
    cases pends
  by_contra none
  have reclaims := ok.reclaims linked
  have nonneg : 0 ≤ tally procs roles fun role => role = .pends := tally_nonneg
  have zero : (tally procs roles fun role => role = .pends) = 0 := by
    split_ifs at reclaims <;> omega
  have contradiction := tally_eq_zero zero member
  rw [pends] at contradiction
  cases contradiction

/-- The counts stay, and so does what the process is to the inode as far as they tell. -/
theorem goesOn (ok : NodeOk procs linked inode holders roles) (member : proc ∈ procs)
    (refCount : after.sin.refCount = inode.sin.refCount)
    (reclaimCount : after.sin.reclaimCount = inode.sin.reclaimCount)
    (frees : after.frees = inode.frees)
    (moves : role = roles proc ∨ (roles proc = .decided ∧ role = .fails) ∨
      (roles proc = .fails ∧ role = .none)) :
    NodeOk procs linked after holders (Function.update roles proc role) := by
  have carries : (tally procs (Function.update roles proc role) fun role => role = .carries) =
      tally procs roles fun role => role = .carries := by
    rw [tally_update member]
    rcases moves with same | ⟨before, now⟩ | ⟨before, now⟩
    · rw [same]
      omega
    · rw [before, now]
      rfl
    · rw [before, now]
      rfl
  have pends : (tally procs (Function.update roles proc role) fun role => role = .pends) =
      tally procs roles fun role => role = .pends := by
    rw [tally_update member]
    rcases moves with same | ⟨before, now⟩ | ⟨before, now⟩
    · rw [same]
      omega
    · rw [before, now]
      rfl
    · rw [before, now]
      rfl
  have was : ∀ other, Function.update roles proc role other = roles other ∨
      Function.update roles proc role other = .fails ∨
        Function.update roles proc role other = .none := by
    intro other
    by_cases same : other = proc
    · subst same
      rw [Function.update_self]
      rcases moves with same | ⟨_, now⟩ | ⟨_, now⟩
      · exact Or.inl same
      · exact Or.inr (Or.inl now)
      · exact Or.inr (Or.inr now)
    · exact Or.inl (Function.update_of_ne same _ _)
  have before : ∀ other kind, kind ≠ .fails → kind ≠ .none →
      Function.update roles proc role other = kind → roles other = kind := by
    intro other kind notFails notNone here
    rcases was other with same | fails | none
    · exact same.symm.trans here
    · exact absurd (here.symm.trans fails) notFails
    · exact absurd (here.symm.trans none) notNone
  constructor
  · exact outside_update ok member
  · rw [refCount, carries]
    exact ok.counted
  · intro linked
    rw [reclaimCount, refCount, pends]
    exact ok.reclaims linked
  · intro gone
    obtain ⟨none, quiet⟩ := ok.unlinked gone
    refine ⟨refCount.trans none, ?_⟩
    intro other
    by_cases same : other = proc
    · subst same
      rw [Function.update_self]
      rcases moves with same | ⟨before, _⟩ | ⟨_, now⟩
      · rw [same]
        exact quiet other
      · rcases quiet other with none | dead
        · rw [none] at before
          cases before
        · rw [dead] at before
          cases before
      · exact Or.inl now
    · rw [Function.update_of_ne same]
      exact quiet other
  · intro other here
    rw [refCount, reclaimCount]
    exact ok.decided other (before other .decided nofun nofun here)
  · intro other here
    obtain ⟨gone, unfreed, only⟩ := ok.dead other (before other .dead nofun nofun here)
    refine ⟨gone, frees.trans unfreed, ?_⟩
    intro second there
    exact only second (before second .dead nofun nofun there)
  · rw [frees]
    exact ok.once
  · intro linked
    exact frees.trans (ok.alive linked)

theorem notDead (ok : NodeOk procs linked inode holders roles) (here : linked) :
    roles proc ≠ .dead :=
  fun dead => (ok.dead proc dead).1 here

/-- What one role adds to a count when it changes. -/
theorem tally_role (member : proc ∈ procs) (kind : Role) :
    (tally procs (Function.update roles proc role) fun role => role = kind) =
      (tally procs roles fun role => role = kind) - (if roles proc = kind then 1 else 0) +
        if role = kind then 1 else 0 := by
  rw [tally_update member]
  simp only [share, decide_eq_true_eq]

/-- `proc` takes a role in an inode that stays on its list. -/
theorem takes (ok : NodeOk procs linked inode holders roles) (member : proc ∈ procs)
    (here : linked) {held : Nat} (notDead : role ≠ .dead)
    (counted : (after.sin.refCount : Int) - inode.sin.refCount = held - holders -
      (if roles proc = .carries then 1 else 0) + if role = .carries then 1 else 0)
    (reclaims : (after.sin.reclaimCount : Int) - inode.sin.reclaimCount =
      (if 0 < after.sin.refCount then 1 else 0) - (if 0 < inode.sin.refCount then 1 else 0) -
        (if roles proc = .pends then 1 else 0) + if role = .pends then 1 else 0)
    (decided : ∀ other, Function.update roles proc role other = .decided →
      after.sin.refCount = 0 ∧ after.sin.reclaimCount = 0)
    (frees : after.frees = inode.frees) :
    NodeOk procs linked after held (Function.update roles proc role) where
  outside := outside_update ok member
  counted := by
    have before := ok.counted
    rw [tally_role member]
    omega
  reclaims := by
    intro _
    have before := ok.reclaims here
    rw [tally_role member]
    omega
  unlinked := fun gone => absurd here gone
  decided := decided
  dead := by
    intro other dead
    exact absurd (of_update dead notDead).2 (ok.notDead here)
  once := frees ▸ ok.once
  alive := fun _ => frees.trans (ok.alive here)

/-- With a reference nobody frees the inode. -/
theorem notDecided (ok : NodeOk procs linked inode holders roles)
    (referenced : 0 < inode.sin.refCount) : roles proc ≠ .decided := by
  intro decided
  rw [(ok.decided proc decided).1] at referenced
  omega

/-- `sfs_load_inode` finds the inode, when nobody else has the lock. -/
theorem lookup (ok : NodeOk procs linked inode holders roles) (member : proc ∈ procs)
    (here : linked) (idle : roles proc = .none)
    (alone : ∀ other, other ≠ proc → roles other ≠ .decided)
    (sin : after.sin = InodeCache.lookupRef inode.sin) (frees : after.frees = inode.frees) :
    NodeOk procs linked after holders (Function.update roles proc .carries) := by
  apply takes ok member here
  · exact nofun
  · rw [sin, idle]
    simp [InodeCache.lookupRef]
  · rw [sin, idle]
    simp only [InodeCache.lookupRef]
    split_ifs <;> omega
  · intro other decided
    obtain ⟨apart, was⟩ := of_update decided nofun
    exact absurd was (alone other apart)
  · exact frees

/-- `sfs_load_inode` returns the inode. -/
theorem handOut (ok : NodeOk procs linked inode holders roles) (member : proc ∈ procs)
    (carries : roles proc = .carries) :
    NodeOk procs linked inode (holders + 1) (Function.update roles proc .none) := by
  have here := ok.linked_of_refCount (ok.refCount_pos_of_carries carries)
  apply takes ok member here
  · exact nofun
  · rw [carries]
    simp
  · rw [carries]
    simp
  · intro other decided
    exact absurd (of_update decided nofun).2
      (ok.notDecided (ok.refCount_pos_of_carries carries))
  · rfl

/-- A holder makes another reference. -/
theorem refInc (ok : NodeOk procs linked inode holders roles) (member : proc ∈ procs)
    (held : 0 < holders) (refCount : after.sin.refCount = inode.sin.refCount + 1)
    (reclaimCount : after.sin.reclaimCount = inode.sin.reclaimCount)
    (frees : after.frees = inode.frees) :
    NodeOk procs linked after (holders + 1) (Function.update roles proc (roles proc)) := by
  have referenced := ok.refCount_pos_of_holders held
  have here := ok.linked_of_refCount referenced
  apply takes ok member here (ok.notDead here)
  · omega
  · rw [reclaimCount, if_pos referenced, if_pos (by omega)]
    omega
  · intro other decided
    rw [Function.update_eq_self] at decided
    exact absurd decided (ok.notDecided referenced)
  · exact frees

/-- A holder drops a reference; the last one is followed by a reclaim. -/
theorem refDec (ok : NodeOk procs linked inode holders roles) (member : proc ∈ procs)
    (held : 0 < holders) (idle : roles proc = .none)
    (refCount : after.sin.refCount = inode.sin.refCount - 1)
    (reclaimCount : after.sin.reclaimCount = inode.sin.reclaimCount)
    (frees : after.frees = inode.frees) :
    NodeOk procs linked after (holders - 1) (Function.update roles proc
      (if inode.sin.refCount - 1 = 0 then .pends else .none)) := by
  have referenced := ok.refCount_pos_of_holders held
  have here := ok.linked_of_refCount referenced
  by_cases last : inode.sin.refCount - 1 = 0
  · rw [if_pos last]
    apply takes ok member here
    · exact nofun
    · rw [idle]
      simp only [reduceCtorEq, if_false]
      omega
    · rw [reclaimCount, idle, if_pos referenced, if_neg (by omega)]
      simp
    · intro other decided
      exact absurd (of_update decided nofun).2 (ok.notDecided referenced)
    · exact frees
  · rw [if_neg last]
    apply takes ok member here
    · exact nofun
    · rw [idle]
      simp only [reduceCtorEq, if_false]
      omega
    · rw [reclaimCount, idle, if_pos referenced, if_pos (by omega)]
      simp
    · intro other decided
      exact absurd (of_update decided nofun).2 (ok.notDecided referenced)
    · exact frees

/-- The checks of `sfs_reclaim`, when nobody else has the lock. -/
theorem reclaim (ok : NodeOk procs linked inode holders roles) (member : proc ∈ procs)
    (pends : roles proc = .pends) (alone : ∀ other, other ≠ proc → roles other ≠ .decided)
    (refCount : after.sin.refCount = inode.sin.refCount)
    (reclaimCount : after.sin.reclaimCount = inode.sin.reclaimCount - 1)
    (frees : after.frees = inode.frees) :
    NodeOk procs linked after holders (Function.update roles proc
      (if inode.sin.reclaimCount - 1 ≠ 0 ∨ inode.sin.refCount ≠ 0 then .fails else .decided)) := by
  have here := ok.linked_of_role (by rw [pends]; exact nofun) (by rw [pends]; exact nofun)
  have positive := ok.reclaimCount_pos_of_pends pends
  by_cases busy : inode.sin.reclaimCount - 1 ≠ 0 ∨ inode.sin.refCount ≠ 0
  · rw [if_pos busy]
    apply takes ok member here
    · exact nofun
    · rw [refCount, pends]
      simp
    · rw [reclaimCount, refCount, pends]
      simp only [reduceCtorEq, if_true, if_false]
      omega
    · intro other decided
      obtain ⟨apart, was⟩ := of_update decided nofun
      exact absurd was (alone other apart)
    · exact frees
  · rw [if_neg busy]
    apply takes ok member here
    · exact nofun
    · rw [refCount, pends]
      simp
    · rw [reclaimCount, refCount, pends]
      simp only [reduceCtorEq, if_true, if_false]
      omega
    · intro other _
      omega
    · exact frees

/-- `sfs_remove_links`, when nobody else has the lock: nobody else is about to reclaim it. -/
theorem removeLinks (ok : NodeOk procs linked inode holders roles) (member : proc ∈ procs)
    (decided : roles proc = .decided)
    (alone : ∀ other, other ≠ proc → roles other ≠ .decided ∧ roles other ≠ .fails) :
    NodeOk procs False inode holders (Function.update roles proc .dead) := by
  have here := ok.linked_of_role (by rw [decided]; exact nofun) (by rw [decided]; exact nofun)
  obtain ⟨unreferenced, unclaimed⟩ := ok.decided proc decided
  have counted := ok.counted
  have reclaims := ok.reclaims here
  rw [unreferenced] at counted reclaims
  rw [unclaimed, if_neg (by omega)] at reclaims
  have carrying : 0 ≤ tally procs roles fun role => role = .carries := tally_nonneg
  have noPends : (tally procs roles fun role => role = .pends) = 0 := by omega
  have noCarries : (tally procs roles fun role => role = .carries) = 0 := by omega
  have quiet : ∀ other, other ≠ proc → roles other = .none := by
    intro other apart
    by_cases inside : other ∈ procs
    · have notCarries := tally_eq_zero noCarries inside
      have notPends := tally_eq_zero noPends inside
      obtain ⟨notDecided, notFails⟩ := alone other apart
      have notDead : roles other ≠ .dead := ok.notDead here
      cases kind : roles other with
      | none => rfl
      | carries => rw [kind] at notCarries; cases notCarries
      | pends => rw [kind] at notPends; cases notPends
      | decided => exact absurd kind notDecided
      | dead => exact absurd kind notDead
      | fails => exact absurd kind notFails
    · exact ok.outside other inside
  have onlyProc : ∀ other, Function.update roles proc .dead other = .dead → other = proc := by
    intro other dead
    by_contra apart
    rw [Function.update_of_ne apart, quiet other apart] at dead
    cases dead
  constructor
  · exact outside_update ok member
  · rw [tally_role member, decided, unreferenced]
    simp only [reduceCtorEq, if_false]
    omega
  · exact False.elim
  · refine fun _ => ⟨unreferenced, ?_⟩
    intro other
    by_cases same : other = proc
    · subst same
      exact Or.inr (Function.update_self _ _ _)
    · rw [Function.update_of_ne same]
      exact Or.inl (quiet other same)
  · intro other here
    have was := (of_update here nofun).2
    exact ok.decided other was
  · intro other dead
    refine ⟨id, ok.alive here, ?_⟩
    intro second there
    rw [onlyProc other dead]
    exact onlyProc second there
  · exact ok.once
  · exact False.elim

/-- `vop_kill` -/
theorem kill (ok : NodeOk procs linked inode holders roles) (member : proc ∈ procs)
    (dead : roles proc = .dead) (sin : after.sin = inode.sin)
    (frees : after.frees = inode.frees + 1) :
    NodeOk procs linked after holders (Function.update roles proc .none) := by
  obtain ⟨gone, unfreed, only⟩ := ok.dead proc dead
  have quiet : ∀ other, Function.update roles proc .none other = .none := by
    intro other
    by_cases same : other = proc
    · subst same
      exact Function.update_self _ _ _
    · rw [Function.update_of_ne same]
      rcases (ok.unlinked gone).2 other with none | second
      · exact none
      · exact absurd (only other second) same
  constructor
  · exact outside_update ok member
  · rw [tally_role member, dead, sin]
    have counted := ok.counted
    simp only [reduceCtorEq, if_false]
    omega
  · exact fun here => absurd here gone
  · refine fun _ => ⟨?_, fun other => Or.inl (quiet other)⟩
    rw [sin]
    exact (ok.unlinked gone).1
  · intro other decided
    rw [quiet other] at decided
    cases decided
  · intro other second
    rw [quiet other] at second
    cases second
  · omega
  · exact fun here => absurd here gone

/-- `sfs_create_inode` and `sfs_set_links` make an inode with one reference. -/
theorem create (ok : NodeOk procs linked inode holders roles) (member : proc ∈ procs)
    (gone : ¬ linked) (unused : ∀ other, roles other = .none)
    (refCount : after.sin.refCount = 1) (reclaimCount : after.sin.reclaimCount = 1)
    (frees : after.frees = 0) :
    NodeOk procs True after holders (Function.update roles proc .carries) := by
  have counted := ok.counted
  rw [(ok.unlinked gone).1] at counted
  have noPends : (tally procs roles fun role => role = .pends) = 0 :=
    tally_none fun other => by rw [unused other]; rfl
  have noCarries : (tally procs roles fun role => role = .carries) = 0 :=
    tally_none fun other => by rw [unused other]; rfl
  have none : ∀ other kind, kind ≠ .none → kind ≠ .carries →
      Function.update roles proc .carries other ≠ kind := by
    intro other kind notNone notCarries here
    have was := (of_update here notCarries.symm).2
    exact notNone (was.symm.trans (unused other))
  constructor
  · exact outside_update ok member
  · rw [tally_role member, unused proc, refCount]
    simp only [reduceCtorEq, if_false, if_true]
    omega
  · intro _
    rw [tally_role member, unused proc, refCount, reclaimCount, noPends]
    rfl
  · exact fun absent => absurd trivial absent
  · exact fun other here => absurd here (none other .decided nofun nofun)
  · exact fun other here => absurd here (none other .dead nofun nofun)
  · omega
  · exact fun _ => frees

end NodeOk

end UCore.Fs
