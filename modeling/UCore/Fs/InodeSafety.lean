import UCore.Fs.InodeLifetime

/-!
Contract: inodes in memory, in every interleaving.

Owns:
- the invariant of the lock, the hash lists and every inode;
- that it holds in every state that is reached from a fresh mount;
- that an inode is freed once, when nobody has it or is about to give it up.
-/

set_option autoImplicit false

namespace UCore.Fs

open UCore.Lib UCore.Sync

/-- What a process at `pc` is to `node`. -/
def InodePc.role (node : Nat) : InodePc → Role
  | loaded _ other | returning _ other => if other = node then .carries else .none
  | dropped other | reclaimDown other | reclaiming other =>
      if other = node then .pends else .none
  | truncating other | syncing other | unlinking other => if other = node then .decided else .none
  | unlinked other | freeing other => if other = node then .dead else .none
  | reclaimFailed other => if other = node then .fails else .none
  | idle | loadDown _ | loading _ | filling _ | loadFailed => .none

variable {procs : Finset Nat} {cache after : InodeCache} {proc node ino : Nat} {pc : InodePc}

namespace InodeCache

/-- The inode is on the hash list of its number. -/
def Linked (cache : InodeCache) (node : Nat) : Prop :=
  node ∈ cache.hashList (sinHashfn (cache.node node).ino)

/-- What every process is to `node`. -/
def roles (cache : InodeCache) (node : Nat) (proc : Nat) : Role := (cache.pc proc).role node

def phase (cache : InodeCache) (proc : Nat) : LockPhase := (cache.pc proc).lockPhase

end InodeCache

/-- What the program counters say about the inodes. -/
def Fits (cache : InodeCache) : InodePc → Prop
  | .loaded ino node | .returning ino node => (cache.node node).ino = ino
  | .filling ino => ∀ node, cache.Linked node → (cache.node node).ino ≠ ino
  | _ => True

structure InodeInvariant (procs : Finset Nat) (cache : InodeCache) : Prop where
  lock : MutexInvariant cache.fsSem cache.phase
  bucket : ∀ hash, ∀ node ∈ cache.hashList hash,
    node < cache.nextNode ∧ sinHashfn (cache.node node).ino = hash
  distinct : ∀ hash, (cache.hashList hash).Nodup
  single : ∀ node other, cache.Linked node → cache.Linked other →
    (cache.node node).ino = (cache.node other).ino → node = other
  existing : ∀ node proc, cache.roles node proc ≠ .none → node < cache.nextNode
  fits : ∀ proc, Fits cache (cache.pc proc)
  nodes : ∀ node, NodeOk procs (cache.Linked node) (cache.node node) (cache.holders node)
    (cache.roles node)

/-! ## Program counters -/

theorem roles_update (moved : after.pc = Function.update cache.pc proc pc) :
    after.roles node = Function.update (cache.roles node) proc (pc.role node) := by
  funext other
  unfold InodeCache.roles
  rw [moved]
  by_cases same : other = proc
  · subst same
    rw [Function.update_self, Function.update_self]
  · rw [Function.update_of_ne same, Function.update_of_ne same]

theorem phase_update (moved : after.pc = Function.update cache.pc proc pc) :
    after.phase = Function.update cache.phase proc pc.lockPhase := by
  funext other
  unfold InodeCache.phase
  rw [moved]
  by_cases same : other = proc
  · subst same
    rw [Function.update_self, Function.update_self]
  · rw [Function.update_of_ne same, Function.update_of_ne same]

/-- The role of a process that moves on as what it is to the inode. -/
theorem roles_self (moved : after.pc = Function.update cache.pc proc pc)
    (same : pc.role node = (cache.pc proc).role node) : after.roles node = cache.roles node := by
  rw [roles_update moved, same]
  exact Function.update_eq_self _ _

/-- Who decides about an inode has the lock. -/
theorem held_of_role (here : pc.role node = .decided ∨ pc.role node = .fails) :
    pc.lockPhase = .held := by
  cases pc <;> simp only [InodePc.role, reduceCtorEq, or_self] at here <;> first | rfl | skip
  all_goals
    split_ifs at here <;> simp at here

namespace InodeInvariant

/-- Processes that hold the lock at once are one process. -/
theorem alone (invariant : InodeInvariant procs cache) (held : cache.phase proc = .held) :
    ∀ node other, other ≠ proc → cache.roles node other ≠ .decided ∧
      cache.roles node other ≠ .fails := by
  have critical : ∀ node other, cache.roles node other = .decided ∨
      cache.roles node other = .fails → cache.phase other = .held :=
    fun _ _ here => held_of_role here
  intro node other apart
  constructor
  · intro decided
    exact apart (invariant.lock.held_unique (critical node other (Or.inl decided)) held)
  · intro fails
    exact apart (invariant.lock.held_unique (critical node other (Or.inr fails)) held)

/-- A step of `proc` that changes at most the inode `node`, and no hash list. -/
theorem touch (invariant : InodeInvariant procs cache) (node : Nat)
    (moved : after.pc = Function.update cache.pc proc pc)
    (lock : MutexInvariant after.fsSem (Function.update cache.phase proc pc.lockPhase))
    (lists : after.hashList = cache.hashList) (next : after.nextNode = cache.nextNode)
    (others : ∀ other, other ≠ node → after.node other = cache.node other ∧
      after.holders other = cache.holders other ∧ pc.role other = (cache.pc proc).role other)
    (ino : (after.node node).ino = (cache.node node).ino)
    (existing : pc.role node ≠ .none → node < cache.nextNode)
    (fits : Fits cache pc)
    (ok : NodeOk procs (cache.Linked node) (after.node node) (after.holders node)
      (Function.update (cache.roles node) proc (pc.role node))) :
    InodeInvariant procs after := by
  have sameIno : ∀ other, (after.node other).ino = (cache.node other).ino := by
    intro other
    by_cases same : other = node
    · rw [same, ino]
    · rw [(others other same).1]
  have sameLinked : ∀ other, after.Linked other ↔ cache.Linked other := by
    intro other
    unfold InodeCache.Linked
    rw [lists, sameIno other]
  have fitting : ∀ pc, Fits cache pc → Fits after pc := by
    intro pc fits
    cases pc <;> first | trivial | skip
    case filling number =>
        intro other linked
        rw [sameIno other]
        exact fits other ((sameLinked other).mp linked)
    case loaded number other => exact (sameIno other).trans fits
    case returning number other => exact (sameIno other).trans fits
  constructor
  · rw [phase_update moved]
    exact lock
  · intro hash other member
    rw [lists] at member
    rw [sameIno other, next]
    exact invariant.bucket hash other member
  · rw [lists]
    exact invariant.distinct
  · intro first second firstLinked secondLinked same
    rw [sameIno first, sameIno second] at same
    exact invariant.single first second ((sameLinked first).mp firstLinked)
      ((sameLinked second).mp secondLinked) same
  · intro other user role
    rw [roles_update moved] at role
    rw [next]
    by_cases same : user = proc
    · subst same
      rw [Function.update_self] at role
      by_cases here : other = node
      · subst here
        exact existing role
      · rw [(others other here).2.2] at role
        exact invariant.existing other user role
    · rw [Function.update_of_ne same] at role
      exact invariant.existing other user role
  · intro user
    by_cases same : user = proc
    · subst same
      rw [moved, Function.update_self]
      exact fitting pc fits
    · rw [moved, Function.update_of_ne same]
      exact fitting _ (invariant.fits user)
  · intro other
    by_cases here : other = node
    · subst here
      rw [roles_update moved]
      rw [show after.Linked other = cache.Linked other from propext (sameLinked other)]
      exact ok
    · obtain ⟨sameNode, sameHolders, sameRole⟩ := others other here
      rw [roles_self moved sameRole, sameNode, sameHolders,
        show after.Linked other = cache.Linked other from propext (sameLinked other)]
      exact invariant.nodes other

/-- A step of `proc` that changes no inode and no hash list. -/
theorem move (invariant : InodeInvariant procs cache)
    (moved : after.pc = Function.update cache.pc proc pc)
    (lock : MutexInvariant after.fsSem (Function.update cache.phase proc pc.lockPhase))
    (lists : after.hashList = cache.hashList) (next : after.nextNode = cache.nextNode)
    (nodes : after.node = cache.node) (holders : after.holders = cache.holders)
    (roles : ∀ node, pc.role node = (cache.pc proc).role node)
    (fits : Fits cache pc) : InodeInvariant procs after := by
  apply touch invariant 0 moved lock lists next
  · intro other _
    rw [nodes, holders]
    exact ⟨rfl, rfl, roles other⟩
  · rw [nodes]
  · intro role
    rw [roles 0] at role
    exact invariant.existing 0 proc role
  · exact fits
  · rw [nodes, holders, roles 0]
    have same : Function.update (cache.roles 0) proc ((cache.pc proc).role 0) = cache.roles 0 :=
      Function.update_eq_self _ _
    rw [same]
    exact invariant.nodes 0

/-! ## The lock -/

/-- The lock when a process moves on without it. -/
theorem lock_keep (invariant : InodeInvariant procs cache)
    (same : pc.lockPhase = (cache.pc proc).lockPhase) :
    MutexInvariant cache.fsSem (Function.update cache.phase proc pc.lockPhase) := by
  have unchanged : Function.update cache.phase proc pc.lockPhase = cache.phase := by
    rw [same]
    exact Function.update_eq_self _ _
  rw [unchanged]
  exact invariant.lock

/-- `lock_sfs_fs` -/
theorem lockSfsFs (invariant : InodeInvariant procs cache) {held queued : InodePc}
    (out : (cache.pc proc).lockPhase = .out) (isHeld : held.lockPhase = .held)
    (isQueued : queued.lockPhase = .queued)
    (heldRole : ∀ node, held.role node = (cache.pc proc).role node)
    (queuedRole : ∀ node, queued.role node = (cache.pc proc).role node)
    (heldFits : Fits cache held) (queuedFits : Fits cache queued) :
    InodeInvariant procs (cache.lockSfsFs proc held queued) := by
  have downed := invariant.lock.down out
  unfold InodeCache.lockSfsFs
  cases taken : cache.fsSem.down proc with
  | mk returns sem =>
      rw [taken] at downed
      cases returns with
      | true =>
          refine move invariant rfl ?_ rfl rfl rfl rfl heldRole heldFits
          rw [isHeld]
          exact downed
      | false =>
          refine move invariant rfl ?_ rfl rfl rfl rfl queuedRole queuedFits
          rw [isQueued]
          exact downed

/-- `unlock_sfs_fs` by a process that stays what it is to every inode. -/
theorem unlockSfsFs (invariant : InodeInvariant procs cache)
    (held : (cache.pc proc).lockPhase = .held) (out : pc.lockPhase = .out)
    (roles : ∀ node, pc.role node = (cache.pc proc).role node) (fits : Fits cache pc) :
    InodeInvariant procs (cache.unlockSfsFs proc pc) := by
  refine move invariant rfl ?_ rfl rfl rfl rfl roles fits
  rw [out]
  exact invariant.lock.up held

/-- A process that is off the queue of the lock goes on. -/
theorem unqueued (invariant : InodeInvariant procs cache)
    (queued : (cache.pc proc).lockPhase = .queued) (released : proc ∉ cache.fsSem.waitQueue)
    (held : pc.lockPhase = .held) (roles : ∀ node, pc.role node = (cache.pc proc).role node)
    (fits : Fits cache pc) : InodeInvariant procs (cache.setPc proc pc) := by
  refine move invariant rfl ?_ rfl rfl rfl rfl roles fits
  rw [held]
  exact invariant.lock.resume queued released

/-! ## Loading -/

/-- `lookup_sfs_nolock` finds every inode that is on its list. -/
theorem lookup_some (found : cache.lookupSfsNolock ino = some node) :
    (cache.node node).ino = ino ∧ cache.Linked node := by
  unfold InodeCache.lookupSfsNolock at found
  have matched := List.find?_some found
  have number : (cache.node node).ino = ino := of_decide_eq_true matched
  refine ⟨number, ?_⟩
  unfold InodeCache.Linked
  rw [number]
  exact List.mem_of_find?_eq_some found

theorem lookup_none (absent : cache.lookupSfsNolock ino = none) :
    ∀ node, cache.Linked node → (cache.node node).ino ≠ ino := by
  intro node linked same
  unfold InodeCache.Linked at linked
  rw [same] at linked
  have differs := List.find?_eq_none.mp absent node linked
  exact differs (decide_eq_true same)

theorem role_loading {first second : Nat} (apart : first ≠ second) :
    (InodePc.loaded ino second).role first = .none :=
  if_neg (Ne.symm apart)

/-- `sfs_load_inode` finds the inode in memory. -/
theorem found (invariant : InodeInvariant procs cache) (member : proc ∈ procs)
    (here : cache.pc proc = .loading ino) (lookup : cache.lookupSfsNolock ino = some node) :
    InodeInvariant procs ((cache.setSin node
      (InodeCache.lookupRef (cache.node node).sin)).setPc proc (.loaded ino node)) := by
  obtain ⟨number, linked⟩ := lookup_some lookup
  have held : cache.phase proc = .held := by
    unfold InodeCache.phase
    rw [here]
    rfl
  have role : ∀ other, cache.roles other proc = .none := by
    intro other
    unfold InodeCache.roles
    rw [here]
    rfl
  have after : ((cache.setSin node (InodeCache.lookupRef (cache.node node).sin)).setPc proc
      (.loaded ino node)).node node =
        { cache.node node with sin := InodeCache.lookupRef (cache.node node).sin } :=
    Function.update_self _ _ _
  refine touch invariant node rfl ?_ rfl rfl ?_ ?_ ?_ ?_ ?_
  · apply lock_keep invariant
    rw [here]
    rfl
  · intro other apart
    refine ⟨Function.update_of_ne apart _ _, rfl, ?_⟩
    rw [role_loading apart]
    exact (role other).symm
  · rw [after]
  · intro _
    exact (invariant.bucket _ node linked).1
  · exact number
  · rw [after]
    have carries : (InodePc.loaded ino node).role node = .carries := if_pos rfl
    rw [carries]
    exact NodeOk.lookup (invariant.nodes node) member linked (role node)
      (fun other apart => (invariant.alone held node other apart).1) rfl rfl

/-- What the part of `sfs_load_inode` that reads the inode can do. -/
theorem fill_cases {answers : Answers} (done : cache.fill proc ino answers = .ok after) :
    after = cache.setPc proc .loadFailed ∨ ∃ din, after = cache.createInode proc ino din := by
  unfold InodeCache.fill at done
  cases rbuf : answers.rbuf with
  | none =>
      simp only [rbuf] at done
      split_ifs at done
      · exact Or.inl (Except.ok.inj done).symm
      · exact Or.inl (Except.ok.inj done).symm
  | some din =>
      simp only [rbuf] at done
      split_ifs at done
      · exact Or.inl (Except.ok.inj done).symm
      · exact Or.inl (Except.ok.inj done).symm
      · exact Or.inr ⟨din, (Except.ok.inj done).symm⟩

/-- `sfs_create_inode` -/
theorem createInode (invariant : InodeInvariant procs cache) (member : proc ∈ procs)
    (here : cache.pc proc = .filling ino) {din : DiskInode} :
    InodeInvariant procs (cache.createInode proc ino din) := by
  -- the new inode was on no list and nobody knew it
  have fresh : ∀ hash, cache.nextNode ∉ cache.hashList hash := by
    intro hash inside
    have below := (invariant.bucket hash _ inside).1
    omega
  have unused : ∀ user, cache.roles cache.nextNode user = .none := by
    intro user
    by_contra used
    have below := invariant.existing _ user used
    omega
  have absent := invariant.fits proc
  rw [here] at absent
  have moved : (cache.createInode proc ino din).pc =
      Function.update cache.pc proc (.loaded ino cache.nextNode) := rfl
  have created : (cache.createInode proc ino din).node cache.nextNode =
      ⟨ino, ⟨din, false, 1, 1⟩, 0⟩ := Function.update_self _ _ _
  have others : ∀ other, other ≠ cache.nextNode →
      (cache.createInode proc ino din).node other = cache.node other :=
    fun other apart => Function.update_of_ne apart _ _
  have members : ∀ hash other, other ∈ (cache.createInode proc ino din).hashList hash ↔
      (hash = sinHashfn ino ∧ other = cache.nextNode) ∨ other ∈ cache.hashList hash := by
    intro hash other
    show other ∈ Function.update cache.hashList (sinHashfn ino) _ hash ↔ _
    by_cases same : hash = sinHashfn ino
    · subst same
      rw [Function.update_self]
      simp
    · rw [Function.update_of_ne same]
      simp [same]
  have linkedOther : ∀ other, other ≠ cache.nextNode →
      ((cache.createInode proc ino din).Linked other ↔ cache.Linked other) := by
    intro other apart
    unfold InodeCache.Linked
    rw [others other apart, members]
    exact or_iff_right fun both => apart both.2
  have linkedNew : (cache.createInode proc ino din).Linked cache.nextNode := by
    unfold InodeCache.Linked
    rw [created, members]
    exact Or.inl ⟨rfl, rfl⟩
  have known : ∀ other, cache.Linked other → other ≠ cache.nextNode := by
    rintro other linked rfl
    exact fresh _ linked
  have role : ∀ other, cache.roles other proc = .none := by
    intro other
    unfold InodeCache.roles
    rw [here]
    rfl
  constructor
  · rw [phase_update moved]
    apply lock_keep invariant
    rw [here]
    rfl
  · intro hash other inside
    show _ < cache.nextNode + 1 ∧ _
    rcases (members hash other).mp inside with ⟨same, new⟩ | old
    · rw [new, created, same]
      exact ⟨by omega, rfl⟩
    · obtain ⟨below, number⟩ := invariant.bucket hash other old
      rw [others other (by omega)]
      exact ⟨by omega, number⟩
  · intro hash
    show (Function.update cache.hashList (sinHashfn ino) _ hash).Nodup
    by_cases same : hash = sinHashfn ino
    · rw [same, Function.update_self]
      exact List.nodup_cons.mpr ⟨fresh _, invariant.distinct _⟩
    · rw [Function.update_of_ne same]
      exact invariant.distinct hash
  · intro first second firstLinked secondLinked same
    by_cases firstNew : first = cache.nextNode
    · by_cases secondNew : second = cache.nextNode
      · rw [firstNew, secondNew]
      · rw [firstNew, created, others second secondNew] at same
        exact absurd same.symm (absent second ((linkedOther second secondNew).mp secondLinked))
    · by_cases secondNew : second = cache.nextNode
      · rw [secondNew, created, others first firstNew] at same
        exact absurd same (absent first ((linkedOther first firstNew).mp firstLinked))
      · rw [others first firstNew, others second secondNew] at same
        exact invariant.single first second ((linkedOther first firstNew).mp firstLinked)
          ((linkedOther second secondNew).mp secondLinked) same
  · intro other user used
    show other < cache.nextNode + 1
    rw [roles_update moved] at used
    by_cases new : other = cache.nextNode
    · omega
    · by_cases same : user = proc
      · subst same
        rw [Function.update_self, role_loading new] at used
        exact absurd rfl used
      · rw [Function.update_of_ne same] at used
        have below := invariant.existing other user used
        omega
  · intro user
    by_cases same : user = proc
    · rw [moved, same, Function.update_self]
      exact congrArg MemInode.ino created
    · rw [moved, Function.update_of_ne same]
      have before := invariant.fits user
      have used : ∀ other, (cache.pc user).role other ≠ .none → other ≠ cache.nextNode := by
        intro other used new
        have below := invariant.existing other user used
        omega
      cases phase : cache.pc user <;> rw [phase] at before used <;> first | trivial | skip
      case filling number =>
        -- two processes cannot both hold the lock
        have first : cache.phase user = .held := congrArg InodePc.lockPhase phase
        have second : cache.phase proc = .held := congrArg InodePc.lockPhase here
        exact absurd (invariant.lock.held_unique first second) same
      case loaded number other =>
        have apart := used other (by simp [InodePc.role])
        exact (congrArg MemInode.ino (others other apart)).trans before
      case returning number other =>
        have apart := used other (by simp [InodePc.role])
        exact (congrArg MemInode.ino (others other apart)).trans before
  · intro other
    rw [roles_update moved]
    by_cases new : other = cache.nextNode
    · subst new
      rw [created, show (cache.createInode proc ino din).Linked cache.nextNode = True from
        eq_true linkedNew]
      have carries : (InodePc.loaded ino cache.nextNode).role cache.nextNode = .carries :=
        if_pos rfl
      rw [carries]
      exact NodeOk.create (invariant.nodes cache.nextNode) member (fresh _) unused rfl rfl rfl
    · rw [role_loading new, others other new,
        show (cache.createInode proc ino din).Linked other = cache.Linked other from
          propext (linkedOther other new)]
      have same : Function.update (cache.roles other) proc .none = cache.roles other := by
        rw [← role other]
        exact Function.update_eq_self _ _
      rw [same]
      exact invariant.nodes other

/-! ## Using and reclaiming -/

theorem roles_of (here : cache.pc proc = pc) : cache.roles node proc = pc.role node := by
  unfold InodeCache.roles
  rw [here]

/-- A step of a process on one inode it knows, that leaves the lock as it is. -/
theorem onNode (invariant : InodeInvariant procs cache) (here : cache.pc proc = pc)
    {next : InodePc} {inode : MemInode} {holders : Nat}
    (moved : after.pc = Function.update cache.pc proc next)
    (lock : after.fsSem = cache.fsSem) (samePhase : next.lockPhase = pc.lockPhase)
    (lists : after.hashList = cache.hashList) (same : after.nextNode = cache.nextNode)
    (node' : after.node = Function.update cache.node node inode)
    (holders' : after.holders = Function.update cache.holders node holders)
    (roles : ∀ other, other ≠ node → next.role other = pc.role other)
    (ino : inode.ino = (cache.node node).ino)
    (known : next.role node ≠ .none → cache.Linked node ∨ pc.role node ≠ .none)
    (fits : Fits cache next)
    (ok : NodeOk procs (cache.Linked node) inode holders
      (Function.update (cache.roles node) proc (next.role node))) :
    InodeInvariant procs after := by
  refine touch invariant node moved ?_ lists same ?_ ?_ ?_ fits ?_
  · rw [lock]
    apply lock_keep invariant
    rw [here]
    exact samePhase
  · intro other apart
    rw [node', holders', here]
    exact ⟨Function.update_of_ne apart _ _, Function.update_of_ne apart _ _, roles other apart⟩
  · rw [node', Function.update_self]
    exact ino
  · intro used
    rcases known used with linked | role
    · exact (invariant.bucket _ node linked).1
    · apply invariant.existing node proc
      rw [roles_of here]
      exact role
  · rw [node', holders', Function.update_self, Function.update_self]
    exact ok

theorem update_pc (here : cache.pc proc = pc) : cache.pc = Function.update cache.pc proc pc := by
  rw [← here]
  exact (Function.update_eq_self _ _).symm

theorem update_holders : cache.holders = Function.update cache.holders node (cache.holders node) :=
  (Function.update_eq_self _ _).symm

theorem update_node : cache.node = Function.update cache.node node (cache.node node) :=
  (Function.update_eq_self _ _).symm

/-- `inode_ref_inc` -/
theorem refInc (invariant : InodeInvariant procs cache) (member : proc ∈ procs)
    (here : cache.pc proc = .idle) (held : 0 < cache.holders node) :
    InodeInvariant procs ((cache.setSin node { (cache.node node).sin with
      refCount := (cache.node node).sin.refCount + 1 }).setHolders node
        (cache.holders node + 1)) := by
  refine onNode invariant here (update_pc here) rfl rfl rfl rfl rfl rfl (fun _ _ => rfl) rfl nofun
    trivial ?_
  have role : InodePc.role node .idle = cache.roles node proc := (roles_of here).symm
  rw [role]
  exact (invariant.nodes node).refInc member held rfl rfl rfl

/-- A holder changes the inode. -/
theorem change (invariant : InodeInvariant procs cache) (member : proc ∈ procs)
    (here : cache.pc proc = .idle) {din : DiskInode} {dirty : Bool} :
    InodeInvariant procs (cache.setSin node { (cache.node node).sin with
      din := din, dirty := dirty }) := by
  refine onNode invariant here (update_pc here) rfl rfl rfl rfl rfl update_holders
    (fun _ _ => rfl) rfl nofun trivial ?_
  exact (invariant.nodes node).goesOn member rfl rfl rfl (Or.inl (roles_of here).symm)

/-- `inode_ref_dec` -/
theorem refDec (invariant : InodeInvariant procs cache) (member : proc ∈ procs)
    (here : cache.pc proc = .idle) (held : 0 < cache.holders node)
    (done : cache.refDec proc node = .ok after) : InodeInvariant procs after := by
  have dropped : NodeOk procs (cache.Linked node) { cache.node node with sin :=
      { (cache.node node).sin with refCount := (cache.node node).sin.refCount - 1 } }
      (cache.holders node - 1) (Function.update (cache.roles node) proc
        (if (cache.node node).sin.refCount - 1 = 0 then .pends else .none)) :=
    (invariant.nodes node).refDec member held (roles_of here) rfl rfl rfl
  have linked : cache.Linked node :=
    (invariant.nodes node).linked_of_refCount ((invariant.nodes node).refCount_pos_of_holders held)
  unfold InodeCache.refDec at done
  simp only [] at done
  split_ifs at done with none last
  · cases done
    rw [if_pos last] at dropped
    have role : InodePc.role node (.dropped node) = .pends := if_pos rfl
    refine onNode invariant here rfl rfl rfl rfl rfl rfl rfl ?_ rfl (fun _ => Or.inl linked)
      trivial ?_
    · intro other apart
      exact if_neg (Ne.symm apart)
    · rw [role]
      exact dropped
  · cases done
    rw [if_neg last] at dropped
    exact onNode invariant here (update_pc here) rfl rfl rfl rfl rfl rfl (fun _ _ => rfl) rfl nofun
      trivial dropped

/-- `sfs_load_inode` returns. -/
theorem returns (invariant : InodeInvariant procs cache) (member : proc ∈ procs)
    (here : cache.pc proc = .returning ino node) :
    InodeInvariant procs
      ((cache.setHolders node (cache.holders node + 1)).setPc proc .idle) := by
  refine onNode invariant here rfl rfl rfl rfl rfl update_node rfl ?_ rfl nofun trivial ?_
  · intro other apart
    exact (if_neg (Ne.symm apart)).symm
  · exact (invariant.nodes node).handOut member ((roles_of here).trans (if_pos rfl))

/-- The checks of `sfs_reclaim`. -/
theorem reclaim (invariant : InodeInvariant procs cache) (member : proc ∈ procs)
    (here : cache.pc proc = .reclaiming node) (done : cache.reclaim proc node = .ok after) :
    InodeInvariant procs after := by
  have pends : cache.roles node proc = .pends := (roles_of here).trans (if_pos rfl)
  have held : cache.phase proc = .held := congrArg InodePc.lockPhase here
  have checked : NodeOk procs (cache.Linked node) { cache.node node with sin :=
      { (cache.node node).sin with reclaimCount := (cache.node node).sin.reclaimCount - 1 } }
      (cache.holders node) (Function.update (cache.roles node) proc
        (if (cache.node node).sin.reclaimCount - 1 ≠ 0 ∨ (cache.node node).sin.refCount ≠ 0 then
          .fails else .decided)) :=
    (invariant.nodes node).reclaim member pends
      (fun other apart => (invariant.alone held node other apart).1) rfl rfl rfl
  have others : ∀ other, other ≠ node → InodePc.role other (.reclaiming node) = .none :=
    fun other apart => if_neg (Ne.symm apart)
  have known : InodePc.role node (.reclaiming node) ≠ .none := by
    rw [show InodePc.role node (.reclaiming node) = .pends from if_pos rfl]
    exact nofun
  unfold InodeCache.reclaim at done
  simp only [] at done
  split_ifs at done with none busy
  · cases done
    rw [if_pos busy] at checked
    refine onNode invariant here rfl rfl rfl rfl rfl rfl update_holders ?_ rfl
      (fun _ => Or.inr known) trivial ?_
    · intro other apart
      rw [others other apart]
      exact if_neg (Ne.symm apart)
    · rw [show InodePc.role node (.reclaimFailed node) = .fails from if_pos rfl]
      exact checked
  · cases done
    rw [if_neg busy] at checked
    refine onNode invariant here rfl rfl rfl rfl rfl rfl update_holders ?_ rfl
      (fun _ => Or.inr known) trivial ?_
    · intro other apart
      rw [others other apart]
      exact if_neg (Ne.symm apart)
    · rw [show InodePc.role node (.truncating node) = .decided from if_pos rfl]
      exact checked

/-- `sfs_reclaim` goes on with an inode that it has decided to free, or gives up. -/
theorem decidedStep (invariant : InodeInvariant procs cache) (member : proc ∈ procs)
    (here : cache.pc proc = pc) {next : InodePc} {sin : SfsInode}
    (held : next.lockPhase = pc.lockPhase)
    (decided : ∀ other, pc.role other = if node = other then .decided else .none)
    (role : next = .reclaimFailed node ∨ ∀ other, next.role other = pc.role other)
    (fits : Fits cache next) (refCount : sin.refCount = (cache.node node).sin.refCount)
    (reclaimCount : sin.reclaimCount = (cache.node node).sin.reclaimCount) :
    InodeInvariant procs ((cache.setSin node sin).setPc proc next) := by
  refine onNode invariant here rfl rfl held rfl rfl rfl update_holders ?_ rfl ?_ fits ?_
  · intro other apart
    rcases role with failed | same
    · rw [failed, decided other, if_neg (Ne.symm apart)]
      exact if_neg (Ne.symm apart)
    · exact same other
  · intro _
    right
    rw [decided node, if_pos rfl]
    exact nofun
  · refine (invariant.nodes node).goesOn member refCount reclaimCount rfl ?_
    rcases role with failed | same
    · refine Or.inr (Or.inl ⟨?_, ?_⟩)
      · rw [roles_of here, decided node, if_pos rfl]
      · rw [failed]
        exact if_pos rfl
    · left
      rw [roles_of here]
      exact same node

/-- The same, where it changes no field of the inode. -/
theorem decidedStays (invariant : InodeInvariant procs cache) (member : proc ∈ procs)
    (here : cache.pc proc = pc) {next : InodePc} (held : next.lockPhase = pc.lockPhase)
    (decided : ∀ other, pc.role other = if node = other then .decided else .none)
    (role : next = .reclaimFailed node ∨ ∀ other, next.role other = pc.role other)
    (fits : Fits cache next) : InodeInvariant procs (cache.setPc proc next) := by
  have unchanged : cache.setSin node (cache.node node).sin = cache := by
    unfold InodeCache.setSin InodeCache.setNode
    rw [Function.update_eq_self]
  have step := decidedStep invariant member here held decided role fits
    (rfl : (cache.node node).sin.refCount = _) rfl
  rwa [unchanged] at step

/-- `sfs_remove_links` -/
theorem removeLinks (invariant : InodeInvariant procs cache) (member : proc ∈ procs)
    (here : cache.pc proc = .unlinking node) :
    InodeInvariant procs ((cache.removeLinks node).setPc proc (.unlinked node)) := by
  have decided : cache.roles node proc = .decided := (roles_of here).trans (if_pos rfl)
  have held : cache.phase proc = .held := congrArg InodePc.lockPhase here
  have linked : cache.Linked node := (invariant.nodes node).linked_of_role
    (by rw [decided]; exact nofun) (by rw [decided]; exact nofun)
  have moved : ((cache.removeLinks node).setPc proc (.unlinked node)).pc =
      Function.update cache.pc proc (.unlinked node) := rfl
  have members : ∀ hash other,
      other ∈ ((cache.removeLinks node).setPc proc (.unlinked node)).hashList hash ↔
        other ≠ node ∧ other ∈ cache.hashList hash := by
    intro hash other
    show other ∈ Function.update cache.hashList _ _ hash ↔ _
    by_cases same : hash = sinHashfn (cache.node node).ino
    · rw [same, Function.update_self]
      exact (invariant.distinct _).mem_erase_iff
    · rw [Function.update_of_ne same]
      refine (and_iff_right_of_imp ?_).symm
      rintro inside rfl
      exact same (invariant.bucket hash other inside).2.symm
  have linkedOther : ∀ other,
      ((cache.removeLinks node).setPc proc (.unlinked node)).Linked other ↔
        other ≠ node ∧ cache.Linked other := fun other => members _ other
  constructor
  · rw [phase_update moved]
    apply lock_keep invariant
    rw [here]
    rfl
  · intro hash other inside
    exact invariant.bucket hash other ((members hash other).mp inside).2
  · intro hash
    show (Function.update cache.hashList _ _ hash).Nodup
    by_cases same : hash = sinHashfn (cache.node node).ino
    · rw [same, Function.update_self]
      exact (invariant.distinct _).erase node
    · rw [Function.update_of_ne same]
      exact invariant.distinct hash
  · intro first second firstLinked secondLinked
    exact invariant.single first second ((linkedOther first).mp firstLinked).2
      ((linkedOther second).mp secondLinked).2
  · intro other user used
    rw [roles_update moved] at used
    by_cases same : user = proc
    · subst same
      rw [Function.update_self] at used
      by_cases this : other = node
      · rw [this]
        exact (invariant.bucket _ node linked).1
      · rw [show InodePc.role other (.unlinked node) = .none from if_neg (Ne.symm this)] at used
        exact absurd rfl used
    · rw [Function.update_of_ne same] at used
      exact invariant.existing other user used
  · intro user
    by_cases same : user = proc
    · rw [moved, same, Function.update_self]
      trivial
    · rw [moved, Function.update_of_ne same]
      have before := invariant.fits user
      cases phase : cache.pc user <;> rw [phase] at before <;> first | trivial | skip
      case filling number =>
        exact fun other there => before other ((linkedOther other).mp there).2
  · intro other
    rw [roles_update moved]
    by_cases this : other = node
    · subst this
      rw [show ((cache.removeLinks other).setPc proc (.unlinked other)).Linked other = False from
        eq_false fun there => ((linkedOther other).mp there).1 rfl,
        show InodePc.role other (.unlinked other) = .dead from if_pos rfl]
      exact (invariant.nodes other).removeLinks member decided (invariant.alone held other)
    · have role : InodePc.role other (.unlinked node) = cache.roles other proc := by
        rw [roles_of here]
        exact (if_neg (Ne.symm this)).trans (if_neg (Ne.symm this)).symm
      rw [role, Function.update_eq_self,
        show ((cache.removeLinks node).setPc proc (.unlinked node)).Linked other =
          cache.Linked other from propext ((linkedOther other).trans (and_iff_right this))]
      exact invariant.nodes other

/-- `vop_kill` -/
theorem kill (invariant : InodeInvariant procs cache) (member : proc ∈ procs)
    (here : cache.pc proc = .freeing node) (done : cache.kill proc node = .ok after) :
    InodeInvariant procs after := by
  have dead : cache.roles node proc = .dead := (roles_of here).trans (if_pos rfl)
  unfold InodeCache.kill at done
  split_ifs at done with referenced
  cases done
  refine onNode invariant here rfl rfl rfl rfl rfl rfl update_holders ?_ rfl nofun trivial ?_
  · intro other apart
    exact (if_neg (Ne.symm apart)).symm
  · exact (invariant.nodes node).kill member dead rfl rfl

/-- `sfs_reclaim` gives up. -/
theorem givesUp (invariant : InodeInvariant procs cache) (member : proc ∈ procs)
    (here : cache.pc proc = .reclaimFailed node) :
    InodeInvariant procs (cache.unlockSfsFs proc .idle) := by
  have fails : cache.roles node proc = .fails := (roles_of here).trans (if_pos rfl)
  have held : cache.phase proc = .held := congrArg InodePc.lockPhase here
  refine touch invariant node rfl ?_ rfl rfl ?_ rfl nofun trivial ?_
  · exact invariant.lock.up held
  · intro other apart
    refine ⟨rfl, rfl, ?_⟩
    rw [here]
    exact (if_neg (Ne.symm apart)).symm
  · exact (invariant.nodes node).goesOn member rfl rfl rfl (Or.inr (Or.inr ⟨fails, rfl⟩))

/-- The next statements of a process. -/
theorem resume (invariant : InodeInvariant procs cache) (member : proc ∈ procs)
    {answers : Answers} (released : (cache.pc proc).lockPhase = .queued →
      proc ∉ cache.fsSem.waitQueue)
    (done : cache.resume proc answers = .ok after) : InodeInvariant procs after := by
  unfold InodeCache.resume at done
  cases here : cache.pc proc with
  | idle =>
      rw [here] at done
      cases done
      exact invariant
  | loadDown ino =>
      rw [here] at done released
      cases done
      refine unqueued invariant ?_ (released rfl) rfl ?_ trivial
      · rw [here]
        rfl
      · rw [here]
        exact fun _ => rfl
  | loading ino =>
      rw [here] at done
      cases lookup : cache.lookupSfsNolock ino with
      | some node =>
          simp only [lookup] at done
          cases done
          exact found invariant member here lookup
      | none =>
          simp only [lookup] at done
          cases done
          refine move invariant rfl ?_ rfl rfl rfl rfl ?_ (lookup_none lookup)
          · apply lock_keep invariant
            rw [here]
            rfl
          · rw [here]
            exact fun _ => rfl
  | filling ino =>
      rw [here] at done
      have failed : InodeInvariant procs (cache.setPc proc .loadFailed) := by
        refine move invariant rfl ?_ rfl rfl rfl rfl ?_ trivial
        · apply lock_keep invariant
          rw [here]
          rfl
        · rw [here]
          exact fun _ => rfl
      rcases fill_cases done with rfl | ⟨din, rfl⟩
      · exact failed
      · exact createInode invariant member here
  | loadFailed =>
      rw [here] at done
      cases done
      refine unlockSfsFs invariant ?_ rfl ?_ trivial
      · rw [here]
        rfl
      · rw [here]
        exact fun _ => rfl
  | loaded ino node =>
      rw [here] at done
      cases done
      have fits := invariant.fits proc
      rw [here] at fits
      refine unlockSfsFs invariant ?_ rfl ?_ fits
      · rw [here]
        rfl
      · rw [here]
        exact fun _ => rfl
  | returning ino node =>
      rw [here] at done
      cases done
      exact returns invariant member here
  | dropped node =>
      rw [here] at done
      cases done
      refine lockSfsFs invariant ?_ rfl rfl ?_ ?_ trivial trivial
      · rw [here]
        rfl
      · rw [here]
        exact fun _ => rfl
      · rw [here]
        exact fun _ => rfl
  | reclaimDown node =>
      rw [here] at done released
      cases done
      refine unqueued invariant ?_ (released rfl) rfl ?_ trivial
      · rw [here]
        rfl
      · rw [here]
        exact fun _ => rfl
  | reclaiming node =>
      rw [here] at done
      exact reclaim invariant member here done
  | truncating node =>
      rw [here] at done
      cases done
      unfold InodeCache.truncate
      simp only []
      split_ifs
      · cases answers.truncated with
        | none =>
            exact decidedStays invariant member here rfl (fun _ => rfl) (Or.inl rfl) trivial
        | some pair =>
            exact decidedStep invariant member here rfl (fun _ => rfl) (Or.inr fun _ => rfl) trivial
              rfl rfl
      · exact decidedStays invariant member here rfl (fun _ => rfl) (Or.inr fun _ => rfl) trivial
  | syncing node =>
      rw [here] at done
      cases done
      unfold InodeCache.fsync
      simp only []
      split_ifs
      · exact decidedStep invariant member here rfl (fun _ => rfl) (Or.inr fun _ => rfl) trivial
          rfl rfl
      · exact decidedStays invariant member here rfl (fun _ => rfl) (Or.inl rfl) trivial
      · exact decidedStays invariant member here rfl (fun _ => rfl) (Or.inr fun _ => rfl) trivial
  | unlinking node =>
      rw [here] at done
      cases done
      exact removeLinks invariant member here
  | unlinked node =>
      rw [here] at done
      cases done
      refine unlockSfsFs invariant ?_ rfl ?_ trivial
      · rw [here]
        rfl
      · rw [here]
        exact fun _ => rfl
  | freeing node =>
      rw [here] at done
      exact kill invariant member here done
  | reclaimFailed node =>
      rw [here] at done
      cases done
      exact givesUp invariant member here

/-- Every step keeps the invariant. -/
theorem step {event : Nat × InodeAction} (invariant : InodeInvariant procs cache)
    (step : (inodeMachine procs).Step cache event after) : InodeInvariant procs after := by
  obtain ⟨⟨member, admitted⟩, answered⟩ := step
  obtain ⟨proc, action⟩ := event
  cases action with
  | load ino =>
      cases answered
      have here : cache.pc proc = .idle := admitted
      refine lockSfsFs invariant ?_ rfl rfl ?_ ?_ trivial trivial
      · rw [here]
        rfl
      · rw [here]
        exact fun _ => rfl
      · rw [here]
        exact fun _ => rfl
  | refInc node =>
      cases answered
      exact refInc invariant member admitted.1 admitted.2
  | refDec node => exact refDec invariant member admitted.1 admitted.2 answered
  | change node din dirty =>
      cases answered
      exact change invariant member admitted.1
  | resume answers => exact resume invariant member admitted.2 answered

end InodeInvariant

/-! ## Every run -/

/-- A file system that is mounted. -/
theorem inodeInvariant_mount : InodeInvariant procs mountInodes where
  lock := MutexInvariant.init
  bucket := nofun
  distinct := fun _ => List.nodup_nil
  single := nofun
  existing := fun _ _ used => absurd rfl used
  fits := fun _ => trivial
  nodes := fun _ =>
    { outside := fun _ _ => rfl
      counted := by
        rw [tally_none]
        · rfl
        · exact fun _ => rfl
      reclaims := nofun
      unlinked := fun _ => ⟨rfl, fun _ => Or.inl rfl⟩
      decided := nofun
      dead := nofun
      once := Nat.zero_le 1
      alive := nofun }

theorem inodeInvariant_run {events : List (Nat × InodeAction)}
    (run : Run (inodeMachine procs).Step mountInodes events cache) :
    InodeInvariant procs cache :=
  run.invariant (InodeInvariant procs) (fun _ _ _ invariant step => invariant.step step)
    inodeInvariant_mount

theorem frees_setSin {other : Nat} {sin : SfsInode} :
    ((cache.setSin node sin).node other).frees = (cache.node other).frees := by
  unfold InodeCache.setSin InodeCache.setNode
  by_cases same : other = node
  · subst same
    simp only [Function.update_self]
  · simp only [Function.update_of_ne same]

theorem node_lockSfsFs {held queued : InodePc} :
    (cache.lockSfsFs proc held queued).node = cache.node := by
  unfold InodeCache.lockSfsFs
  split <;> rfl

/-- Nothing is freed by a statement that is not `vop_kill`. -/
theorem frees_resume {answers : Answers} (done : cache.resume proc answers = .ok after) :
    cache.pc proc = .freeing node ∨ (after.node node).frees ≤ (cache.node node).frees := by
  unfold InodeCache.resume at done
  cases here : cache.pc proc with
  | loading ino =>
      right
      simp only [here] at done
      split at done
      · cases done
        exact frees_setSin.le
      · cases done
        exact le_rfl
  | filling ino =>
      right
      rw [here] at done
      rcases InodeInvariant.fill_cases done with rfl | ⟨din, rfl⟩
      · exact le_rfl
      · show (Function.update cache.node cache.nextNode _ node).frees ≤ _
        by_cases same : node = cache.nextNode
        · subst same
          rw [Function.update_self]
          exact Nat.zero_le _
        · rw [Function.update_of_ne same]
  | dropped other =>
      right
      rw [here] at done
      cases done
      rw [node_lockSfsFs]
  | reclaiming other =>
      right
      rw [here] at done
      unfold InodeCache.reclaim at done
      simp only [] at done
      split_ifs at done
      · cases done
        exact frees_setSin.le
      · cases done
        exact frees_setSin.le
  | truncating other =>
      right
      rw [here] at done
      cases done
      unfold InodeCache.truncate
      simp only []
      split_ifs
      · cases answers.truncated with
        | none => exact le_rfl
        | some pair => exact frees_setSin.le
      · exact le_rfl
  | syncing other =>
      right
      rw [here] at done
      cases done
      unfold InodeCache.fsync
      simp only []
      split_ifs
      · exact frees_setSin.le
      · exact le_rfl
      · exact le_rfl
  | freeing other =>
      by_cases same : other = node
      · exact Or.inl (by rw [same])
      · right
        rw [here] at done
        replace done : cache.kill proc other = .ok after := done
        unfold InodeCache.kill at done
        split_ifs at done
        cases done
        show (Function.update cache.node other _ node).frees ≤ _
        rw [Function.update_of_ne (Ne.symm same)]
  | _ =>
      right
      rw [here] at done
      cases done
      exact le_rfl

/-- Only `vop_kill` frees an inode. -/
theorem freeing_of_frees {event : Nat × InodeAction}
    (step : (inodeMachine procs).Step cache event after)
    (freed : (cache.node node).frees < (after.node node).frees) :
    cache.pc event.1 = .freeing node := by
  obtain ⟨_, answered⟩ := step
  obtain ⟨proc, action⟩ := event
  cases action with
  | load ino =>
      cases answered
      rw [node_lockSfsFs] at freed
      omega
  | refInc other =>
      cases answered
      exact absurd freed (not_lt.mpr frees_setSin.le)
  | refDec other =>
      have done : cache.refDec proc other = .ok after := answered
      unfold InodeCache.refDec at done
      simp only [] at done
      split_ifs at done
      · cases done
        exact absurd freed (not_lt.mpr frees_setSin.le)
      · cases done
        exact absurd freed (not_lt.mpr frees_setSin.le)
  | change other din dirty =>
      cases answered
      exact absurd freed (not_lt.mpr frees_setSin.le)
  | resume answers =>
      rcases frees_resume answered with freeing | kept
      · exact freeing
      · exact absurd freed (not_lt.mpr kept)

/-- The life of an inode in memory. -/
theorem inode_lifetime {events : List (Nat × InodeAction)}
    (run : Run (inodeMachine procs).Step mountInodes events cache) :
    -- a number is on the hash lists once
    (∀ hash, (cache.hashList hash).Nodup) ∧
    (∀ first second node other, node ∈ cache.hashList first → other ∈ cache.hashList second →
      (cache.node node).ino = (cache.node other).ino → node = other) ∧
    -- an inode is freed once, when nobody has it or is about to give it up
    (∀ node, (cache.node node).frees ≤ 1) ∧
    (∀ event after node, (inodeMachine procs).Step cache event after →
      (cache.node node).frees < (after.node node).frees →
        (cache.node node).sin.refCount = 0 ∧
          ∀ proc, proc ≠ event.1 → (cache.pc proc).role node = .none) ∧
    -- what is returned is not freed
    ∀ proc ino node, cache.pc proc = .returning ino node →
      (cache.node node).ino = ino ∧ (cache.node node).frees = 0 := by
  have invariant := inodeInvariant_run run
  refine ⟨invariant.distinct, ?_, fun node => (invariant.nodes node).once, ?_, ?_⟩
  · intro first second node other inside within same
    apply invariant.single node other _ _ same
    · unfold InodeCache.Linked
      rw [(invariant.bucket first node inside).2]
      exact inside
    · unfold InodeCache.Linked
      rw [(invariant.bucket second other within).2]
      exact within
  · intro event after node step freed
    have here := freeing_of_frees step freed
    have dead : cache.roles node event.1 = .dead :=
      (InodeInvariant.roles_of here).trans (if_pos rfl)
    obtain ⟨gone, _, only⟩ := (invariant.nodes node).dead event.1 dead
    obtain ⟨unreferenced, quiet⟩ := (invariant.nodes node).unlinked gone
    refine ⟨unreferenced, ?_⟩
    intro proc apart
    rcases quiet proc with none | second
    · exact none
    · exact absurd (only proc second) apart
  · intro proc ino node here
    have fits := invariant.fits proc
    rw [here] at fits
    have carries : cache.roles node proc = .carries :=
      (InodeInvariant.roles_of here).trans (if_pos rfl)
    have linked := (invariant.nodes node).linked_of_refCount
      ((invariant.nodes node).refCount_pos_of_carries carries)
    exact ⟨fits, (invariant.nodes node).alive linked⟩

/-- A regular file on the disk, and functions that succeed. -/
def plainAnswers : Answers where
  kmalloc := true
  inuse := true
  rbuf := some ⟨0, sfsTypeFile, 1, 0, fun _ => 0, 0⟩
  allocInode := true
  truncated := none
  synced := true

/-- Process 0 loads inode 1 and drops it. Before it has reclaimed it, process 1 finds it and drops
it again: only the second reclaim frees it. -/
def reclaimEvents : List (Nat × InodeAction) :=
  [(0, .load 1), (0, .resume plainAnswers), (0, .resume plainAnswers), (0, .resume plainAnswers),
    (0, .resume plainAnswers), (0, .refDec 0), (1, .load 1), (1, .resume plainAnswers),
    (1, .resume plainAnswers), (1, .resume plainAnswers), (1, .refDec 0),
    (0, .resume plainAnswers), (0, .resume plainAnswers), (0, .resume plainAnswers),
    (1, .resume plainAnswers), (1, .resume plainAnswers), (1, .resume plainAnswers),
    (1, .resume plainAnswers), (1, .resume plainAnswers), (1, .resume plainAnswers),
    (1, .resume plainAnswers)]

theorem inode_lifetime_reclaim :
    ∃ cache, Run (inodeMachine {0, 1}).Step mountInodes reclaimEvents cache ∧
      (cache.node 0).frees = 1 ∧ ∀ node, (cache.node node).frees ≤ 1 := by
  have done : (follow ((inodeMachine {0, 1}).next fun _ _ => True) mountInodes
      reclaimEvents).any (fun cache => (cache.node 0).frees = 1) = true := by decide
  obtain ⟨cache, finished, freed⟩ := (Option.any_eq_true _ _).mp done
  have run : Run (inodeMachine {0, 1}).Step mountInodes reclaimEvents cache :=
    Run.mono (fun _ _ _ move => move.1) (Machine.follow_next_run finished)
  exact ⟨cache, run, of_decide_eq_true freed, (inode_lifetime run).2.2.1⟩

end UCore.Fs
