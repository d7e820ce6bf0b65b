import UCore.Lib.Transition
import UCore.Libs.Hash
import UCore.Sync.Mutex
import UCore.Fs.Sfs

/-!
Contract: inodes in memory as processes get, share and drop them, `kern/fs/vfs/inode.c` and
`kern/fs/sfs/sfs_inode.c`.

Owns:
- the hash lists, and the inodes that were ever created, each with how often it was freed;
- `sfs_load_inode`, `inode_ref_inc`, `inode_ref_dec` and `sfs_reclaim`, cut wherever another
  process can run;
- the runs of any number of processes.

An inode is named by the order of creation: memory that is used again makes another inode. A
reference that was handed out may be used by any process, as files and working directories are
shared. Kernel code is not preempted, so what lies between two calls that can block is one step;
what the memory allocator and the disk answer is part of the step.

Does not own: what `vop_truncate` and `vop_fsync` do to the disk, and the blocks that are freed
with an inode.
-/

set_option autoImplicit false

namespace UCore.Fs

open UCore.Lib UCore.Libs UCore.Sync

/-- `struct inode` with the `struct sfs_inode` in it. -/
structure MemInode where
  ino : Nat
  sin : SfsInode
  /-- how often it was freed -/
  frees : Nat

/-- Where a process is. -/
inductive InodePc
  | idle
  /-- queued in `lock_sfs_fs` of `sfs_load_inode` -/
  | loadDown (ino : Nat)
  /-- at `lookup_sfs_nolock` -/
  | loading (ino : Nat)
  /-- not in memory -/
  | filling (ino : Nat)
  | loadFailed
  /-- at `out_unlock` -/
  | loaded (ino node : Nat)
  | returning (ino node : Nat)
  /-- `inode_ref_dec` has dropped the last reference -/
  | dropped (node : Nat)
  /-- queued in `lock_sfs_fs` of `sfs_reclaim` -/
  | reclaimDown (node : Nat)
  | reclaiming (node : Nat)
  | truncating (node : Nat)
  | syncing (node : Nat)
  | unlinking (node : Nat)
  | unlinked (node : Nat)
  | freeing (node : Nat)
  /-- at `failed_unlock` -/
  | reclaimFailed (node : Nat)
deriving DecidableEq, Repr

namespace InodePc

/-- Where the process is with respect to the lock of the file system. -/
def lockPhase : InodePc → LockPhase
  | idle | returning _ _ | dropped _ | freeing _ => .out
  | loadDown _ | reclaimDown _ => .queued
  | loading _ | filling _ | loadFailed | loaded _ _ | reclaiming _ | truncating _ | syncing _
  | unlinking _ | unlinked _ | reclaimFailed _ => .held

end InodePc

/-- The inodes of a file system in memory, and the processes that use them. `holders` counts the
references that were handed out and not yet dropped. -/
structure InodeCache where
  fsSem : Semaphore
  hashList : Nat → List Nat
  node : Nat → MemInode
  nextNode : Nat
  holders : Nat → Nat
  pc : Nat → InodePc

/-- What the functions that are called on the way answer: whether there is memory, whether the
block is in use, the inode on the disk or an error, the inode and its dirty flag as `vop_truncate`
leaves them or an error, and whether `vop_fsync` succeeds. -/
structure Answers where
  kmalloc : Bool
  inuse : Bool
  rbuf : Option DiskInode
  allocInode : Bool
  truncated : Option (DiskInode × Bool)
  synced : Bool

/-- What a process does next: a call, a change of an inode it uses, or its next statement. -/
inductive InodeAction
  | load (ino : Nat)
  | refInc (node : Nat)
  | refDec (node : Nat)
  | change (node : Nat) (din : DiskInode) (dirty : Bool)
  | resume (answers : Answers)

def sfsHlistShift : Nat := 10

def sinHashfn (ino : Nat) : Nat := hash32 ino sfsHlistShift

/-- A file system of which no inode is in memory. -/
def mountInodes : InodeCache where
  fsSem := semInit 1
  hashList := fun _ => []
  node := fun _ => ⟨0, ⟨⟨0, 0, 0, 0, fun _ => 0, 0⟩, false, 0, 0⟩, 0⟩
  nextNode := 0
  holders := fun _ => 0
  pc := fun _ => .idle

namespace InodeCache

def setPc (cache : InodeCache) (proc : Nat) (pc : InodePc) : InodeCache :=
  { cache with pc := Function.update cache.pc proc pc }

def setNode (cache : InodeCache) (node : Nat) (inode : MemInode) : InodeCache :=
  { cache with node := Function.update cache.node node inode }

def setSin (cache : InodeCache) (node : Nat) (sin : SfsInode) : InodeCache :=
  cache.setNode node { cache.node node with sin := sin }

def setHolders (cache : InodeCache) (node count : Nat) : InodeCache :=
  { cache with holders := Function.update cache.holders node count }

/-- `lock_sfs_fs` up to where it may sleep. -/
def lockSfsFs (cache : InodeCache) (proc : Nat) (held queued : InodePc) : InodeCache :=
  match cache.fsSem.down proc with
  | (true, sem) => { cache with fsSem := sem }.setPc proc held
  | (false, sem) => { cache with fsSem := sem }.setPc proc queued

/-- `unlock_sfs_fs`, after which the process goes on at `pc`. -/
def unlockSfsFs (cache : InodeCache) (proc : Nat) (pc : InodePc) : InodeCache :=
  { cache with fsSem := cache.fsSem.up }.setPc proc pc

/-- `vop_ref_inc` of `lookup_sfs_nolock`: the first reference counts as one reclaim to come. -/
def lookupRef (sin : SfsInode) : SfsInode :=
  { sin with
    refCount := sin.refCount + 1
    reclaimCount := if sin.refCount + 1 = 1 then sin.reclaimCount + 1 else sin.reclaimCount }

/-- `lookup_sfs_nolock` -/
def lookupSfsNolock (cache : InodeCache) (ino : Nat) : Option Nat :=
  (cache.hashList (sinHashfn ino)).find? fun node => (cache.node node).ino = ino

/-- `sfs_create_inode` and `sfs_set_links` for an inode that was read. -/
def createInode (cache : InodeCache) (proc ino : Nat) (din : DiskInode) : InodeCache :=
  { cache with
    hashList := Function.update cache.hashList (sinHashfn ino)
      (cache.nextNode :: cache.hashList (sinHashfn ino))
    node := Function.update cache.node cache.nextNode ⟨ino, ⟨din, false, 1, 1⟩, 0⟩
    nextNode := cache.nextNode + 1 }.setPc proc (.loaded ino cache.nextNode)

/-- The part of `sfs_load_inode` that reads the inode. -/
def fill (cache : InodeCache) (proc ino : Nat) (answers : Answers) : Except Stop InodeCache :=
  if answers.kmalloc = false then .ok (cache.setPc proc .loadFailed)
  else if answers.inuse = false then .error .assertFailed
  else match answers.rbuf with
    | none => .ok (cache.setPc proc .loadFailed)
    | some din =>
        if din.nlinks = 0 then .error .assertFailed
        else if answers.allocInode = false then .ok (cache.setPc proc .loadFailed)
        else if din.type = sfsTypeDir ∨ din.type = sfsTypeFile then
          .ok (cache.createInode proc ino din)
        else .error .panicked

/-- The checks of `sfs_reclaim`. -/
def reclaim (cache : InodeCache) (proc node : Nat) : Except Stop InodeCache :=
  let sin := (cache.node node).sin
  if sin.reclaimCount = 0 then .error .assertFailed
  else
    let counted := cache.setSin node { sin with reclaimCount := sin.reclaimCount - 1 }
    if sin.reclaimCount - 1 ≠ 0 ∨ sin.refCount ≠ 0 then .ok (counted.setPc proc (.reclaimFailed node))
    else .ok (counted.setPc proc (.truncating node))

/-- `vop_truncate` of an inode without links. -/
def truncate (cache : InodeCache) (proc node : Nat) (answers : Answers) : InodeCache :=
  let sin := (cache.node node).sin
  if sin.din.nlinks = 0 then
    match answers.truncated with
    | none => cache.setPc proc (.reclaimFailed node)
    | some (din, dirty) =>
        (cache.setSin node { sin with din := { din with nlinks := 0 }, dirty := dirty }).setPc proc
          (.syncing node)
  else cache.setPc proc (.syncing node)

/-- `vop_fsync` of a dirty inode. -/
def fsync (cache : InodeCache) (proc node : Nat) (answers : Answers) : InodeCache :=
  let sin := (cache.node node).sin
  if sin.dirty = true then
    if answers.synced = true then
      (cache.setSin node { sin with dirty := false }).setPc proc (.unlinking node)
    else cache.setPc proc (.reclaimFailed node)
  else cache.setPc proc (.unlinking node)

/-- `sfs_remove_links` -/
def removeLinks (cache : InodeCache) (node : Nat) : InodeCache :=
  let bucket := sinHashfn (cache.node node).ino
  { cache with
    hashList := Function.update cache.hashList bucket ((cache.hashList bucket).erase node) }

/-- `vop_kill` -/
def kill (cache : InodeCache) (proc node : Nat) : Except Stop InodeCache :=
  if (cache.node node).sin.refCount ≠ 0 then .error .assertFailed
  else .ok ((cache.setNode node
    { cache.node node with frees := (cache.node node).frees + 1 }).setPc proc .idle)

/-- `inode_ref_dec` up to its call of `sfs_reclaim`. -/
def refDec (cache : InodeCache) (proc node : Nat) : Except Stop InodeCache :=
  let sin := (cache.node node).sin
  if sin.refCount = 0 then .error .assertFailed
  else
    let dropped := (cache.setSin node { sin with refCount := sin.refCount - 1 }).setHolders node
      (cache.holders node - 1)
    if sin.refCount - 1 = 0 then .ok (dropped.setPc proc (.dropped node)) else .ok dropped

/-- The next statements of a process. -/
def resume (cache : InodeCache) (proc : Nat) (answers : Answers) : Except Stop InodeCache :=
  match cache.pc proc with
  | .idle => .ok cache
  | .loadDown ino => .ok (cache.setPc proc (.loading ino))
  | .loading ino =>
      match cache.lookupSfsNolock ino with
      | some node => .ok ((cache.setSin node (lookupRef (cache.node node).sin)).setPc proc
          (.loaded ino node))
      | none => .ok (cache.setPc proc (.filling ino))
  | .filling ino => cache.fill proc ino answers
  | .loadFailed => .ok (cache.unlockSfsFs proc .idle)
  | .loaded ino node => .ok (cache.unlockSfsFs proc (.returning ino node))
  | .returning _ node => .ok ((cache.setHolders node (cache.holders node + 1)).setPc proc .idle)
  | .dropped node => .ok (cache.lockSfsFs proc (.reclaiming node) (.reclaimDown node))
  | .reclaimDown node => .ok (cache.setPc proc (.reclaiming node))
  | .reclaiming node => cache.reclaim proc node
  | .truncating node => .ok (cache.truncate proc node answers)
  | .syncing node => .ok (cache.fsync proc node answers)
  | .unlinking node => .ok ((cache.removeLinks node).setPc proc (.unlinked node))
  | .unlinked node => .ok (cache.unlockSfsFs proc (.freeing node))
  | .freeing node => cache.kill proc node
  | .reclaimFailed _ => .ok (cache.unlockSfsFs proc .idle)

/-- A process calls when it is in no call; it uses and drops a reference that was handed out. One
that is queued for the lock goes on once it is off the queue. -/
def Admits (procs : Finset Nat) (cache : InodeCache) (event : Nat × InodeAction) : Prop :=
  event.1 ∈ procs ∧
    match event.2 with
    | .load _ => cache.pc event.1 = .idle
    | .refInc node | .refDec node | .change node _ _ =>
        cache.pc event.1 = .idle ∧ 0 < cache.holders node
    | .resume _ => cache.pc event.1 ≠ .idle ∧
        ((cache.pc event.1).lockPhase = .queued → event.1 ∉ cache.fsSem.waitQueue)

instance {procs : Finset Nat} {cache : InodeCache} {event : Nat × InodeAction} :
    Decidable (cache.Admits procs event) :=
  match event with
  | (_, .load _) => inferInstanceAs (Decidable (_ ∧ _))
  | (_, .refInc _) => inferInstanceAs (Decidable (_ ∧ _ ∧ _))
  | (_, .refDec _) => inferInstanceAs (Decidable (_ ∧ _ ∧ _))
  | (_, .change _ _ _) => inferInstanceAs (Decidable (_ ∧ _ ∧ _))
  | (_, .resume _) => inferInstanceAs (Decidable (_ ∧ _ ∧ (_ → _)))

def answer (cache : InodeCache) (event : Nat × InodeAction) : Except Stop InodeCache :=
  match event.2 with
  | .load ino => .ok (cache.lockSfsFs event.1 (.loading ino) (.loadDown ino))
  | .refInc node =>
      let sin := (cache.node node).sin
      .ok ((cache.setSin node { sin with refCount := sin.refCount + 1 }).setHolders node
        (cache.holders node + 1))
  | .refDec node => cache.refDec event.1 node
  | .change node din dirty =>
      .ok (cache.setSin node { (cache.node node).sin with din := din, dirty := dirty })
  | .resume answers => cache.resume event.1 answers

end InodeCache

/-- Any of `procs` may take the next step. -/
def inodeMachine (procs : Finset Nat) : Machine InodeCache (Nat × InodeAction) Stop where
  Admits := InodeCache.Admits procs
  answer := InodeCache.answer

instance {procs : Finset Nat} : DecidableRel (inodeMachine procs).Admits :=
  fun cache event => inferInstanceAs (Decidable (cache.Admits procs event))

end UCore.Fs
