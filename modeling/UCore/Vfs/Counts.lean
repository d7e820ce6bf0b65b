import Mathlib.Algebra.Group.Pi.Basic
import Mathlib.Algebra.Order.Group.Int
import Mathlib.Algebra.Order.Pi
import UCore.Fs.SfsIdentity
import UCore.Lib.Outcome
import UCore.Vfs.Lookup

/-!
Contract: what the operations on inodes do to reference and open counts, and which operations
they find.

Owns:
- `Sound`: inodes in memory have an operation table and a link;
- `Moves`: the change of the counts of every inode;
- one rule for each operation on inodes and paths, with the operations that can be missing.

Does not own: open files.
-/

set_option autoImplicit false

namespace UCore.Vfs

open UCore.Lib UCore.Lib.Program UCore.Fs

variable {vfs after : VfsState} {node : Node} {refs opens : Node → Int}

/-- The reasons for a stop other than a missing operation. -/
def NotMissing (stop : VfsStop) : Prop := stop ≠ .missingOperation

/-- The inodes in memory are linked directories and files, and the devices are referenced. -/
structure Sound (vfs : VfsState) : Prop where
  proper : ∀ ino sin, vfs.sfs.inodes ino = some sin → Proper sin.din
  devices : ∀ device, 0 < vfs.deviceRefs device

/-- The counts change by `refs` and `opens`. An inode that stays in use stays of its type, and the
open files, the boot file system and the devices are as before. -/
structure Moves (refs opens : Node → Int) (vfs after : VfsState) : Prop where
  files : after.files = vfs.files
  filesCreated : after.filesCreated = vfs.filesCreated
  bootfs : after.bootfs = vfs.bootfs
  refCount : ∀ node, (after.refCount node : Int) = vfs.refCount node + refs node
  openCount : ∀ node, (after.openCount node : Int) = vfs.openCount node + opens node
  type : ∀ ino sin sin', vfs.sfs.inodes ino = some sin → after.sfs.inodes ino = some sin' →
    0 < sin.refCount → 0 < sin'.refCount → sin'.din.type = sin.din.type
  sound : Sound vfs → Sound after

/-- One reference to `node`. -/
def just (node : Node) : Node → Int := Pi.single node 1

@[simp] theorem just_self : just node node = 1 := Pi.single_eq_same ..

theorem just_of_ne {other : Node} (apart : other ≠ node) : just node other = 0 :=
  Pi.single_eq_of_ne apart _

theorem just_nonneg (node other : Node) : 0 ≤ just node other := by
  by_cases same : other = node
  · rw [same, just_self]
    decide
  · rw [just_of_ne same]

/-! ## Counts -/

theorem refCount_loaded {ino : Nat} {sin : SfsInode} (loaded : vfs.sfs.inodes ino = some sin) :
    vfs.refCount (.sfs ino) = sin.refCount := by
  simp only [VfsState.refCount, loaded]

theorem refCount_absent {ino : Nat} (absent : vfs.sfs.inodes ino = none) :
    vfs.refCount (.sfs ino) = 0 := by
  simp only [VfsState.refCount, absent]

theorem openCount_loaded {ino : Nat} {sin : SfsInode} (loaded : vfs.sfs.inodes ino = some sin) :
    vfs.openCount (.sfs ino) = vfs.openCounts (.sfs ino) := by
  simp only [VfsState.openCount, loaded]

theorem openCount_absent {ino : Nat} (absent : vfs.sfs.inodes ino = none) :
    vfs.openCount (.sfs ino) = 0 := by
  simp only [VfsState.openCount, absent]

theorem loaded_of_refCount {ino : Nat} (referenced : 0 < vfs.refCount (.sfs ino)) :
    ∃ sin, vfs.sfs.inodes ino = some sin ∧ sin.refCount = vfs.refCount (.sfs ino) := by
  cases loaded : vfs.sfs.inodes ino with
  | none =>
      rw [refCount_absent loaded] at referenced
      cases referenced
  | some sin => exact ⟨sin, rfl, (refCount_loaded loaded).symm⟩

/-- The counts of an inode depend on its identity. -/
theorem counts_congr {ino : Nat}
    (same : (after.sfs.inodes ino).map identity = (vfs.sfs.inodes ino).map identity)
    (opened : after.openCounts (.sfs ino) = vfs.openCounts (.sfs ino)) :
    after.refCount (.sfs ino) = vfs.refCount (.sfs ino) ∧
      after.openCount (.sfs ino) = vfs.openCount (.sfs ino) := by
  cases before : vfs.sfs.inodes ino with
  | none =>
      rw [before, Option.map_none, Option.map_eq_none_iff] at same
      rw [refCount_absent same, refCount_absent before, openCount_absent same,
        openCount_absent before]
      exact ⟨rfl, rfl⟩
  | some sin =>
      rw [before, Option.map_some, Option.map_eq_some_iff] at same
      obtain ⟨sin', found, kept⟩ := same
      rw [refCount_loaded found, refCount_loaded before, openCount_loaded found,
        openCount_loaded before]
      exact ⟨congrArg Prod.fst kept, opened⟩

theorem proper_of_identity {sin sin' : SfsInode} (same : (identity sin').2 = (identity sin).2)
    (proper : Proper sin.din) : Proper sin'.din := by
  have type : sin'.din.type = sin.din.type := congrArg Prod.fst same
  have nlinks : sin'.din.nlinks = sin.din.nlinks := congrArg Prod.snd same
  exact ⟨type ▸ proper.type, nlinks ▸ proper.linked⟩

namespace Moves

theorem refl : Moves 0 0 vfs vfs where
  files := rfl
  filesCreated := rfl
  bootfs := rfl
  refCount _ := (add_zero _).symm
  openCount _ := (add_zero _).symm
  type _ _ _ before after _ _ := by rw [Option.some.inj (before.symm.trans after)]
  sound := id

/-- The two changes add up. No inode is dropped by the first and taken again by the second. -/
theorem trans {middle : VfsState} {refs' opens' : Node → Int} (first : Moves refs opens vfs middle)
    (second : Moves refs' opens' middle after)
    (steady : (∀ node, 0 ≤ refs node) ∨ ∀ node, refs' node ≤ 0) :
    Moves (refs + refs') (opens + opens') vfs after where
  files := second.files.trans first.files
  filesCreated := second.filesCreated.trans first.filesCreated
  bootfs := second.bootfs.trans first.bootfs
  refCount node := by
    rw [second.refCount, first.refCount, Pi.add_apply, add_assoc]
  openCount node := by
    rw [second.openCount, first.openCount, Pi.add_apply, add_assoc]
  type ino sin sin' before later positive positive' := by
    have inMiddle : 0 < middle.refCount (.sfs ino) := by
      have earlier := first.refCount (.sfs ino)
      have final := second.refCount (.sfs ino)
      rw [refCount_loaded before] at earlier
      rw [refCount_loaded later] at final
      rcases steady with up | down
      · have := up (.sfs ino)
        omega
      · have := down (.sfs ino)
        omega
    obtain ⟨found, loaded, counted⟩ := loaded_of_refCount inMiddle
    rw [← counted] at inMiddle
    exact (second.type ino found sin' loaded later inMiddle positive').trans
      (first.type ino sin found before loaded positive inMiddle)
  sound sound := second.sound (first.sound sound)

theorem congr {refs' opens' : Node → Int} (moves : Moves refs opens vfs after)
    (sameRefs : refs = refs') (sameOpens : opens = opens') : Moves refs' opens' vfs after :=
  sameRefs ▸ sameOpens ▸ moves

/-- A function of the Simple FS that keeps the identities of inodes. -/
theorem of_same {sfs : SfsFs} (same : SameIdentities vfs.sfs sfs) :
    Moves 0 0 vfs { vfs with sfs := sfs } where
  files := rfl
  filesCreated := rfl
  bootfs := rfl
  refCount node := by
    rw [Pi.zero_apply, add_zero]
    cases node with
    | device device => rfl
    | sfs ino => exact congrArg Nat.cast (@counts_congr vfs { vfs with sfs := sfs } ino (same ino) rfl).1
  openCount node := by
    rw [Pi.zero_apply, add_zero]
    cases node with
    | device device => rfl
    | sfs ino => exact congrArg Nat.cast (@counts_congr vfs { vfs with sfs := sfs } ino (same ino) rfl).2
  type ino sin sin' before later _ _ := by
    obtain ⟨found, loaded, kept⟩ := same.loaded later
    obtain rfl := Option.some.inj (before.symm.trans loaded)
    exact congrArg (fun label => label.2.1) kept
  sound sound := by
    refine ⟨?_, sound.devices⟩
    intro ino sin' later
    obtain ⟨sin, loaded, kept⟩ := same.loaded later
    exact proper_of_identity (congrArg Prod.snd kept) (sound.proper ino sin loaded)

/-- The memory and the keyboard. -/
theorem of_kmallocs {kmallocs : Nat → Bool} {typed : List UInt8} :
    Moves 0 0 vfs { vfs with kmallocs := kmallocs, typed := typed } where
  files := rfl
  filesCreated := rfl
  bootfs := rfl
  refCount node := by
    rw [Pi.zero_apply, add_zero]
    cases node <;> rfl
  openCount node := by
    rw [Pi.zero_apply, add_zero]
    cases node <;> rfl
  type _ _ _ before later _ _ := by rw [Option.some.inj (before.symm.trans later)]
  sound sound := ⟨sound.proper, sound.devices⟩

/-- An inode that was and stays referenced has the same operations. -/
theorem inOps (moves : Moves refs opens vfs after) (before : 0 < vfs.refCount node)
    (later : 0 < after.refCount node) : after.inOps node = vfs.inOps node := by
  cases node with
  | device device => rfl
  | sfs ino =>
      obtain ⟨sin, loaded, counted⟩ := loaded_of_refCount before
      obtain ⟨sin', loaded', counted'⟩ := loaded_of_refCount later
      have type := moves.type ino sin sin' loaded loaded' (counted ▸ before) (counted' ▸ later)
      simp only [VfsState.inOps, loaded, loaded', type]

end Moves

/-! ## Operations -/

/-- The table of an inode in use. -/
theorem Sound.inOps (sound : Sound vfs) (referenced : 0 < vfs.refCount node) :
    (∃ device, node = .device device ∧ vfs.inOps node = devNodeOps) ∨
      ∃ ino sin, node = .sfs ino ∧ vfs.sfs.inodes ino = some sin ∧
        (sin.din.type = sfsTypeDir ∧ vfs.inOps node = sfsNodeDirops ∨
          sin.din.type = sfsTypeFile ∧ vfs.inOps node = sfsNodeFileops) := by
  cases node with
  | device device => exact Or.inl ⟨device, rfl, rfl⟩
  | sfs ino =>
      obtain ⟨sin, loaded, _⟩ := loaded_of_refCount referenced
      refine Or.inr ⟨ino, sin, rfl, loaded, ?_⟩
      rcases (sound.proper ino sin loaded).type with type | type
      · left
        refine ⟨type, ?_⟩
        simp only [VfsState.inOps, loaded, type, if_true]
      · right
        refine ⟨type, ?_⟩
        simp only [VfsState.inOps, loaded, type, sfsTypeFile, sfsTypeDir]
        rfl

/-- The operations that every table has. -/
def commonOps : List Vop := [.vopOpen, .vopClose, .vopFstat, .vopGettype]

theorem Sound.common (sound : Sound vfs) (referenced : 0 < vfs.refCount node) {op : Vop}
    (common : op ∈ commonOps) : op ∈ vfs.inOps node := by
  have inAll : op ∈ devNodeOps ∧ op ∈ sfsNodeDirops ∧ op ∈ sfsNodeFileops := by
    revert common
    cases op <;> decide
  rcases sound.inOps referenced with ⟨_, _, ops⟩ | ⟨_, _, _, _, ⟨_, ops⟩ | ⟨_, ops⟩⟩ <;> rw [ops]
  · exact inAll.1
  · exact inAll.2.1
  · exact inAll.2.2

theorem Sound.common_sfs (sound : Sound vfs) {ino : Nat} {sin : SfsInode}
    (loaded : vfs.sfs.inodes ino = some sin) {op : Vop} (common : op ∈ [Vop.vopFsync, .vopReclaim]) :
    op ∈ vfs.inOps (.sfs ino) := by
  have inBoth : op ∈ sfsNodeDirops ∧ op ∈ sfsNodeFileops := by
    revert common
    cases op <;> decide
  simp only [VfsState.inOps, loaded]
  rcases (sound.proper ino sin loaded).type with type | type
  · rw [if_pos type]
    exact inBoth.1
  · rw [type, if_neg (by decide)]
    exact inBoth.2

theorem meets_lift {α : Type} {stops : VfsStop → Prop} {program : SfsM α}
    {post : Except Errno α → VfsState → Prop} (reasons : ∀ reason, stops (.sfs reason))
    (ensures : Ensures True program vfs.sfs fun result sfs => post result { vfs with sfs := sfs }) :
    Meets stops (liftSfs program) vfs post := by
  unfold Ensures at ensures
  unfold Meets liftSfs
  cases ran : program vfs.sfs with
  | error reason => exact reasons reason
  | ok pair =>
      rw [ran] at ensures
      exact ensures

theorem notMissing_sfs (reason : Stop) : NotMissing (.sfs reason) := by
  unfold NotMissing
  exact nofun

theorem notMissing_other (reason : Stop) : NotMissing (.other reason) := by
  unfold NotMissing
  exact nofun

/-- The stops that are neither in the Simple FS nor at a missing operation. -/
def Plain (stop : VfsStop) : Prop := stop = .inodeCheck ∨ ∃ reason, stop = .other reason

theorem notMissing_check : NotMissing .inodeCheck := by
  unfold NotMissing
  exact nofun

/-- A function of the Simple FS that keeps the identities of inodes. -/
theorem meets_keeps {α : Type} {program : SfsM α} (keeps : KeepsIdentities program) :
    Meets NotMissing (liftSfs program) vfs fun _ after => Moves 0 0 vfs after :=
  meets_lift notMissing_sfs ((keeps vfs.sfs).weaken id fun _ _ same => Moves.of_same same)

theorem meets_vopOp {op : Vop} (present : op ∈ vfs.inOps node) :
    Meets NotMissing (vopOp node op) vfs fun result after => result = .ok () ∧ after = vfs := by
  apply meets_read
  apply meets_require _ (absurd present)
  intro _
  exact meets_read (meets_require_last (fun _ => ⟨rfl, rfl⟩) fun _ => notMissing_check)

theorem notMissing_plain (stop : VfsStop) (plain : Plain stop) : NotMissing stop := by
  rcases plain with rfl | ⟨reason, rfl⟩
  · exact notMissing_check
  · exact notMissing_other reason

theorem meets_bind_vopOp {α : Type} {op : Vop} {second : Unit → VfsM α}
    {post : Except Errno α → VfsState → Prop} (present : op ∈ vfs.inOps node)
    (rest : Meets NotMissing (second ()) vfs post) :
    Meets NotMissing (vopOp node op >>= second) vfs post := by
  apply meets_bind (meets_vopOp present)
  · rintro _ _ ⟨_, rfl⟩
    exact rest
  · exact fun _ _ impossible => nomatch impossible.1

/-- An operation that the table lacks. -/
theorem meets_bind_missing {α : Type} {stops : VfsStop → Prop} {op : Vop} {second : Unit → VfsM α}
    {post : Except Errno α → VfsState → Prop} (missing : op ∉ vfs.inOps node)
    (allowed : stops .missingOperation) : Meets stops (vopOp node op >>= second) vfs post := by
  unfold Meets
  simp only [vopOp, Bind.bind, Program.bind, Program.read, require, if_neg missing]
  exact allowed

/-- A program that always stops. -/
theorem meets_bind_stuck {α β : Type} {stops : VfsStop → Prop} {program : VfsM α}
    {second : α → VfsM β} {post : Except Errno β → VfsState → Prop}
    (stuck : Meets stops program vfs fun _ _ => False) :
    Meets stops (program >>= second) vfs post :=
  meets_bind stuck (fun _ _ impossible => impossible.elim) fun _ _ impossible => impossible.elim

theorem meets_assert {α : Type} {condition : Prop} [Decidable condition] {second : Unit → VfsM α}
    {post : Except Errno α → VfsState → Prop}
    (holds : condition → Meets NotMissing (second ()) vfs post) :
    Meets NotMissing (assert condition >>= second) vfs post :=
  meets_require holds fun _ => notMissing_other _

/-! ## References and opens -/

/-- Only the inode `ino` changes. -/
structure OnlyInode (ino : Nat) (vfs after : VfsState) : Prop where
  files : after.files = vfs.files
  filesCreated : after.filesCreated = vfs.filesCreated
  bootfs : after.bootfs = vfs.bootfs
  devices : after.deviceRefs = vfs.deviceRefs
  opened : ∀ node, node ≠ .sfs ino → after.openCounts node = vfs.openCounts node
  others : OthersSame ino vfs.sfs after.sfs

theorem OnlyInode.moves {ino : Nat} {ref opening : Int} (only : OnlyInode ino vfs after)
    (refCount : (after.refCount (.sfs ino) : Int) = vfs.refCount (.sfs ino) + ref)
    (openCount : (after.openCount (.sfs ino) : Int) = vfs.openCount (.sfs ino) + opening)
    (type : ∀ sin sin', vfs.sfs.inodes ino = some sin → after.sfs.inodes ino = some sin' →
      0 < sin.refCount → 0 < sin'.refCount → sin'.din.type = sin.din.type)
    (proper : ∀ sin', after.sfs.inodes ino = some sin' → Proper sin'.din ∨
      ∃ sin, vfs.sfs.inodes ino = some sin ∧ (identity sin').2 = (identity sin).2) :
    Moves (Pi.single (.sfs ino) ref) (Pi.single (.sfs ino) opening) vfs after where
  files := only.files
  filesCreated := only.filesCreated
  bootfs := only.bootfs
  refCount node := by
    by_cases same : node = .sfs ino
    · rw [same, Pi.single_eq_same, refCount]
    · rw [Pi.single_eq_of_ne same, add_zero]
      cases node with
      | device device => exact congrArg Nat.cast (congrFun only.devices device)
      | sfs other =>
          have apart : other ≠ ino := fun equal => same (equal ▸ rfl)
          rw [(counts_congr (only.others other apart) (only.opened _ same)).1]
  openCount node := by
    by_cases same : node = .sfs ino
    · rw [same, Pi.single_eq_same, openCount]
    · rw [Pi.single_eq_of_ne same, add_zero]
      cases node with
      | device device => exact congrArg Nat.cast (only.opened _ same)
      | sfs other =>
          have apart : other ≠ ino := fun equal => same (equal ▸ rfl)
          rw [(counts_congr (only.others other apart) (only.opened _ same)).2]
  type other sin sin' before later positive positive' := by
    by_cases same : other = ino
    · subst same
      exact type sin sin' before later positive positive'
    · have kept := only.others other same
      rw [before, later, Option.map_some, Option.map_some] at kept
      exact congrArg (fun label => label.2.1) (Option.some.inj kept)
  sound sound := by
    refine ⟨?_, fun device => (congrFun only.devices device).symm ▸ sound.devices device⟩
    intro other sin' later
    by_cases same : other = ino
    · subst same
      rcases proper sin' later with proper | ⟨sin, before, same⟩
      · exact proper
      · exact proper_of_identity same (sound.proper other sin before)
    · have kept := only.others other same
      rw [later, Option.map_some, eq_comm, Option.map_eq_some_iff] at kept
      obtain ⟨sin, before, same⟩ := kept
      exact proper_of_identity (congrArg Prod.snd same.symm) (sound.proper other sin before)

/-- A device changes its reference count and stays referenced. -/
theorem moves_device {device : Device} {count : Nat} (alive : 0 < count) :
    Moves (Pi.single (.device device) ((count : Int) - vfs.deviceRefs device)) 0 vfs
      { vfs with deviceRefs := Function.update vfs.deviceRefs device count } where
  files := rfl
  filesCreated := rfl
  bootfs := rfl
  refCount node := by
    by_cases same : node = .device device
    · subst same
      rw [Pi.single_eq_same]
      simp only [VfsState.refCount, Function.update_self]
      omega
    · rw [Pi.single_eq_of_ne same, add_zero]
      cases node with
      | device other =>
          have apart : other ≠ device := fun equal => same (equal ▸ rfl)
          simp only [VfsState.refCount, Function.update_of_ne apart]
      | sfs ino => rfl
  openCount node := by
    rw [Pi.zero_apply, add_zero]
    cases node <;> rfl
  type _ _ _ before later _ _ := by rw [Option.some.inj (before.symm.trans later)]
  sound sound := by
    refine ⟨sound.proper, ?_⟩
    intro other
    change 0 < Function.update vfs.deviceRefs device count other
    by_cases same : other = device
    · rwa [same, Function.update_self]
    · rw [Function.update_of_ne same]
      exact sound.devices other

theorem moves_setInode {ino count : Nat} {sin : SfsInode} (loaded : vfs.sfs.inodes ino = some sin) :
    Moves (Pi.single (.sfs ino) ((count : Int) - sin.refCount)) 0 vfs
      { vfs with sfs := vfs.sfs.setInode ino { sin with refCount := count } } := by
  have here : (vfs.sfs.setInode ino { sin with refCount := count }).inodes ino =
      some { sin with refCount := count } := Function.update_self ..
  have only : OnlyInode ino vfs
      { vfs with sfs := vfs.sfs.setInode ino { sin with refCount := count } } :=
    ⟨rfl, rfl, rfl, rfl, fun _ _ => rfl, SfsFs.setInode_others⟩
  rw [← Pi.single_zero (.sfs ino : Node)]
  refine only.moves ?_ ?_ ?_ ?_
  · rw [refCount_loaded loaded, refCount_loaded here]
    change (count : Int) = sin.refCount + (count - sin.refCount)
    omega
  · rw [openCount_loaded loaded, openCount_loaded here]
    exact (add_zero _).symm
  · intro before later isBefore isLater _ _
    obtain rfl := Option.some.inj (here.symm.trans isLater)
    obtain rfl := Option.some.inj (loaded.symm.trans isBefore)
    rfl
  · intro later isLater
    obtain rfl := Option.some.inj (here.symm.trans isLater)
    exact Or.inr ⟨sin, loaded, rfl⟩

theorem run_lift_getSin {ino : Nat} {sin : SfsInode} (loaded : vfs.sfs.inodes ino = some sin) :
    liftSfs (getSin ino) vfs = .ok (.ok sin, vfs) := by
  simp only [liftSfs, getSin, Bind.bind, Program.bind, Program.read, loaded]
  rfl

/-- A reference count is set. A device stays referenced. -/
theorem meets_setRefCount {count : Nat} (alive : ∀ device, node = .device device → 0 < count) :
    Meets NotMissing (setRefCount node count) vfs fun result after => result = .ok () ∧
      Moves (Pi.single node ((count : Int) - vfs.refCount node)) 0 vfs after ∧
      ∀ ino, node = .sfs ino → ∃ sin, after.sfs.inodes ino = some sin := by
  cases node with
  | device device =>
      exact meets_modify_last ⟨rfl, moves_device (alive device rfl), fun _ same => nomatch same⟩
  | sfs ino =>
      apply meets_lift notMissing_sfs
      unfold Ensures
      cases loaded : vfs.sfs.inodes ino with
      | none => simp only [getSin, Bind.bind, Program.bind, Program.read, loaded, Program.stop]
      | some sin =>
          simp only [getSin, Bind.bind, Program.bind, Program.read, loaded, Pure.pure, Program.pure,
            setSin, Program.modify, true_and, refCount_loaded loaded]
          refine ⟨moves_setInode loaded, ?_⟩
          intro other same
          obtain rfl := Node.sfs.inj same
          exact ⟨_, Function.update_self ..⟩

theorem meets_bind_of_run {α β : Type} {stops : VfsStop → Prop} {program : VfsM α}
    {second : α → VfsM β} {change : Except Errno α → VfsState → Prop}
    {post : Except Errno β → VfsState → Prop} (first : Meets stops program vfs change)
    (rest : ∀ result after, change result after → ∃ value, result = .ok value ∧
      Meets stops (second value) after post) :
    Meets stops (program >>= second) vfs post := by
  apply meets_bind first
  · intro value after changed
    obtain ⟨found, same, met⟩ := rest _ _ changed
    exact Except.ok.inj same ▸ met
  · intro errno after changed
    obtain ⟨_, impossible, _⟩ := rest _ _ changed
    cases impossible

/-- `vop_ref_inc` -/
theorem meets_refInc :
    Meets NotMissing (inodeRefInc node) vfs fun result after =>
      result = .ok () ∧ Moves (just node) 0 vfs after := by
  apply meets_read
  apply (meets_setRefCount fun _ _ => Nat.succ_pos _).weaken fun _ => id
  rintro result after ⟨done, moves, _⟩
  refine ⟨done, moves.congr ?_ rfl⟩
  unfold just
  congr 1
  omega

/-- A lift of a function that keeps the identities, when its result does not matter. -/
theorem meets_bind_keeps {α β : Type} {program : SfsM α} {second : α → VfsM β}
    {post : Except Errno β → VfsState → Prop} (keeps : KeepsIdentities program)
    (rest : ∀ value after, Moves 0 0 vfs after → Meets NotMissing (second value) after post)
    (fails : ∀ errno after, Moves 0 0 vfs after → post (.error errno) after) :
    Meets NotMissing (liftSfs program >>= second) vfs post :=
  meets_bind (meets_keeps keeps) rest fails

/-- An inode that is neither referenced nor open is dropped. -/
theorem moves_dropped {ino : Nat} {sin : SfsInode} {sfs : SfsFs}
    (loaded : vfs.sfs.inodes ino = some sin) (unreferenced : sin.refCount = 0)
    (closed : vfs.openCounts (.sfs ino) = 0) (others : OthersSame ino vfs.sfs sfs)
    (absent : sfs.inodes ino = none) : Moves 0 0 vfs { vfs with sfs := sfs } := by
  have only : OnlyInode ino vfs { vfs with sfs := sfs } :=
    ⟨rfl, rfl, rfl, rfl, fun _ _ => rfl, others⟩
  rw [← Pi.single_zero (.sfs ino : Node)]
  refine only.moves ?_ ?_ ?_ ?_
  · rw [refCount_loaded loaded, refCount_absent absent, unreferenced]
    rfl
  · rw [openCount_loaded loaded, openCount_absent absent, closed]
    rfl
  · intro _ later _ isLater
    cases absent.symm.trans isLater
  · intro later isLater
    cases absent.symm.trans isLater

theorem meets_reclaim {ino : Nat} {sin : SfsInode} (sound : Sound vfs)
    (loaded : vfs.sfs.inodes ino = some sin) :
    Meets NotMissing (vopReclaim (.sfs ino)) vfs fun _ after => Moves 0 0 vfs after := by
  apply meets_bind_vopOp (sound.common_sfs loaded (by decide))
  apply meets_bind_run (run_lift_getSin loaded)
  have linked := (sound.proper ino sin loaded).linked
  rw [if_neg fun unlinked => linked unlinked.2.2]
  have reclaimed : Meets NotMissing (liftSfs (sfsReclaim ino)) vfs fun result after =>
      (result = .ok () → vfs.openCounts (.sfs ino) = after.openCounts (.sfs ino) ∧
        (vfs.openCounts (.sfs ino) = 0 → Moves 0 0 vfs after)) ∧
      ∀ errno, result = .error errno → Moves 0 0 vfs after := by
    apply meets_lift notMissing_sfs
    apply (ensures_reclaim_identity loaded linked).weaken id
    intro result sfs post
    cases result with
    | ok _ =>
        obtain ⟨unreferenced, others, absent⟩ := post
        exact ⟨fun _ => ⟨rfl, fun closed => moves_dropped loaded unreferenced closed others absent⟩,
          by intros; contradiction⟩
    | error _ => exact ⟨by intros; contradiction, fun _ _ => Moves.of_same post⟩
  apply meets_bind reclaimed
  · rintro _ after ⟨isOk, _⟩
    obtain ⟨same, moves⟩ := isOk rfl
    apply meets_read
    exact meets_require_last (fun closed => moves (same.trans closed)) fun _ => notMissing_other _
  · exact fun errno _ moves => moves.2 errno rfl

/-- `vop_ref_dec`. A device keeps the reference of its creation. -/
theorem meets_refDec (sound : Sound vfs)
    (alive : ∀ device, node = .device device → 1 < vfs.refCount node) :
    Meets NotMissing (inodeRefDec node) vfs fun result after =>
      result = .ok () ∧ Moves (-just node) 0 vfs after := by
  apply meets_read
  apply meets_assert
  intro referenced
  have less : ∀ device, node = .device device → 0 < vfs.refCount node - 1 := by
    intro device isDevice
    have := alive device isDevice
    omega
  apply meets_bind_of_run (meets_setRefCount less)
  rintro _ middle ⟨rfl, moves, here⟩
  refine ⟨(), rfl, ?_⟩
  have taken : Moves (-just node) 0 vfs middle := by
    refine moves.congr ?_ rfl
    rw [just, ← Pi.single_neg]
    congr 1
    omega
  split_ifs with last
  · cases node with
    | device device =>
        have := less device rfl
        omega
    | sfs ino =>
        obtain ⟨sin, loaded⟩ := here ino rfl
        apply meets_bind_attempt (meets_reclaim (taken.sound sound) loaded)
        intro _ after dropped
        exact meets_pure ⟨rfl, (taken.trans dropped (Or.inr fun _ => le_rfl)).congr (add_zero _)
          (add_zero _)⟩
  · exact meets_pure ⟨rfl, taken⟩

theorem moves_setOpenCount {count : Nat} (referenced : 0 < vfs.refCount node) :
    Moves 0 (Pi.single node ((count : Int) - vfs.openCounts node)) vfs
      (vfs.setOpenCount node count) where
  files := rfl
  filesCreated := rfl
  bootfs := rfl
  refCount other := by
    rw [Pi.zero_apply, add_zero]
    cases other <;> rfl
  openCount other := by
    by_cases same : other = node
    · subst same
      rw [Pi.single_eq_same]
      cases other with
      | device device =>
          simp only [VfsState.openCount, VfsState.setOpenCount, Function.update_self]
          omega
      | sfs ino =>
          obtain ⟨sin, loaded, _⟩ := loaded_of_refCount referenced
          simp only [VfsState.openCount, VfsState.setOpenCount, loaded, Function.update_self]
          omega
    · rw [Pi.single_eq_of_ne same, add_zero]
      cases other <;>
        simp only [VfsState.openCount, VfsState.setOpenCount, Function.update_of_ne same]
  type _ _ _ before later _ _ := by rw [Option.some.inj (before.symm.trans later)]
  sound sound := ⟨sound.proper, sound.devices⟩

/-- `vop_open_inc` -/
theorem meets_openInc (referenced : 0 < vfs.refCount node) :
    Meets NotMissing (inodeOpenInc node) vfs fun result after =>
      result = .ok () ∧ Moves 0 (just node) vfs after := by
  refine meets_modify_last ⟨rfl, (moves_setOpenCount referenced).congr rfl ?_⟩
  unfold just
  congr 1
  omega

theorem meets_fsync {ino : Nat} {sin : SfsInode} (sound : Sound vfs)
    (loaded : vfs.sfs.inodes ino = some sin) :
    Meets NotMissing (vopFsync (.sfs ino)) vfs fun _ after => Moves 0 0 vfs after :=
  meets_bind_vopOp (sound.common_sfs loaded (by decide)) (meets_keeps (KeepsViews.fsync ino))

theorem meets_close (sound : Sound vfs) (referenced : 0 < vfs.refCount node) :
    Meets NotMissing (vopClose node) vfs fun _ after => Moves 0 0 vfs after := by
  apply meets_bind_vopOp (sound.common referenced (by decide))
  cases node with
  | device device => exact meets_pure Moves.refl
  | sfs ino =>
      obtain ⟨sin, loaded, _⟩ := loaded_of_refCount referenced
      exact meets_fsync sound loaded

/-- `vop_open_dec` -/
theorem meets_openDec (sound : Sound vfs) (referenced : 0 < vfs.refCount node) :
    Meets NotMissing (inodeOpenDec node) vfs fun result after =>
      result = .ok () ∧ Moves 0 (-just node) vfs after := by
  apply meets_read
  apply meets_assert
  intro opened
  apply meets_modify
  have counted : vfs.openCount node = vfs.openCounts node := by
    cases node with
    | device device => rfl
    | sfs ino =>
        obtain ⟨sin, loaded, _⟩ := loaded_of_refCount referenced
        exact openCount_loaded loaded
  have closed : Moves 0 (-just node) vfs
      (vfs.setOpenCount node (vfs.openCounts node - 1)) := by
    refine (moves_setOpenCount referenced).congr rfl ?_
    rw [just, ← Pi.single_neg]
    congr 1
    omega
  split_ifs with last
  · have still : 0 < VfsState.refCount (vfs.setOpenCount node (vfs.openCounts node - 1)) node := by
      have := closed.refCount node
      rw [Pi.zero_apply] at this
      omega
    apply meets_bind_attempt (meets_close (closed.sound sound) still)
    intro _ after synced
    exact meets_pure ⟨rfl, (closed.trans synced (Or.inr fun _ => le_rfl)).congr (add_zero _)
      (add_zero _)⟩
  · exact meets_pure ⟨rfl, closed⟩

end UCore.Vfs
