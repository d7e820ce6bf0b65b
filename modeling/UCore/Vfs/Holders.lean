import UCore.Lib.Tally
import UCore.Vfs.File
import UCore.Vfs.PathCounts

/-!
Contract: who holds the inodes, and the counts as the number of their holders.

Owns:
- the slots of files arrays, the working directories and the boot file system as holders;
- `Balanced`: every slot is free or open, and the counts of each inode are those of its holders
  but for the references that were lost;
- how the holders follow a change of one slot, of a working directory or of the boot file system.

Does not own: the functions that make these changes.
-/

set_option autoImplicit false

namespace UCore.Vfs

open UCore.Lib UCore.Lib.Program UCore.Fs

variable {vfs after : VfsState} {node : Node} {refs opens lost : Node → Int} {filesp fd : Nat}
  {files : Files} {file : File}

/-! ## Holders -/

/-- The inode that an entry holds while it is open. -/
def File.held (file : File) : Option Node := if file.status = .opened then file.node else none

/-- The inode in a slot, an index into the files array of a files structure. -/
def openNode (vfs : VfsState) (slot : Nat × Nat) : Option Node :=
  (vfs.files slot.1).bind fun files => (files.fdArray slot.2).held

def pwdNode (vfs : VfsState) (filesp : Nat) : Option Node := (vfs.files filesp).bind Files.pwd

def slots (vfs : VfsState) : Finset (Nat × Nat) :=
  Finset.range vfs.filesCreated ×ˢ Finset.range filesStructNentry

def isNode (node : Node) (held : Option Node) : Bool := decide (held = some node)

/-- The number of open slots that hold an inode. -/
def openSlots (vfs : VfsState) (node : Node) : Int := tally (slots vfs) (openNode vfs) (isNode node)

def workingDirs (vfs : VfsState) (node : Node) : Int :=
  tally (Finset.range vfs.filesCreated) (pwdNode vfs) (isNode node)

/-- The reference that a device keeps from its creation. -/
def creation : Node → Int
  | .device _ => 1
  | .sfs _ => 0

def holders (vfs : VfsState) (node : Node) : Int :=
  openSlots vfs node + workingDirs vfs node + share (isNode node) vfs.bootfs + creation node

/-- An entry between calls. -/
def File.Settled (file : File) : Prop :=
  file.status = .none ∧ file.openCount = 0 ∨
    file.status = .opened ∧ file.openCount = 1 ∧ file.node ≠ none

/-- Every entry is free or open, and the counts are those of the holders, but for the references
that were `lost`. -/
structure Balanced (lost : Node → Int) (vfs : VfsState) : Prop where
  sound : Sound vfs
  created : ∀ filesp files, vfs.files filesp = some files → filesp < vfs.filesCreated
  settled : ∀ filesp files fd, vfs.files filesp = some files → (files.fdArray fd).Settled
  refCount : ∀ node, (vfs.refCount node : Int) = holders vfs node + lost node
  openCount : ∀ node, (vfs.openCount node : Int) = openSlots vfs node
  covered : ∀ node, 0 ≤ workingDirs vfs node + lost node
  devices : ∀ device, 0 ≤ lost (.device device)

theorem share_isNode (held : Option Node) :
    share (isNode node) held = match held with
      | none => 0
      | some other => just other node := by
  unfold share isNode
  cases held with
  | none => rfl
  | some other =>
      simp only [Option.some.injEq, decide_eq_true_eq]
      by_cases same : other = node
      · rw [if_pos same, same, just_self]
      · rw [if_neg same, just_of_ne (Ne.symm same)]

theorem share_nonneg (node : Node) (held : Option Node) : 0 ≤ share (isNode node) held := by
  unfold share
  split_ifs <;> decide

theorem creation_nonneg (node : Node) : 0 ≤ creation node := by
  cases node with
  | device _ => exact Int.one_nonneg
  | sfs _ => exact le_rfl

/-! ## One slot -/

/-- The state with another entry in a slot. -/
def VfsState.setFile (vfs : VfsState) (filesp : Nat) (files : Files) (fd : Nat) (file : File) :
    VfsState :=
  vfs.setFiles filesp { files with fdArray := Function.update files.fdArray fd file }

theorem files_setFiles : (vfs.setFiles filesp files).files filesp = some files :=
  Function.update_self ..

theorem files_setFiles_of_ne {other : Nat} (apart : other ≠ filesp) :
    (vfs.setFiles filesp files).files other = vfs.files other :=
  Function.update_of_ne apart _ _

theorem openNode_setFile (found : vfs.files filesp = some files) :
    openNode (vfs.setFile filesp files fd file) =
      Function.update (openNode vfs) (filesp, fd) file.held := by
  funext ⟨other, entry⟩
  by_cases same : other = filesp
  · subst same
    rw [openNode, VfsState.setFile, files_setFiles, Option.bind_some]
    by_cases isFd : entry = fd
    · simp only [isFd, Function.update_self]
    · rw [Function.update_of_ne fun equal => isFd (congrArg Prod.snd equal), openNode, found,
        Option.bind_some]
      simp only [Function.update_of_ne isFd]
  · rw [Function.update_of_ne fun equal => same (congrArg Prod.fst equal), openNode, openNode,
      VfsState.setFile, files_setFiles_of_ne same]

theorem pwdNode_setFiles : pwdNode (vfs.setFiles filesp files) =
    Function.update (pwdNode vfs) filesp files.pwd := by
  funext other
  by_cases same : other = filesp
  · subst same
    rw [Function.update_self, pwdNode, files_setFiles, Option.bind_some]
  · rw [Function.update_of_ne same, pwdNode, pwdNode, files_setFiles_of_ne same]

theorem pwdNode_setFile (found : vfs.files filesp = some files) :
    pwdNode (vfs.setFile filesp files fd file) = pwdNode vfs := by
  have same : pwdNode vfs filesp = files.pwd := by rw [pwdNode, found, Option.bind_some]
  rw [VfsState.setFile, pwdNode_setFiles, ← same, Function.update_eq_self]

theorem mem_slots (created : filesp < vfs.filesCreated) (inside : fd < filesStructNentry) :
    (filesp, fd) ∈ slots vfs :=
  Finset.mem_product.mpr ⟨Finset.mem_range.mpr created, Finset.mem_range.mpr inside⟩

theorem openNode_of_found (found : vfs.files filesp = some files) :
    openNode vfs (filesp, fd) = (files.fdArray fd).held := by
  rw [openNode, found, Option.bind_some]

/-- The holders depend on the files structures and the boot file system only. -/
theorem Moves.openNode (moves : Moves refs opens vfs after) : openNode after = openNode vfs := by
  funext slot
  rw [Vfs.openNode, Vfs.openNode, moves.files]

theorem Moves.pwdNode (moves : Moves refs opens vfs after) : pwdNode after = pwdNode vfs := by
  funext filesp
  rw [Vfs.pwdNode, Vfs.pwdNode, moves.files]

theorem Moves.openSlots (moves : Moves refs opens vfs after) (node : Node) :
    openSlots after node = openSlots vfs node := by
  rw [Vfs.openSlots, Vfs.openSlots, slots, slots, moves.openNode, moves.filesCreated]

theorem Moves.workingDirs (moves : Moves refs opens vfs after) (node : Node) :
    workingDirs after node = workingDirs vfs node := by
  rw [Vfs.workingDirs, Vfs.workingDirs, moves.pwdNode, moves.filesCreated]

theorem Moves.holders (moves : Moves refs opens vfs after) (node : Node) :
    holders after node = holders vfs node := by
  rw [Vfs.holders, Vfs.holders, moves.openSlots, moves.workingDirs, moves.bootfs]

namespace Balanced

/-- Somebody loses references. -/
theorem moves {lost' : Node → Int} (balanced : Balanced lost vfs) (moves : Moves refs 0 vfs after)
    (account : ∀ node, lost' node = lost node + refs node)
    (covered : ∀ node, 0 ≤ workingDirs vfs node + lost' node)
    (devices : ∀ device, 0 ≤ lost' (.device device)) : Balanced lost' after where
  sound := moves.sound balanced.sound
  created filesp files found := by
    rw [moves.filesCreated]
    exact balanced.created filesp files (moves.files ▸ found)
  settled filesp files fd found := balanced.settled filesp files fd (moves.files ▸ found)
  refCount node := by
    rw [moves.refCount, moves.holders, balanced.refCount, account, add_assoc]
  openCount node := by
    rw [moves.openCount, moves.openSlots, balanced.openCount, Pi.zero_apply, add_zero]
  covered node := by
    rw [moves.workingDirs]
    exact covered node
  devices := devices

theorem keep (balanced : Balanced lost vfs) (moves : Moves 0 0 vfs after) : Balanced lost after :=
  balanced.moves moves (fun _ => (add_zero _).symm) balanced.covered balanced.devices

/-- An inode in an open slot is referenced. -/
theorem referenced (balanced : Balanced lost vfs) (created : filesp < vfs.filesCreated)
    (inside : fd < filesStructNentry) (held : openNode vfs (filesp, fd) = some node) :
    0 < vfs.refCount node ∧ ∀ device, node = .device device → 1 < vfs.refCount node := by
  have counted := balanced.refCount node
  unfold holders at counted
  have covered := balanced.covered node
  have boot := share_nonneg node vfs.bootfs
  have made := creation_nonneg node
  have mine : 0 < openSlots vfs node := by
    unfold openSlots tally
    apply Int.natCast_pos.mpr
    apply Finset.card_pos.mpr
    refine ⟨(filesp, fd), Finset.mem_filter.mpr ⟨mem_slots created inside, ?_⟩⟩
    exact decide_eq_true held
  refine ⟨by omega, ?_⟩
  rintro device rfl
  have one : creation (.device device) = 1 := rfl
  omega

/-- The tables of files change, and the counts follow their holders. -/
theorem tables {created : Nat} {table : Nat → Option Files} {lost' : Node → Int}
    (balanced : Balanced lost vfs)
    (moves : Moves refs opens { vfs with files := table, filesCreated := created } after)
    (within : ∀ filesp files, table filesp = some files → filesp < created)
    (settled : ∀ filesp files fd, table filesp = some files → (files.fdArray fd).Settled)
    (refCount : ∀ node, holders { vfs with files := table, filesCreated := created } node +
      lost' node = holders vfs node + lost node + refs node)
    (openCount : ∀ node, openSlots { vfs with files := table, filesCreated := created } node =
      openSlots vfs node + opens node)
    (covered : ∀ node, 0 ≤ workingDirs { vfs with files := table, filesCreated := created } node +
      lost' node)
    (devices : ∀ device, 0 ≤ lost' (.device device)) : Balanced lost' after where
  sound := moves.sound ⟨balanced.sound.proper, balanced.sound.devices⟩
  created filesp files found := by
    rw [moves.filesCreated]
    rw [moves.files] at found
    exact within filesp files found
  settled filesp files fd found := by
    rw [moves.files] at found
    exact settled filesp files fd found
  refCount node := by
    have same : VfsState.refCount { vfs with files := table, filesCreated := created } node =
        vfs.refCount node := by cases node <;> rfl
    rw [moves.refCount, moves.holders, refCount, same, balanced.refCount]
  openCount node := by
    have same : VfsState.openCount { vfs with files := table, filesCreated := created } node =
        vfs.openCount node := by cases node <;> rfl
    rw [moves.openCount, moves.openSlots, openCount, same, balanced.openCount]
  covered node := by
    rw [moves.workingDirs]
    exact covered node
  devices := devices

/-- One slot changes, with the references that its entry holds. -/
theorem setSlot {extra lost' : Node → Int} (balanced : Balanced lost vfs)
    (found : vfs.files filesp = some files) (inside : fd < filesStructNentry)
    (settled : file.Settled)
    (moves : Moves refs opens (vfs.setFile filesp files fd file) after)
    (refs_eq : ∀ node, refs node = share (isNode node) file.held -
      share (isNode node) (files.fdArray fd).held + extra node)
    (opens_eq : ∀ node, opens node = share (isNode node) file.held -
      share (isNode node) (files.fdArray fd).held)
    (account : ∀ node, lost' node = lost node + extra node) (nonneg : ∀ node, 0 ≤ extra node) :
    Balanced lost' after := by
  have created := balanced.created filesp files found
  have open' : ∀ node, openSlots (vfs.setFile filesp files fd file) node = openSlots vfs node -
      share (isNode node) (files.fdArray fd).held + share (isNode node) file.held := by
    intro node
    have changed := @tally_update _ _ (slots vfs) (openNode vfs) (isNode node) (filesp, fd)
      file.held _ (mem_slots created inside)
    rw [openNode_of_found found] at changed
    rw [openSlots, openNode_setFile found]
    exact changed
  have pwd' : ∀ node, workingDirs (vfs.setFile filesp files fd file) node =
      workingDirs vfs node := by
    intro node
    rw [workingDirs, pwdNode_setFile found]
    rfl
  apply balanced.tables moves
  · intro other others isOther
    by_cases same : other = filesp
    · exact same ▸ created
    · rw [Function.update_of_ne same] at isOther
      exact balanced.created other others isOther
  · intro other others entry isOther
    by_cases same : other = filesp
    · subst same
      rw [Function.update_self] at isOther
      obtain rfl := Option.some.inj isOther
      by_cases isFd : entry = fd
      · simp only [isFd, Function.update_self]
        exact settled
      · simp only [Function.update_of_ne isFd]
        exact balanced.settled other files entry found
    · rw [Function.update_of_ne same] at isOther
      exact balanced.settled other others entry isOther
  · intro node
    change holders (vfs.setFile filesp files fd file) node + lost' node = _
    unfold holders
    rw [open', pwd', refs_eq, account]
    change _ + _ + share (isNode node) vfs.bootfs + _ + _ = _
    omega
  · intro node
    change openSlots (vfs.setFile filesp files fd file) node = _
    rw [open', opens_eq]
    omega
  · intro node
    change 0 ≤ workingDirs (vfs.setFile filesp files fd file) node + _
    rw [pwd', account]
    have := balanced.covered node
    have := nonneg node
    omega
  · intro device
    rw [account]
    have := balanced.devices device
    have := nonneg (.device device)
    omega

/-- The structure of a process changes but for its entries, its working directory among it. -/
theorem setPwd {lost' : Node → Int} {pwd : Option Node} {count : Nat} (balanced : Balanced lost vfs)
    (found : vfs.files filesp = some files)
    (moves : Moves refs 0
      (vfs.setFiles filesp { files with pwd := pwd, filesCount := count }) after)
    (account : ∀ node, share (isNode node) pwd - share (isNode node) files.pwd + lost' node =
      lost node + refs node)
    (covered : ∀ node, 0 ≤ workingDirs vfs node + lost node + refs node)
    (devices : ∀ device, 0 ≤ lost' (.device device)) : Balanced lost' after := by
  have created := balanced.created filesp files found
  have open' : openNode (vfs.setFiles filesp { files with pwd := pwd, filesCount := count }) =
      openNode vfs := by
    funext ⟨other, entry⟩
    by_cases same : other = filesp
    · subst same
      rw [openNode, openNode, files_setFiles, found, Option.bind_some, Option.bind_some]
    · rw [openNode, openNode, files_setFiles_of_ne same]
  have openSlots' : ∀ node, openSlots
      (vfs.setFiles filesp { files with pwd := pwd, filesCount := count }) node =
        openSlots vfs node := by
    intro node
    rw [openSlots, open']
    rfl
  have pwd' : ∀ node, workingDirs
      (vfs.setFiles filesp { files with pwd := pwd, filesCount := count }) node =
        workingDirs vfs node - share (isNode node) files.pwd + share (isNode node) pwd := by
    intro node
    have changed := @tally_update _ _ (Finset.range vfs.filesCreated) (pwdNode vfs) (isNode node)
      filesp pwd _ (Finset.mem_range.mpr created)
    have old : pwdNode vfs filesp = files.pwd := by rw [pwdNode, found, Option.bind_some]
    rw [old] at changed
    rw [workingDirs, pwdNode_setFiles]
    exact changed
  apply balanced.tables moves
  · intro other others isOther
    by_cases same : other = filesp
    · exact same ▸ created
    · rw [Function.update_of_ne same] at isOther
      exact balanced.created other others isOther
  · intro other others entry isOther
    by_cases same : other = filesp
    · subst same
      rw [Function.update_self] at isOther
      obtain rfl := Option.some.inj isOther
      exact balanced.settled other files entry found
    · rw [Function.update_of_ne same] at isOther
      exact balanced.settled other others entry isOther
  · intro node
    change holders (vfs.setFiles filesp { files with pwd := pwd, filesCount := count }) node + _ = _
    have := account node
    unfold holders
    rw [openSlots', pwd']
    change _ + _ + share (isNode node) vfs.bootfs + _ + _ = _
    omega
  · intro node
    change openSlots (vfs.setFiles filesp { files with pwd := pwd, filesCount := count }) node = _
    rw [openSlots', Pi.zero_apply, add_zero]
  · intro node
    change 0 ≤ workingDirs
      (vfs.setFiles filesp { files with pwd := pwd, filesCount := count }) node + _
    have := account node
    have := covered node
    rw [pwd']
    omega
  · exact devices

/-- A files structure is freed that has no open entry. -/
theorem drop {lost' : Node → Int} (balanced : Balanced lost vfs)
    (found : vfs.files filesp = some files)
    (free : ∀ fd, fd < filesStructNentry → (files.fdArray fd).status ≠ .opened)
    (account : ∀ node, lost' node = lost node + share (isNode node) files.pwd)
    (devices : ∀ device, 0 ≤ lost' (.device device)) :
    Balanced lost' { vfs with files := Function.update vfs.files filesp none } := by
  have created := balanced.created filesp files found
  have open' : ∀ slot ∈ slots vfs, openNode
      { vfs with files := Function.update vfs.files filesp none } slot = openNode vfs slot := by
    rintro ⟨other, entry⟩ inside
    by_cases same : other = filesp
    · subst same
      have isEntry := Finset.mem_range.mp (Finset.mem_product.mp inside).2
      rw [openNode_of_found found, File.held, if_neg (free entry isEntry)]
      simp only [openNode, Function.update_self, Option.bind_none]
    · simp only [openNode, Function.update_of_ne same]
  have pwd' : ∀ node, workingDirs { vfs with files := Function.update vfs.files filesp none } node =
      workingDirs vfs node - share (isNode node) files.pwd := by
    intro node
    have changed := @tally_update _ _ (Finset.range vfs.filesCreated) (pwdNode vfs) (isNode node)
      filesp none _ (Finset.mem_range.mpr created)
    have old : pwdNode vfs filesp = files.pwd := by rw [pwdNode, found, Option.bind_some]
    have now : pwdNode { vfs with files := Function.update vfs.files filesp none } =
        Function.update (pwdNode vfs) filesp none := by
      funext other
      by_cases same : other = filesp
      · subst same
        simp only [pwdNode, Function.update_self, Option.bind_none]
      · simp only [pwdNode, Function.update_of_ne same]
    rw [old] at changed
    rw [workingDirs, now]
    exact changed.trans (add_zero _)
  have openSlots' : ∀ node, openSlots
      { vfs with files := Function.update vfs.files filesp none } node = openSlots vfs node := by
    intro node
    exact tally_eq_of_mem fun slot inside => congrArg (isNode node) (open' slot inside)
  have remains : ∀ {other : Nat} {others : Files},
      Function.update vfs.files filesp none other = some others → vfs.files other = some others := by
    intro other others isOther
    by_cases same : other = filesp
    · rw [same, Function.update_self] at isOther
      cases isOther
    · rwa [Function.update_of_ne same] at isOther
  apply balanced.tables (@Moves.refl
    { vfs with files := Function.update vfs.files filesp none, filesCreated := vfs.filesCreated })
  · exact fun other others isOther => balanced.created other others (remains isOther)
  · exact fun other others entry isOther => balanced.settled other others entry (remains isOther)
  · intro node
    unfold holders
    rw [openSlots', pwd', account, Pi.zero_apply]
    change _ + _ + share (isNode node) vfs.bootfs + _ + _ = _
    omega
  · intro node
    rw [openSlots', Pi.zero_apply, add_zero]
  · intro node
    have := balanced.covered node
    rw [pwd', account]
    omega
  · exact devices

/-- A files structure is created, without open entries and a working directory. -/
theorem create {count : Nat} (balanced : Balanced lost vfs) :
    Balanced lost { vfs.setFiles vfs.filesCreated ⟨none, count, fun _ => File.initial⟩ with
      filesCreated := vfs.filesCreated + 1 } := by
  have fresh : vfs.files vfs.filesCreated = none := by
    cases found : vfs.files vfs.filesCreated with
    | none => rfl
    | some files => exact absurd (balanced.created _ _ found) (Nat.lt_irrefl _)
  have older : ∀ {other : Nat} {others : Files}, Function.update vfs.files vfs.filesCreated
      (some ⟨none, count, fun _ => File.initial⟩) other = some others →
      other = vfs.filesCreated ∧ others = ⟨none, count, fun _ => File.initial⟩ ∨
        vfs.files other = some others := by
    intro other others isOther
    by_cases same : other = vfs.filesCreated
    · rw [same, Function.update_self] at isOther
      exact Or.inl ⟨same, (Option.some.inj isOther).symm⟩
    · rw [Function.update_of_ne same] at isOther
      exact Or.inr isOther
  have open' : openNode { vfs.setFiles vfs.filesCreated ⟨none, count, fun _ => File.initial⟩ with
      filesCreated := vfs.filesCreated + 1 } = openNode vfs := by
    funext ⟨other, entry⟩
    by_cases same : other = vfs.filesCreated
    · subst same
      simp only [openNode, VfsState.setFiles, Function.update_self, Option.bind_some, fresh,
        Option.bind_none]
      rfl
    · simp only [openNode, VfsState.setFiles, Function.update_of_ne same]
  have pwd' : pwdNode { vfs.setFiles vfs.filesCreated ⟨none, count, fun _ => File.initial⟩ with
      filesCreated := vfs.filesCreated + 1 } = pwdNode vfs := by
    funext other
    by_cases same : other = vfs.filesCreated
    · subst same
      simp only [pwdNode, VfsState.setFiles, Function.update_self, Option.bind_some, fresh,
        Option.bind_none]
    · simp only [pwdNode, VfsState.setFiles, Function.update_of_ne same]
  have beyond : ∀ {other : Nat}, ¬ other < vfs.filesCreated → other < vfs.filesCreated + 1 →
      other = vfs.filesCreated := fun outside inside => by omega
  have openSlots' : ∀ node, openSlots
      { vfs.setFiles vfs.filesCreated ⟨none, count, fun _ => File.initial⟩ with
        filesCreated := vfs.filesCreated + 1 } node = openSlots vfs node := by
    intro node
    rw [openSlots, open']
    apply tally_extend
    · exact Finset.product_subset_product_left (Finset.range_subset_range.mpr (Nat.le_succ _))
    · rintro ⟨other, entry⟩ inside outside
      have isEntry := (Finset.mem_product.mp inside).2
      have isLast := beyond (fun earlier => outside (Finset.mem_product.mpr
        ⟨Finset.mem_range.mpr earlier, isEntry⟩)) (Finset.mem_range.mp (Finset.mem_product.mp inside).1)
      change other = vfs.filesCreated at isLast
      simp only [openNode, isLast, fresh, Option.bind_none, isNode]
      rfl
  have workingDirs' : ∀ node, workingDirs
      { vfs.setFiles vfs.filesCreated ⟨none, count, fun _ => File.initial⟩ with
        filesCreated := vfs.filesCreated + 1 } node = workingDirs vfs node := by
    intro node
    rw [workingDirs, pwd']
    apply tally_extend
    · exact Finset.range_subset_range.mpr (Nat.le_succ _)
    · intro other inside outside
      have isLast := beyond (fun earlier => outside (Finset.mem_range.mpr earlier))
        (Finset.mem_range.mp inside)
      simp only [pwdNode, isLast, fresh, Option.bind_none, isNode]
      rfl
  apply balanced.tables (@Moves.refl { vfs with
    files := Function.update vfs.files vfs.filesCreated (some ⟨none, count, fun _ => File.initial⟩)
    filesCreated := vfs.filesCreated + 1 })
  · intro other others isOther
    rcases older isOther with ⟨same, _⟩ | before
    · omega
    · exact Nat.lt_succ_of_lt (balanced.created other others before)
  · intro other others entry isOther
    rcases older isOther with ⟨_, rfl⟩ | before
    · exact Or.inl ⟨rfl, rfl⟩
    · exact balanced.settled other others entry before
  · intro node
    change holders { vfs.setFiles vfs.filesCreated ⟨none, count, fun _ => File.initial⟩ with
      filesCreated := vfs.filesCreated + 1 } node + _ = _
    unfold holders
    rw [openSlots', workingDirs', Pi.zero_apply]
    exact (add_zero _).symm
  · intro node
    change openSlots { vfs.setFiles vfs.filesCreated ⟨none, count, fun _ => File.initial⟩ with
      filesCreated := vfs.filesCreated + 1 } node = _
    rw [openSlots', Pi.zero_apply, add_zero]
  · intro node
    change 0 ≤ workingDirs { vfs.setFiles vfs.filesCreated ⟨none, count, fun _ => File.initial⟩ with
      filesCreated := vfs.filesCreated + 1 } node + _
    rw [workingDirs']
    exact balanced.covered node
  · exact balanced.devices

/-- The boot file system takes over a reference that nobody held. -/
theorem setBootfs {lost' : Node → Int} (balanced : Balanced lost vfs) (unset : vfs.bootfs = none)
    (account : ∀ other, lost other = just node other + lost' other)
    (nonneg : ∀ other, 0 ≤ lost' other) : Balanced lost' { vfs with bootfs := some node } where
  sound := ⟨balanced.sound.proper, balanced.sound.devices⟩
  created := balanced.created
  settled := balanced.settled
  refCount other := by
    have counted := balanced.refCount other
    have same : VfsState.refCount { vfs with bootfs := some node } other = vfs.refCount other := by
      cases other <;> rfl
    unfold holders at counted ⊢
    rw [unset, account] at counted
    rw [same, counted, share_isNode, share_isNode]
    change _ + _ + 0 + _ + _ = openSlots vfs other + workingDirs vfs other + just node other + _ + _
    omega
  openCount other := by
    have same : VfsState.openCount { vfs with bootfs := some node } other = vfs.openCount other := by
      cases other <;> rfl
    rw [same]
    exact balanced.openCount other
  covered other := by
    have : 0 ≤ workingDirs { vfs with bootfs := some node } other := tally_nonneg
    have := nonneg other
    omega
  devices device := nonneg _

end Balanced

end UCore.Vfs
