import UCore.Vfs.FileCounts

/-!
Contract: what creating, duplicating and destroying files structures does to the counts and the
slots, and what a change of the working directory does.

Owns:
- `fd_array_dup` and the loops over the entries of a files array;
- `Balanced` after `file_dup`, `files_closeall`, `files_destroy`, `copy_files`, `put_files` and
  `vfs_chdir`.

Does not own: runs of calls.
-/

set_option autoImplicit false

namespace UCore.Vfs

open UCore.Lib UCore.Lib.Program UCore.Fs

variable {vfs after state : VfsState} {node : Node} {refs opens lost : Node → Int}
  {filesp target fd : Nat} {files : Files} {file : File} {path : Path} {stops : VfsStop → Prop}

/-- Other tables of files on both sides. -/
theorem Moves.tables {table : Nat → Option Files} (moves : Moves refs opens vfs after) :
    Moves refs opens { vfs with files := table } { after with files := table } where
  files := rfl
  filesCreated := moves.filesCreated
  bootfs := moves.bootfs
  refCount node := by
    have counted := moves.refCount node
    cases node <;> exact counted
  openCount node := by
    have counted := moves.openCount node
    cases node <;> exact counted
  type := moves.type
  sound sound := by
    have kept := moves.sound ⟨sound.proper, sound.devices⟩
    exact ⟨kept.proper, kept.devices⟩

/-! ## Duplicating an entry -/

/-- An entry that duplicates `file`. -/
def File.duplicate (file : File) : File where
  status := .opened
  readable := file.readable
  writable := file.writable
  pos := file.pos
  node := file.node
  openCount := 1

/-- `fd_array_dup` into a fresh entry. -/
theorem meets_fdArrayDup {targetFiles : Files} {targetFile : File} {targetFd : Nat}
    (foundTarget : vfs.files target = some targetFiles)
    (targetEntry : targetFiles.fdArray targetFd = targetFile) (init : targetFile.status = .init)
    (unused : targetFile.openCount = 0) (found : vfs.files filesp = some files)
    (entry : files.fdArray fd = file) (isOpen : file.status = .opened)
    (held : file.node = some node) :
    Meets NotMissing (fdArrayDup target targetFd filesp fd) vfs fun result after =>
      result = .ok () ∧ Moves (just node) (just node)
        (vfs.setFile target targetFiles targetFd file.duplicate) after := by
  subst targetEntry
  subst entry
  apply meets_bind_run (run_getFile foundTarget)
  apply meets_bind_run (run_getFile found)
  apply meets_bind_run (run_assert ⟨init, isOpen⟩)
  apply meets_bind_run (run_fileNode held)
  apply meets_bind_of_run meets_refInc
  rintro _ taken ⟨rfl, counted⟩
  refine ⟨(), rfl, ?_⟩
  have referenced : 0 < taken.refCount node := by
    have now := counted.refCount node
    rw [just_self] at now
    omega
  apply meets_bind_of_run (meets_openInc referenced)
  rintro _ opened ⟨rfl, counted'⟩
  refine ⟨(), rfl, ?_⟩
  have both : Moves (just node) (just node) vfs opened :=
    (counted.trans counted' (Or.inl (just_nonneg node))).congr (add_zero _) (zero_add _)
  have here : opened.files target = some targetFiles := by rw [both.files, foundTarget]
  apply meets_bind_run (run_setFile here)
  apply meets_of_run (run_fdArrayOpen setFile_found Files.setFile_self (by exact init)
    (by exact Option.some_ne_none node))
  rw [setFile_setFile]
  refine ⟨rfl, ?_⟩
  have final : Moves (just node) (just node)
      (vfs.setFile target targetFiles targetFd (files.fdArray fd).duplicate)
      (opened.setFile target targetFiles targetFd (files.fdArray fd).duplicate) := both.setFiles
  have same : (files.fdArray fd).duplicate = { targetFiles.fdArray targetFd with
      status := .opened
      readable := (files.fdArray fd).readable
      writable := (files.fdArray fd).writable
      pos := (files.fdArray fd).pos
      node := some node
      openCount := (targetFiles.fdArray targetFd).openCount + 1 } := by
    rw [unused, ← held]
    rfl
  rwa [same] at final ⊢

/-! ## Loops over the entries -/

/-- An invariant of the loops over the entries. -/
theorem meets_eachFile {operation : Nat → VfsM Unit} {Inv : Nat → VfsState → Prop} {left : Nat}
    (start : Inv fd vfs)
    (body : ∀ entry state, fd ≤ entry → entry < fd + left → Inv entry state →
      Meets stops (operation entry) state fun result after => result = .ok () ∧ Inv (entry + 1) after) :
    Meets stops (eachFile operation fd left) vfs fun result after =>
      result = .ok () ∧ Inv (fd + left) after := by
  induction left generalizing fd vfs with
  | zero => exact meets_pure ⟨rfl, start⟩
  | succ left inductionHypothesis =>
      apply meets_bind_of_run (body fd vfs le_rfl (by omega) start)
      rintro _ state ⟨rfl, next⟩
      refine ⟨(), rfl, ?_⟩
      have rest := inductionHypothesis next fun entry state from' within =>
        body entry state (by omega) (by omega)
      rwa [Nat.succ_add_eq_add_succ] at rest

/-- The entries from `first` on and before `last` were closed. -/
structure ClosedFrom (files files' : Files) (first last : Nat) : Prop where
  pwd : files'.pwd = files.pwd
  filesCount : files'.filesCount = files.filesCount
  closed : ∀ entry, first ≤ entry → entry < last → (files'.fdArray entry).status = .none
  others : ∀ entry, ¬ (first ≤ entry ∧ entry < last) → files'.fdArray entry = files.fdArray entry

/-- What closing these entries leaves. -/
def Closes (lost : Node → Int) (vfs : VfsState) (filesp : Nat) (files : Files) (first last : Nat)
    (after : VfsState) : Prop :=
  ∃ files' refs opens, ClosedFrom files files' first last ∧ (∀ node, refs node ≤ 0) ∧
    Moves refs opens (vfs.setFiles filesp files') after ∧ Balanced lost after

theorem meets_closeOpened {first : Nat} (inside : fd < filesStructNentry) (from' : first ≤ fd)
    (closes : Closes lost vfs filesp files first fd state) :
    Meets NotMissing (closeOpened filesp fd) state fun result after =>
      result = .ok () ∧ Closes lost vfs filesp files first (fd + 1) after := by
  obtain ⟨files', refs, opens, closed, released, moves, balanced⟩ := closes
  have found : state.files filesp = some files' := by
    rw [moves.files]
    exact files_setFiles
  apply meets_bind_run (run_getFile found)
  split_ifs with isOpen
  · obtain ⟨node, opened⟩ := balanced.openEntry found inside isOpen
    apply (meets_fdArrayClose found rfl isOpen opened.once opened.held balanced.sound opened.alive
      opened.referenced).withRun.weaken fun _ => id
    rintro result after ⟨ran, rfl, moves'⟩
    have balanced' := (balanced.closed found inside isOpen).of_ok ran
    refine ⟨rfl, files'.setFile fd { files'.fdArray fd with status := .none, openCount := 0 },
      refs + -just node, opens + -just node, ⟨closed.pwd, closed.filesCount, ?_, ?_⟩, ?_, ?_,
      balanced'.2.1⟩
    · intro entry from'' within
      by_cases same : entry = fd
      · rw [same, Files.setFile_self]
      · simp only [Files.setFile, Function.update_of_ne same]
        exact closed.closed entry from'' (by omega)
    · intro entry outside
      have apart : entry ≠ fd := by omega
      simp only [Files.setFile, Function.update_of_ne apart]
      exact closed.others entry (by omega)
    · intro other
      have := released other
      have := just_nonneg node other
      rw [Pi.add_apply, Pi.neg_apply]
      omega
    · have onTables := @Moves.setFiles _ _ _ _ filesp
        (files'.setFile fd { files'.fdArray fd with status := .none, openCount := 0 }) moves
      have same : (vfs.setFiles filesp files').setFiles filesp
          (files'.setFile fd { files'.fdArray fd with status := .none, openCount := 0 }) =
            vfs.setFiles filesp
              (files'.setFile fd { files'.fdArray fd with status := .none, openCount := 0 }) := by
        simp only [VfsState.setFiles, Function.update_idem]
      rw [same] at onTables
      refine onTables.trans moves' (Or.inr fun other => ?_)
      have := just_nonneg node other
      rw [Pi.neg_apply]
      omega
  · have free : (files'.fdArray fd).status = .none := by
      rcases balanced.settled filesp files' fd found with settled | settled
      · exact settled.1
      · exact absurd settled.1 isOpen
    refine meets_pure ⟨rfl, files', refs, opens, ⟨closed.pwd, closed.filesCount, ?_, ?_⟩, released,
      moves, balanced⟩
    · intro entry from'' within
      by_cases same : entry = fd
      · rw [same, free]
      · exact closed.closed entry from'' (by omega)
    · exact fun entry outside => closed.others entry (by omega)

theorem Balanced.closes_none {first : Nat} (balanced : Balanced lost vfs)
    (found : vfs.files filesp = some files) : Closes lost vfs filesp files first first vfs := by
  refine ⟨files, 0, 0, ⟨rfl, rfl, fun entry from' within => ?_, fun _ _ => rfl⟩, fun _ => le_rfl, ?_,
    balanced⟩
  · omega
  · have same : vfs.setFiles filesp files = vfs := by
      have table : Function.update vfs.files filesp (some files) = vfs.files := by
        rw [← found, Function.update_eq_self]
      simp only [VfsState.setFiles, table]
    rw [same]
    exact Moves.refl

/-- `files_closeall` -/
theorem Balanced.meets_filesCloseall (balanced : Balanced lost vfs) :
    Meets NotMissing (filesCloseall filesp) vfs fun result after => result = .ok () ∧
      ∃ files, vfs.files filesp = some files ∧
        Closes lost vfs filesp files 2 filesStructNentry after := by
  apply meets_bind_getFiles notMissing_plain
  intro files found
  apply meets_assert
  intro _
  have all := @meets_eachFile vfs 2 NotMissing (closeOpened filesp)
    (fun entry state => Closes lost vfs filesp files 2 entry state) (filesStructNentry - 2)
    (balanced.closes_none found) fun entry state from' within closes =>
      meets_closeOpened within from' closes
  apply all.weaken fun _ => id
  rintro result after ⟨rfl, closes⟩
  exact ⟨rfl, files, found, closes⟩

/-! ## Destroying and creating structures -/

theorem share_some (node other : Node) : share (isNode other) (some node) = just node other :=
  share_isNode _

theorem share_none (node : Node) : share (isNode node) none = 0 := rfl

/-- The working directory of a process counts. -/
theorem workingDirs_pos (balanced : Balanced lost vfs) (found : vfs.files filesp = some files)
    (isPwd : files.pwd = some node) : 0 < workingDirs vfs node := by
  unfold workingDirs tally
  apply Int.natCast_pos.mpr
  apply Finset.card_pos.mpr
  refine ⟨filesp, Finset.mem_filter.mpr
    ⟨Finset.mem_range.mpr (balanced.created filesp files found), decide_eq_true ?_⟩⟩
  rw [pwdNode, found, Option.bind_some, isPwd]

/-- A structure is gone. -/
def VfsState.dropFiles (vfs : VfsState) (filesp : Nat) : VfsState :=
  { vfs with files := Function.update vfs.files filesp none }

/-- What destroying a structure leaves. -/
def Destroys (lost : Node → Int) (vfs : VfsState) (filesp : Nat) (after : VfsState) : Prop :=
  ∃ refs opens, (∀ node, refs node ≤ 0) ∧ Moves refs opens (vfs.dropFiles filesp) after ∧
    Balanced lost after

/-- The loop of `files_destroy` and the end of it. -/
theorem meets_destroyEntries {lost' : Node → Int}
    (closes : Closes lost' vfs filesp files 0 0 state)
    (account : ∀ node, lost node = lost' node + share (isNode node) files.pwd)
    (devices : ∀ device, 0 ≤ lost (.device device)) :
    Meets NotMissing (do
      eachFile (fun fd => do
        closeOpened filesp fd
        let file ← getFile filesp fd
        assert (file.status = .none)) 0 filesStructNentry
      kfreeFiles filesp : VfsM Unit) state fun result after =>
        result = .ok () ∧ Destroys lost vfs filesp after := by
  have loop := @meets_eachFile state 0 NotMissing (fun fd => do
      closeOpened filesp fd
      let file ← getFile filesp fd
      assert (file.status = .none))
    (fun entry state => Closes lost' vfs filesp files 0 entry state) filesStructNentry closes (by
      intro entry middle from' within closing
      apply meets_bind_of_run (meets_closeOpened within from' closing)
      rintro _ closed ⟨rfl, next⟩
      refine ⟨(), rfl, ?_⟩
      have next' := next
      obtain ⟨files', refs, opens, closedFrom, _, moves, _⟩ := next'
      have found : closed.files filesp = some files' := by
        rw [moves.files]
        exact files_setFiles
      apply meets_bind_run (run_getFile found)
      exact meets_require_last (fun _ => ⟨rfl, next⟩) fun _ => notMissing_other _)
  apply meets_bind_of_run loop
  rintro _ closed ⟨rfl, files', refs, opens, closedFrom, released, moves, balanced⟩
  refine ⟨(), rfl, meets_modify_last ⟨rfl, refs, opens, released, ?_, ?_⟩⟩
  · have dropped := @Moves.tables _ _ _ _ (Function.update vfs.files filesp none) moves
    have same : { closed with files := Function.update vfs.files filesp none } =
        { closed with files := Function.update closed.files filesp none } := by
      rw [moves.files, VfsState.setFiles]
      simp only [Function.update_idem]
    rw [← same]
    exact dropped
  · have found : closed.files filesp = some files' := by
      rw [moves.files]
      exact files_setFiles
    apply balanced.drop found
    · intro entry within
      rw [closedFrom.closed entry (Nat.zero_le _) (by omega)]
      rintro ⟨⟩
    · intro node
      rw [closedFrom.pwd, account]
    · exact devices

/-- `files_destroy` -/
theorem Balanced.meets_filesDestroy (balanced : Balanced lost vfs) (kept : ∀ node, 0 ≤ lost node)
    (found : vfs.files filesp = some files)
    (noDevice : ∀ device, files.pwd ≠ some (.device device)) :
    Meets NotMissing (filesDestroy filesp) vfs fun result after =>
      result = .ok () ∧ Destroys lost vfs filesp after := by
  apply meets_bind_run (run_getFiles found)
  apply meets_assert
  intro _
  have devices : ∀ device, 0 ≤ lost (.device device) := fun device => kept _
  cases isPwd : files.pwd with
  | none =>
      apply meets_destroyEntries (balanced.closes_none found)
      · intro node
        rw [isPwd, share_none, add_zero]
      · exact devices
  | some pwd =>
      rw [isPwd] at noDevice
      have alive : ∀ device, pwd = .device device → 1 < vfs.refCount pwd :=
        fun device isDevice => absurd (congrArg some isDevice) (noDevice device)
      apply meets_bind_of_run (meets_refDec balanced.sound alive)
      rintro _ state ⟨rfl, dropped⟩
      refine ⟨(), rfl, ?_⟩
      have balanced' : Balanced (lost - just pwd) state := by
        apply balanced.moves dropped
        · intro node
          rw [Pi.sub_apply, Pi.neg_apply]
          rfl
        · intro node
          have covers := workingDirs_pos balanced found isPwd
          rw [Pi.sub_apply]
          by_cases same : node = pwd
          · subst same
            have := kept node
            rw [just_self]
            omega
          · rw [just_of_ne same, sub_zero]
            exact balanced.covered node
        · intro device
          have apart : Node.device device ≠ pwd := fun same =>
            noDevice device (congrArg some same.symm)
          rw [Pi.sub_apply, just_of_ne apart, sub_zero]
          exact kept _
      have here : state.files filesp = some files := by rw [dropped.files, found]
      have closes : Closes (lost - just pwd) vfs filesp files 0 0 state := by
        have table : vfs.setFiles filesp files = vfs := by
          have same : Function.update vfs.files filesp (some files) = vfs.files := by
            rw [← found, Function.update_eq_self]
          simp only [VfsState.setFiles, same]
        refine ⟨files, -just pwd, 0, ⟨rfl, rfl, fun entry from' within => ?_, fun _ _ => rfl⟩, ?_, ?_,
          balanced'⟩
        · omega
        · intro node
          have := just_nonneg pwd node
          rw [Pi.neg_apply]
          omega
        · rw [table]
          exact dropped
      apply meets_destroyEntries closes
      · intro node
        rw [isPwd, share_some, Pi.sub_apply, sub_add_cancel]
      · exact devices

/-- The first entries of a structure, duplicated. -/
def Files.duplicate (files : Files) (count last : Nat) : Files where
  pwd := files.pwd
  filesCount := count
  fdArray entry := if entry < last ∧ (files.fdArray entry).status = .opened then
    (files.fdArray entry).duplicate else File.initial

/-- What the loop of `dup_files` leaves before entry `last`. -/
def Duplicates (lost : Node → Int) (vfs : VfsState) (target : Nat) (files : Files) (last : Nat)
    (after : VfsState) : Prop :=
  ∃ refs opens, (∀ node, 0 ≤ refs node) ∧
    Moves refs opens (vfs.setFiles target (files.duplicate 0 last)) after ∧ Balanced lost after

theorem Files.duplicate_succ {count last : Nat} :
    files.duplicate count (last + 1) = if (files.fdArray last).status = .opened then
      (files.duplicate count last).setFile last (files.fdArray last).duplicate
    else files.duplicate count last := by
  have same : ∀ entry, entry ≠ last → ((files.duplicate count (last + 1)).fdArray entry =
      (files.duplicate count last).fdArray entry) := by
    intro entry apart
    have less : entry < last + 1 ↔ entry < last := by omega
    simp only [Files.duplicate, less]
  split_ifs with isOpen
  · refine (Files.mk.injEq ..).mpr ⟨rfl, rfl, funext fun entry => ?_⟩
    by_cases here : entry = last
    · subst here
      simp only [Function.update_self, Nat.lt_succ_self, isOpen, and_self, if_true]
    · rw [Function.update_of_ne here]
      exact same entry here
  · refine (Files.mk.injEq ..).mpr ⟨rfl, rfl, funext fun entry => ?_⟩
    by_cases here : entry = last
    · subst here
      simp only [isOpen, and_false, if_false]
    · exact same entry here

theorem meets_dupOpened (apart : filesp ≠ target) (found : vfs.files filesp = some files)
    (inside : fd < filesStructNentry) (duplicates : Duplicates lost vfs target files fd state) :
    Meets NotMissing (dupOpened target filesp fd) state fun result after =>
      result = .ok () ∧ Duplicates lost vfs target files (fd + 1) after := by
  obtain ⟨refs, opens, taken, moves, balanced⟩ := duplicates
  have here : state.files filesp = some files := by
    rw [moves.files, files_setFiles_of_ne apart, found]
  have foundTarget : state.files target = some (files.duplicate 0 fd) := by
    rw [moves.files]
    exact files_setFiles
  have fresh : (files.duplicate 0 fd).fdArray fd = File.initial := by
    simp only [Files.duplicate, Nat.lt_irrefl, false_and, if_false]
  apply meets_bind_run (run_getFile here)
  split_ifs with isOpen
  · obtain ⟨node, opened⟩ := balanced.openEntry here inside isOpen
    apply meets_bind_run (run_getFile foundTarget)
    apply meets_bind_run (run_setFile foundTarget)
    rw [fresh]
    have here' : (state.setFile target (files.duplicate 0 fd) fd
        { File.initial with status := .init }).files filesp = some files := by
      rw [VfsState.setFile, files_setFiles_of_ne apart, here]
    apply (meets_fdArrayDup setFile_found Files.setFile_self rfl rfl here' rfl
      isOpen opened.held).weaken fun _ => id
    rintro result after ⟨rfl, moves'⟩
    rw [setFile_setFile] at moves'
    have held : File.held (files.fdArray fd).duplicate = some node := opened.held
    have free : File.held ((files.duplicate 0 fd).fdArray fd) = none := by
      rw [fresh]
      rfl
    have change : ∀ other, just node other = share (isNode other) (File.held
        (files.fdArray fd).duplicate) - share (isNode other) (File.held
          ((files.duplicate 0 fd).fdArray fd)) := by
      intro other
      rw [held, free, share_some, share_none, sub_zero]
    refine ⟨rfl, refs + just node, opens + just node, ?_, ?_, ?_⟩
    · intro other
      have := taken other
      have := just_nonneg node other
      rw [Pi.add_apply]
      omega
    · have onTables := @Moves.setFiles _ _ _ _ target
        ((files.duplicate 0 fd).setFile fd (files.fdArray fd).duplicate) moves
      have same : (vfs.setFiles target (files.duplicate 0 fd)).setFiles target
          ((files.duplicate 0 fd).setFile fd (files.fdArray fd).duplicate) =
            vfs.setFiles target (files.duplicate 0 (fd + 1)) := by
        rw [Files.duplicate_succ, if_pos isOpen]
        simp only [VfsState.setFiles, Function.update_idem]
      rw [same] at onTables
      exact onTables.trans moves' (Or.inl taken)
    · exact balanced.setSlot foundTarget inside (Or.inr ⟨rfl, rfl, by
          rw [show (files.fdArray fd).duplicate.node = (files.fdArray fd).node from rfl, opened.held]
          exact Option.some_ne_none node⟩) moves'
        (fun other => (change other).trans (add_zero _).symm) change
        (fun other => (add_zero (lost other)).symm) fun _ => le_rfl
  · refine meets_pure ⟨rfl, refs, opens, taken, ?_, balanced⟩
    rw [Files.duplicate_succ, if_neg isOpen]
    exact moves

/-- `dup_files` into a structure without open entries and a working directory. -/
theorem Balanced.meets_dupFiles (balanced : Balanced lost vfs) (apart : filesp ≠ target)
    (foundTarget : vfs.files target = some ⟨none, 0, fun _ => File.initial⟩)
    (found : vfs.files filesp = some files) :
    Meets NotMissing (dupFiles target filesp) vfs fun result after =>
      result = .ok () ∧ Duplicates lost vfs target files filesStructNentry after := by
  apply meets_bind_run (run_getFiles foundTarget)
  apply meets_bind_run (run_getFiles found)
  apply meets_assert
  intro _
  apply meets_modify
  have start : files.duplicate 0 0 = ⟨files.pwd, 0, fun _ => File.initial⟩ := by
    refine (Files.mk.injEq ..).mpr ⟨rfl, rfl, funext fun entry => ?_⟩
    rw [if_neg fun impossible => Nat.not_lt_zero _ impossible.1]
  have loop : ∀ {middle : VfsState}, Duplicates lost vfs target files 0 middle →
      Meets NotMissing (eachFile (dupOpened target filesp) 0 filesStructNentry) middle
        fun result after => result = .ok () ∧
          Duplicates lost vfs target files filesStructNentry after := by
    intro middle duplicates
    have all := @meets_eachFile middle 0 NotMissing (dupOpened target filesp)
      (fun entry state => Duplicates lost vfs target files entry state) filesStructNentry duplicates
      fun entry state _ within duplicating =>
        meets_dupOpened apart found (by omega) duplicating
    rwa [Nat.zero_add] at all
  -- The working directory is set before its reference is taken.
  have pwdTaken : ∀ {middle : VfsState}, Moves (fun node => share (isNode node) files.pwd) 0
      (vfs.setFiles target ⟨files.pwd, 0, fun _ => File.initial⟩) middle →
      Duplicates lost vfs target files 0 middle := by
    intro middle moves
    refine ⟨_, 0, fun node => share_nonneg node files.pwd, by rwa [start], ?_⟩
    apply balanced.setPwd foundTarget moves
    · intro node
      rw [share_none, sub_zero, add_comm]
    · intro node
      have := balanced.covered node
      have := share_nonneg node files.pwd
      omega
    · exact balanced.devices
  cases isPwd : files.pwd with
  | none =>
      apply loop
      apply pwdTaken
      rw [isPwd]
      exact Moves.refl
  | some pwd =>
      have sound : Sound (vfs.setFiles target ⟨some pwd, 0, fun _ => File.initial⟩) :=
        ⟨balanced.sound.proper, balanced.sound.devices⟩
      apply meets_bind_of_run meets_refInc
      rintro _ middle ⟨rfl, taken⟩
      refine ⟨(), rfl, loop (pwdTaken ?_)⟩
      rw [isPwd]
      exact taken.congr (funext fun node => (share_some pwd node).symm) rfl

/-- A structure with another count. -/
theorem Balanced.setCount {count : Nat} (balanced : Balanced lost vfs)
    (found : vfs.files filesp = some files) :
    Balanced lost (vfs.setFiles filesp { files with filesCount := count }) := by
  have moves : Moves 0 0 (vfs.setFiles filesp { files with pwd := files.pwd, filesCount := count })
      (vfs.setFiles filesp { files with filesCount := count }) := Moves.refl
  apply balanced.setPwd found moves
  · intro node
    rw [sub_self, zero_add, Pi.zero_apply, add_zero]
  · intro node
    rw [Pi.zero_apply, add_zero]
    exact balanced.covered node
  · exact balanced.devices

/-- The state with a duplicate of a structure. -/
def VfsState.withDuplicate (vfs : VfsState) (files : Files) : VfsState :=
  { vfs.setFiles vfs.filesCreated (files.duplicate 1 filesStructNentry) with
    filesCreated := vfs.filesCreated + 1 }

/-- What `copy_files` leaves: a holder more, or a duplicate. -/
def CopyPost (vfs : VfsState) (share : Bool) (filesp : Nat) (files : Files)
    (result : Except Errno Nat) (after : VfsState) : Prop :=
  match result with
  | .ok target =>
      share = true ∧ target = filesp ∧
          after = vfs.setFiles filesp { files with filesCount := files.filesCount + 1 } ∨
        share = false ∧ target = vfs.filesCreated ∧
          ∃ refs opens, (∀ node, 0 ≤ refs node) ∧ Moves refs opens (vfs.withDuplicate files) after
  | .error _ => share = false ∧ Moves 0 0 vfs after

/-- `copy_files` -/
theorem Balanced.meets_copyFiles {share : Bool} (balanced : Balanced lost vfs)
    (found : vfs.files filesp = some files) :
    Meets NotMissing (copyFiles share filesp) vfs fun result after =>
      Balanced lost after ∧ CopyPost vfs share filesp files result after := by
  unfold copyFiles
  by_cases shared : share = true
  · have counted : filesCountInc filesp vfs =
        .ok (.ok (), vfs.setFiles filesp { files with filesCount := files.filesCount + 1 }) := by
      rw [filesCountInc, bind_run (run_getFiles found)]
      rfl
    rw [if_pos shared]
    apply meets_bind_run counted
    exact meets_pure ⟨balanced.setCount found, Or.inl ⟨shared, rfl, rfl⟩⟩
  · rw [if_neg shared]
    have alone := Bool.eq_false_of_not_eq_true shared
    have creates : Meets NotMissing filesCreate vfs fun result after =>
        match result with
        | .ok created => created = vfs.filesCreated ∧ ∃ middle, OnlyMemory vfs middle ∧
            after = { middle.setFiles middle.filesCreated ⟨none, 0, fun _ => File.initial⟩ with
              filesCreated := middle.filesCreated + 1 }
        | .error _ => Moves 0 0 vfs after := by
      apply meets_bind meets_kmalloc _ fun _ _ only => only.moves
      intro _ middle only
      apply meets_read
      apply meets_modify
      refine meets_pure ⟨?_, middle, only, rfl⟩
      obtain ⟨_, rfl⟩ := only
      rfl
    apply meets_bind creates
    · rintro created state ⟨rfl, middle, only, rfl⟩
      have moves := only.moves
      have sameCreated : middle.filesCreated = vfs.filesCreated := moves.filesCreated
      have balanced' := balanced.keep moves
      have older := balanced.created filesp files found
      have apart : filesp ≠ vfs.filesCreated := Nat.ne_of_lt older
      rw [sameCreated]
      have foundTarget : ({ middle.setFiles vfs.filesCreated ⟨none, 0, fun _ => File.initial⟩ with
          filesCreated := vfs.filesCreated + 1 } : VfsState).files vfs.filesCreated =
          some ⟨none, 0, fun _ => File.initial⟩ := Function.update_self ..
      have here : ({ middle.setFiles vfs.filesCreated ⟨none, 0, fun _ => File.initial⟩ with
          filesCreated := vfs.filesCreated + 1 } : VfsState).files filesp = some files := by
        change (middle.setFiles vfs.filesCreated _).files filesp = _
        rw [files_setFiles_of_ne apart, moves.files, found]
      have made : Balanced lost { middle.setFiles vfs.filesCreated
          ⟨none, 0, fun _ => File.initial⟩ with filesCreated := vfs.filesCreated + 1 } := by
        have create := @Balanced.create middle lost 0 balanced'
        rwa [sameCreated] at create
      apply meets_bind_of_run (made.meets_dupFiles apart foundTarget here)
      rintro _ duplicated ⟨rfl, refs, opens, taken, moves', balanced''⟩
      refine ⟨(), rfl, ?_⟩
      have foundCopy : duplicated.files vfs.filesCreated =
          some (files.duplicate 0 filesStructNentry) := by
        rw [moves'.files]
        exact files_setFiles
      have counted : filesCountInc vfs.filesCreated duplicated = .ok (.ok (),
          duplicated.setFiles vfs.filesCreated (files.duplicate 1 filesStructNentry)) := by
        rw [filesCountInc, bind_run (run_getFiles foundCopy)]
        rfl
      apply meets_bind_run counted
      refine meets_pure ⟨@Balanced.setCount _ _ _ _ 1 balanced'' foundCopy, ?_⟩
      refine Or.inr ⟨alone, rfl, refs, opens, taken, ?_⟩
      have onTables := @Moves.setFiles _ _ _ _ vfs.filesCreated
        (files.duplicate 1 filesStructNentry) moves'
      obtain ⟨kmallocs, rfl⟩ := only
      have same : (VfsState.setFiles { (VfsState.setFiles { vfs with kmallocs := kmallocs }
          vfs.filesCreated ⟨none, 0, fun _ => File.initial⟩) with
            filesCreated := vfs.filesCreated + 1 } vfs.filesCreated
            (files.duplicate 0 filesStructNentry)).setFiles vfs.filesCreated
              (files.duplicate 1 filesStructNentry) =
          { vfs.withDuplicate files with kmallocs := kmallocs } := by
        simp only [VfsState.setFiles, VfsState.withDuplicate, Function.update_idem]
      rw [same] at onTables
      have memory : Moves 0 0 (vfs.withDuplicate files)
          { vfs.withDuplicate files with kmallocs := kmallocs } := Moves.of_kmallocs
      exact memory.zero onTables
    · exact fun errno after moves => ⟨balanced.keep moves, alone, moves⟩

/-- What `put_files` leaves. -/
def PutPost (lost : Node → Int) (vfs : VfsState) (filesp : Nat) (files : Files)
    (after : VfsState) : Prop :=
  1 < files.filesCount ∧
      after = vfs.setFiles filesp { files with filesCount := files.filesCount - 1 } ∨
    files.filesCount ≤ 1 ∧ Destroys lost vfs filesp after

/-- `put_files` -/
theorem Balanced.meets_putFiles (balanced : Balanced lost vfs) (kept : ∀ node, 0 ≤ lost node)
    (found : vfs.files filesp = some files)
    (noDevice : ∀ device, files.pwd ≠ some (.device device)) :
    Meets NotMissing (putFiles filesp) vfs fun result after =>
      result = .ok () ∧ Balanced lost after ∧ PutPost lost vfs filesp files after := by
  apply meets_bind_run (run_getFiles found)
  apply meets_modify
  have counted := @Balanced.setCount _ _ _ _ (files.filesCount - 1) balanced found
  split_ifs with last
  · have destroys := counted.meets_filesDestroy kept files_setFiles noDevice
    apply destroys.weaken fun _ => id
    rintro result after ⟨rfl, refs, opens, released, moves, balanced'⟩
    refine ⟨rfl, balanced', Or.inr ⟨by omega, refs, opens, released, ?_, balanced'⟩⟩
    have same : (vfs.setFiles filesp { files with filesCount := files.filesCount - 1 }).dropFiles
        filesp = vfs.dropFiles filesp := by
      simp only [VfsState.dropFiles, VfsState.setFiles, Function.update_idem]
    rwa [same] at moves
  · exact meets_pure ⟨rfl, counted, Or.inl ⟨by omega, rfl⟩⟩

/-! ## The working directory -/

theorem not_device (table : vfs.inOps node = sfsNodeDirops) (device : Device) :
    node ≠ .device device := by
  rintro rfl
  exact absurd table (by change devNodeOps ≠ sfsNodeDirops; decide)

/-- What `vfs_set_curdir` leaves: the working directory is as it was, or it is the directory. -/
def CurdirPost (vfs : VfsState) (filesp : Nat) (dir : Node) (result : Except Errno Unit)
    (after : VfsState) : Prop :=
  match result with
  | .ok () => ∃ files, vfs.files filesp = some files ∧
      (files.pwd = some dir ∧ after = vfs ∨ files.pwd ≠ some dir ∧ vfs.inOps dir = sfsNodeDirops ∧
        Moves (fun node => just dir node - share (isNode node) files.pwd) 0
          (vfs.setFiles filesp { files with pwd := some dir }) after)
  | .error _ => after = vfs

theorem meets_setCurdir (sound : Sound vfs) (referenced : 0 < vfs.refCount node)
    (noDevice : ∀ files device, vfs.files filesp = some files →
      files.pwd ≠ some (.device device)) :
    Meets NotMissing (vfsSetCurdir filesp node) vfs (CurdirPost vfs filesp node) := by
  apply meets_bind_getFiles notMissing_plain
  intro files found
  by_cases already : files.pwd = some node
  · rw [if_pos already]
    exact meets_pure ⟨files, found, Or.inl ⟨already, rfl⟩⟩
  · rw [if_neg already]
    apply meets_bind (meets_vopGettype notMissing_plain sound referenced)
    · rintro mode _ ⟨rfl, isDir⟩
      by_cases wrong : mode ≠ .directory
      · rw [if_pos wrong]
        exact meets_fail rfl
      · rw [if_neg wrong]
        rw [not_not.mp wrong] at isDir
        have table := isDir rfl
        apply meets_bind_of_run meets_refInc
        rintro _ taken ⟨rfl, counted⟩
        refine ⟨(), rfl, ?_⟩
        apply meets_modify
        have placed := @Moves.setFiles _ _ _ _ filesp { files with pwd := some node } counted
        cases isPwd : files.pwd with
        | none =>
            rw [isPwd] at already
            refine meets_pure ⟨files, found, Or.inr ⟨isPwd ▸ already, table, placed.congr ?_ rfl⟩⟩
            funext other
            rw [isPwd, share_none, sub_zero]
        | some old =>
            have alive : ∀ device, old = .device device →
                1 < VfsState.refCount (taken.setFiles filesp { files with pwd := some node }) old :=
              fun device isDevice =>
                absurd (isPwd.trans (congrArg some isDevice)) (noDevice files device found)
            have sound' := counted.sound sound
            have drops := @meets_refDec (taken.setFiles filesp { files with pwd := some node }) old
              ⟨sound'.proper, sound'.devices⟩ alive
            apply drops.weaken fun _ => id
            rintro result after ⟨rfl, dropped⟩
            rw [isPwd] at already
            refine ⟨files, found, Or.inr ⟨isPwd ▸ already, table, (placed.trans dropped
              (Or.inl (just_nonneg node))).congr ?_ (add_zero _)⟩⟩
            funext other
            rw [isPwd, share_some, Pi.add_apply, Pi.neg_apply, sub_eq_add_neg]
    · rintro errno _ ⟨rfl, _⟩
      rfl

/-- What `vfs_chdir` leaves: a directory `among` those that the lookup may find. -/
def ChdirPost (among : Node → Prop) (vfs : VfsState) (filesp : Nat) (result : Except Errno Unit)
    (after : VfsState) : Prop :=
  match result with
  | .ok () => ∃ files dir, vfs.files filesp = some files ∧ among dir ∧
      (files.pwd = some dir ∨ after.inOps dir = sfsNodeDirops) ∧
      Moves (fun node => just dir node - share (isNode node) files.pwd) 0
        (vfs.setFiles filesp { files with pwd := some dir }) after
  | .error _ => Moves 0 0 vfs after

/-- `vfs_chdir`, from what its lookup does. -/
theorem Balanced.meets_chdirTo {among : Node → Prop} (balanced : Balanced lost vfs)
    (kept : ∀ node, 0 ≤ lost node)
    (looks : Meets NotMissing (vfsLookup filesp path) vfs fun result after =>
      Moves (handed just result) 0 vfs after ∧ ∀ node, result = .ok node → among node)
    (pwds : ∀ files node, vfs.files filesp = some files → files.pwd = some node →
      Directory vfs node) :
    Meets NotMissing (vfsChdir filesp path) vfs fun result after =>
      Balanced lost after ∧ ChdirPost among vfs filesp result after := by
  apply meets_bind looks
  · rintro node looked ⟨taken, isAmong⟩
    have isAmong := isAmong node rfl
    change Moves (just node) 0 vfs looked at taken
    have counted := taken.refCount node
    rw [just_self] at counted
    have noDevice : ∀ files device, looked.files filesp = some files →
        files.pwd ≠ some (.device device) := by
      intro files device found isDevice
      have directory := pwds files _ (taken.files ▸ found) isDevice
      exact not_device directory.2 device rfl
    apply meets_bind_attempt (meets_setCurdir (taken.sound balanced.sound) (by omega) noDevice)
    rintro (errno | ⟨⟩) set posted
    · obtain rfl : set = looked := posted
      apply meets_bind_refDec balanced.sound taken just_self.ge
      intro after moves
      have still := moves.congr (add_neg_cancel _) rfl
      exact meets_fail ⟨balanced.keep still, still⟩
    · obtain ⟨files, found, same | ⟨apart, table, moves⟩⟩ := posted
      · obtain ⟨isPwd, rfl⟩ := same
        rw [taken.files] at found
        have directory := pwds files node found isPwd
        apply (meets_refDec (taken.sound balanced.sound) fun device isDevice =>
          absurd isDevice (not_device directory.2 device)).weaken fun _ => id
        rintro result after ⟨rfl, dropped⟩
        have still : Moves 0 0 vfs after := by
          refine (taken.trans dropped (Or.inl (just_nonneg node))).congr (add_neg_cancel _) ?_
          exact add_zero _
        refine ⟨balanced.keep still, files, node, found, isAmong, Or.inl isPwd, ?_⟩
        have table : vfs.setFiles filesp { files with pwd := some node } = vfs := by
          have same : Function.update vfs.files filesp (some { files with pwd := some node }) =
              vfs.files := by rw [← isPwd, ← found, Function.update_eq_self]
          simp only [VfsState.setFiles, same]
        rw [table]
        refine still.congr (funext fun other => ?_) rfl
        rw [isPwd, share_some, sub_self]
        rfl
      · have here : vfs.files filesp = some files := taken.files ▸ found
        have onTables := @Moves.setFiles _ _ _ _ filesp { files with pwd := some node } taken
        have counted' := moves.refCount node
        have old : share (isNode node) files.pwd = 0 := by
          rw [share, if_neg]
          exact fun same => apart (of_decide_eq_true same)
        change (set.refCount node : Int) = looked.refCount node + _ at counted'
        rw [just_self, old, sub_zero] at counted'
        have referenced : 0 < looked.refCount node := by omega
        apply (meets_refDec (moves.sound ⟨(taken.sound balanced.sound).proper,
          (taken.sound balanced.sound).devices⟩) fun device isDevice =>
          absurd isDevice (not_device table device)).weaken fun _ => id
        rintro result after ⟨rfl, dropped⟩
        have setOps : set.inOps node = looked.inOps node :=
          moves.inOps (by cases node <;> exact referenced) (by omega)
        have finalCount := dropped.refCount node
        rw [Pi.neg_apply, just_self] at finalCount
        have final : after.inOps node = sfsNodeDirops := by
          rw [dropped.inOps (by omega) (by omega), setOps, table]
        have total : Moves (fun other => just node other - share (isNode other) files.pwd) 0
            (vfs.setFiles filesp { files with pwd := some node }) after := by
          refine ((onTables.trans moves (Or.inl (just_nonneg node))).trans dropped
            (Or.inr fun other => ?_)).congr ?_ ?_
          · have := just_nonneg node other
            rw [Pi.neg_apply]
            omega
          · funext other
            rw [Pi.add_apply, Pi.add_apply, Pi.neg_apply]
            omega
          · rw [add_zero, add_zero]
        refine ⟨?_, files, node, here, isAmong, Or.inr final, total⟩
        apply balanced.setPwd here total
        · intro other
          rw [share_some]
          omega
        · intro other
          have covers : share (isNode other) files.pwd ≤ workingDirs vfs other := by
            cases isPwd : files.pwd with
            | none => exact tally_nonneg
            | some pwd =>
                by_cases same : other = pwd
                · have := workingDirs_pos balanced here isPwd
                  rw [share_some, same, just_self]
                  omega
                · rw [share_some, just_of_ne same]
                  exact tally_nonneg
          have := just_nonneg node other
          have := kept other
          omega
        · exact fun device => kept _
  · exact fun errno after post => ⟨balanced.keep post.1, post.1⟩

/-- `vfs_chdir` -/
theorem Balanced.meets_vfsChdir (balanced : Balanced lost vfs) (kept : ∀ node, 0 ≤ lost node)
    (starts : Starts vfs filesp) :
    Meets NotMissing (vfsChdir filesp path) vfs fun result after =>
      Balanced lost after ∧ ChdirPost (fun _ => True) vfs filesp result after := by
  apply balanced.meets_chdirTo kept _ starts.pwd
  apply (meets_vfsLookup balanced.sound starts).weaken fun _ => id
  exact fun _ _ moves => ⟨moves, fun _ _ => trivial⟩

/-! ## Closing and duplicating files -/

/-- What `file_close` leaves. -/
def ClosePost (vfs : VfsState) (filesp : Nat) (want : Int) (result : Except Errno Unit)
    (after : VfsState) : Prop :=
  match result with
  | .ok () => ∃ files node, OpenEntry vfs filesp files want.toNat (files.fdArray want.toNat) node ∧
      Moves (-just node) (-just node) (vfs.setFile filesp files want.toNat
        { files.fdArray want.toNat with status := .none, openCount := 0 }) after
  | .error _ => after = vfs

/-- `file_close` -/
theorem Balanced.meets_fileClose {want : Int} (balanced : Balanced lost vfs) :
    Meets NotMissing (fileClose filesp want) vfs fun result after =>
      Balanced lost after ∧ ClosePost vfs filesp want result after := by
  apply balanced.meets_bind_fd2file notMissing_plain
  · intro _ files node opened
    apply (meets_fdArrayClose opened.found rfl opened.isOpen opened.once opened.held balanced.sound
      opened.alive opened.referenced).withRun.weaken fun _ => id
    rintro result after ⟨ran, rfl, moves⟩
    have closed := (balanced.closed opened.found opened.inside opened.isOpen).of_ok ran
    exact ⟨closed.2.1, files, node, opened, moves⟩
  · exact fun _ => ⟨balanced, rfl⟩

/-- What `file_dup` leaves. -/
def DupPost (vfs : VfsState) (filesp : Nat) (want : Int) (result : Except Errno Nat)
    (after : VfsState) : Prop :=
  match result with
  | .ok fd => ∃ files node, OpenEntry vfs filesp files want.toNat (files.fdArray want.toNat) node ∧
      fd < filesStructNentry ∧ (files.fdArray fd).status = .none ∧
      Moves (just node) (just node)
        (vfs.setFile filesp files fd (files.fdArray want.toNat).duplicate) after
  | .error _ => after = vfs

/-- `file_dup` -/
theorem Balanced.meets_fileDup {want want' : Int} (balanced : Balanced lost vfs) :
    Meets NotMissing (fileDup filesp want want') vfs fun result after =>
      Balanced lost after ∧ DupPost vfs filesp want result after := by
  apply balanced.meets_bind_fd2file notMissing_plain
  · intro _ files node opened
    apply meets_bind (meets_fdArrayAlloc notMissing_plain)
    · rintro fd _ ⟨files', found, inside, isFree, unused, rfl⟩
      obtain rfl : files' = files := Option.some.inj (found.symm.trans opened.found)
      have apart : want.toNat ≠ fd := by
        intro same
        have isOpen := opened.isOpen
        rw [same, isFree] at isOpen
        cases isOpen
      have source : (files'.setFile fd (files'.fdArray fd).allocated).fdArray want.toNat =
          files'.fdArray want.toNat := Function.update_of_ne apart _ _
      apply meets_bind_of_run (meets_fdArrayDup setFile_found
        Files.setFile_self rfl (by exact unused) setFile_found (by exact source) opened.isOpen
        opened.held)
      rintro _ after ⟨rfl, moves⟩
      rw [setFile_setFile] at moves
      refine ⟨(), rfl, meets_pure ⟨?_, files', node, opened, inside, isFree, moves⟩⟩
      have held : File.held (files'.fdArray want.toNat).duplicate = some node := opened.held
      have free : File.held (files'.fdArray fd) = none := by
        rw [File.held, isFree]
        rfl
      have change : ∀ other, just node other = share (isNode other) (File.held
          (files'.fdArray want.toNat).duplicate) -
            share (isNode other) (File.held (files'.fdArray fd)) := by
        intro other
        rw [held, free, share_some, share_none, sub_zero]
      have settled : (files'.fdArray want.toNat).duplicate.Settled := by
        refine Or.inr ⟨rfl, rfl, ?_⟩
        change (files'.fdArray want.toNat).node ≠ none
        rw [opened.held]
        exact Option.some_ne_none node
      exact balanced.setSlot found inside settled moves
        (fun other => (change other).trans (add_zero _).symm) change
        (fun other => (add_zero (lost other)).symm) fun _ => le_rfl
    · rintro errno _ same
      obtain rfl : _ = vfs := same
      exact ⟨balanced, rfl⟩
  · exact fun _ => ⟨balanced, rfl⟩

end UCore.Vfs
