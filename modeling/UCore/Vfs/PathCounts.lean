import UCore.Vfs.Counts

/-!
Contract: what looking up, opening and closing inodes by path does to their counts, and which
operations it finds.

Owns:
- `Starts`: every lookup starts at a directory or a device;
- one rule for each function of paths: a success hands out one reference, a failure none;
- the opens that find an operation missing, and those that keep a reference when they fail.

Does not own: open files.
-/

set_option autoImplicit false

namespace UCore.Vfs

open UCore.Lib UCore.Lib.Program UCore.Fs

variable {vfs after : VfsState} {node : Node} {refs opens : Node → Int} {filesp : Nat}
  {path : Path}

/-! ## Directories -/

theorem keeps_direntRead (ino slot : Nat) : KeepsIdentities (sfsDirentReadNolock ino slot) := by
  apply KeepsViews.bind (KeepsViews.lookSin ino)
  intro sin
  apply KeepsViews.asserts
  apply KeepsViews.bind (KeepsViews.bmapLoad ino slot)
  intro block
  apply KeepsViews.bind (KeepsViews.blockInuse block)
  intro inuse
  exact KeepsViews.asserts
    (KeepsViews.bind (KeepsViews.rbuf _ _ _) fun _ => KeepsViews.ret _)

theorem keeps_direntSearch (ino : Nat) (name : List UInt8) (slot nslots : Nat) :
    KeepsIdentities (direntSearch ino name slot nslots) := by
  induction nslots generalizing slot with
  | zero => exact KeepsViews.fails _
  | succ nslots inductionHypothesis =>
      apply KeepsViews.bind (keeps_direntRead ino slot)
      intro entry
      exact KeepsViews.branch (KeepsViews.ret _) (inductionHypothesis _)

theorem keeps_getdirentrySub (ino index slot nslots : Nat) :
    KeepsIdentities (getdirentrySub ino index slot nslots) := by
  induction nslots generalizing index slot with
  | zero => exact KeepsViews.fails _
  | succ nslots inductionHypothesis =>
      apply KeepsViews.bind (keeps_direntRead ino index)
      intro entry
      exact KeepsViews.branch
        (KeepsViews.branch (KeepsViews.ret _) (inductionHypothesis _ _))
        (inductionHypothesis _ _)

theorem keeps_readDin (ino : Nat) : KeepsIdentities (sfsReadDin ino) := by
  apply KeepsViews.bind (KeepsViews.blockInuse ino)
  intro inuse
  apply KeepsViews.asserts
  exact KeepsViews.bind (KeepsViews.rbuf _ _ _) fun _ => KeepsViews.assert _

/-- Two programs that leave the counts. -/
theorem Moves.zero {middle : VfsState} (first : Moves 0 0 vfs middle)
    (second : Moves refs opens middle after) : Moves refs opens vfs after :=
  (first.trans second (Or.inl fun _ => le_rfl)).congr (zero_add _) (zero_add _)

theorem Moves.andZero {middle : VfsState} (first : Moves refs opens vfs middle)
    (second : Moves 0 0 middle after) : Moves refs opens vfs after :=
  (first.trans second (Or.inr fun _ => le_rfl)).congr (add_zero _) (add_zero _)

/-- Only the memory changes. -/
def OnlyMemory (vfs after : VfsState) : Prop := ∃ kmallocs, after = { vfs with kmallocs := kmallocs }

theorem OnlyMemory.moves (only : OnlyMemory vfs after) : Moves 0 0 vfs after := by
  obtain ⟨_, rfl⟩ := only
  exact Moves.of_kmallocs

theorem OnlyMemory.trans {middle : VfsState} (first : OnlyMemory vfs middle)
    (second : OnlyMemory middle after) : OnlyMemory vfs after := by
  obtain ⟨_, rfl⟩ := first
  obtain ⟨kmallocs, rfl⟩ := second
  exact ⟨kmallocs, rfl⟩

theorem meets_kmallocAnswer :
    Meets NotMissing kmallocAnswer vfs fun result after =>
      (∃ answer, result = .ok answer) ∧ OnlyMemory vfs after :=
  meets_read (meets_modify (meets_pure ⟨⟨_, rfl⟩, _, rfl⟩))

theorem meets_kmalloc : Meets NotMissing kmalloc vfs fun _ after => OnlyMemory vfs after := by
  apply meets_bind meets_kmallocAnswer
  · rintro answer after ⟨_, only⟩
    split_ifs
    · exact meets_pure only
    · exact meets_fail only
  · exact fun _ _ changed => changed.2

/-- What a lookup that answers `result` hands out. -/
def handed {α : Type} (held : α → Node → Int) : Except Errno α → Node → Int
  | .ok value => held value
  | .error _ => 0

theorem handed_nonneg {α : Type} {held : α → Node → Int} (nonneg : ∀ value node, 0 ≤ held value node)
    (result : Except Errno α) (node : Node) : 0 ≤ handed held result node := by
  cases result with
  | ok value => exact nonneg value node
  | error _ => exact le_rfl

theorem moves_referenceTaken {ino : Nat} {sfs : SfsFs} {opened : Node → Nat}
    (elsewhere : ∀ node, node ≠ .sfs ino → opened node = vfs.openCounts node)
    (here : opened (.sfs ino) = vfs.openCount (.sfs ino))
    (taken : ReferenceTaken ino vfs.sfs sfs) :
    Moves (just (.sfs ino)) 0 vfs { vfs with sfs := sfs, openCounts := opened } := by
  obtain ⟨others, sin', found, before⟩ := taken
  have only : OnlyInode ino vfs { vfs with sfs := sfs, openCounts := opened } :=
    ⟨rfl, rfl, rfl, rfl, elsewhere, others⟩
  rw [just, ← Pi.single_zero (.sfs ino : Node)]
  refine only.moves ?_ ?_ ?_ ?_
  · rw [refCount_loaded found]
    rcases before with ⟨sin, loaded, same⟩ | ⟨absent, one, _⟩
    · rw [refCount_loaded loaded, show sin'.refCount = sin.refCount + 1 from congrArg Prod.fst same]
      rfl
    · rw [refCount_absent absent, one]
      rfl
  · rw [openCount_loaded found, add_zero]
    exact congrArg Nat.cast here
  · intro before' later isBefore isLater _ _
    obtain rfl := Option.some.inj (found.symm.trans isLater)
    rcases before with ⟨sin, loaded, same⟩ | ⟨absent, _⟩
    · obtain rfl := Option.some.inj (loaded.symm.trans isBefore)
      exact congrArg (fun label => label.2.1) same
    · cases absent.symm.trans isBefore
  · intro later isLater
    obtain rfl := Option.some.inj (found.symm.trans isLater)
    rcases before with ⟨sin, loaded, same⟩ | ⟨_, _, proper⟩
    · have rest : (identity sin').2 = (sin.refCount + 1, (identity sin).2).2 :=
        congrArg Prod.snd same
      exact Or.inr ⟨sin, loaded, rest⟩
    · exact Or.inl proper

theorem meets_lift_loadInode (ino : Nat) :
    Meets NotMissing (liftSfs (sfsLoadInode ino)) vfs fun result after =>
      match result with
      | .ok _ => after = { vfs with sfs := after.sfs } ∧ ReferenceTaken ino vfs.sfs after.sfs
      | .error _ => Moves 0 0 vfs after := by
  apply meets_lift notMissing_sfs
  apply (ensures_loadInode_identity ino).weaken id
  intro result sfs post
  cases result with
  | ok _ => exact ⟨rfl, post⟩
  | error _ => exact Moves.of_same post

/-- `sfs_load_inode` -/
theorem meets_loadInode (ino : Nat) :
    Meets NotMissing (loadInode ino) vfs fun result after =>
      Moves (handed (fun _ => just (.sfs ino)) result) 0 vfs after := by
  apply meets_read
  cases loaded : vfs.sfs.inodes ino with
  | some sin =>
      apply (meets_lift_loadInode ino).weaken fun _ => id
      intro result after post
      cases result with
      | ok _ =>
          obtain ⟨same, taken⟩ := post
          have moves := moves_referenceTaken (fun _ _ => rfl) (openCount_loaded loaded).symm taken
          rw [same]
          exact moves
      | error _ => exact post
  | none =>
      apply meets_bind meets_kmalloc _ fun _ _ only => only.moves
      intro _ middle only
      apply meets_bind meets_kmallocAnswer _ fun _ _ changed => only.moves.zero changed.2.moves
      rintro answer middle' ⟨_, more⟩
      have memory := only.trans more
      have absent : middle'.sfs.inodes ino = none := by
        obtain ⟨_, rfl⟩ := memory
        exact loaded
      split_ifs
      · apply meets_bind (meets_lift_loadInode ino)
        · rintro _ after ⟨same, taken⟩
          refine meets_modify_last (memory.moves.zero ?_)
          have moves := @moves_referenceTaken middle' ino after.sfs
            (Function.update middle'.openCounts (.sfs ino) 0)
            (fun other apart => Function.update_of_ne apart _ _)
            ((Function.update_self ..).trans (openCount_absent absent).symm) taken
          rw [same]
          exact moves
        · exact fun _ _ moves => memory.moves.zero moves
      · exact meets_bind_keeps (keeps_readDin ino)
          (fun _ _ moves => meets_fail (memory.moves.zero moves))
          fun _ _ moves => memory.moves.zero moves

/-- `sfs_lookup_once`: a success is an inode of the file system. -/
theorem meets_lookupOnce (ino : Nat) (name : List UInt8) :
    Meets NotMissing (sfsLookupOnce ino name) vfs fun result after =>
      Moves (handed just result) 0 vfs after := by
  have search : Meets NotMissing (sfsDirentSearchNolock ino name) vfs fun _ after =>
      Moves 0 0 vfs after := by
    apply meets_require _ fun _ => notMissing_sfs _
    intro _
    apply meets_bind meets_kmalloc _ fun _ _ only => only.moves
    intro _ middle only
    have keeps : KeepsIdentities (do
        let sin ← getSin ino
        direntSearch ino name 0 sin.din.blocks : SfsM Nat) :=
      KeepsViews.bind (KeepsViews.lookSin ino) fun _ => keeps_direntSearch _ _ _ _
    exact (meets_keeps keeps).weaken (fun _ => id) fun _ _ moves => only.moves.zero moves
  apply meets_bind search _ fun _ _ moves => moves
  intro found middle searched
  apply meets_bind (meets_loadInode found)
  · exact fun _ after taken => meets_pure (searched.zero taken)
  · exact fun _ after taken => searched.zero taken

/-- A reference that was taken is dropped again. -/
theorem meets_bind_refDec {α : Type} {start : VfsState} {second : Unit → VfsM α}
    {post : Except Errno α → VfsState → Prop} (sound : Sound start)
    (taken : Moves refs opens start vfs) (kept : 1 ≤ refs node)
    (rest : ∀ after, Moves (refs + -just node) opens start after →
      Meets NotMissing (second ()) after post) :
    Meets NotMissing (inodeRefDec node >>= second) vfs post := by
  have alive : ∀ device, node = .device device → 1 < vfs.refCount node := by
    rintro device rfl
    have counted := taken.refCount (.device device)
    have := sound.devices device
    simp only [VfsState.refCount] at counted ⊢
    omega
  apply meets_bind_of_run (meets_refDec (taken.sound sound) alive)
  rintro _ after ⟨rfl, dropped⟩
  refine ⟨(), rfl, rest after ((taken.trans dropped (Or.inr ?_)).congr rfl (add_zero _))⟩
  intro other
  have := just_nonneg node other
  rw [Pi.neg_apply]
  omega

/-- `sfs_lookup` on an inode that is referenced. -/
theorem meets_sfsLookup {ino : Nat} (sound : Sound vfs) (referenced : 0 < vfs.refCount (.sfs ino)) :
    Meets NotMissing (sfsLookup ino path) vfs fun result after =>
      Moves (handed just result) 0 vfs after := by
  apply meets_require _ fun _ => notMissing_sfs _
  intro _
  apply meets_bind_of_run meets_refInc
  rintro _ middle ⟨rfl, taken⟩
  refine ⟨(), rfl, ?_⟩
  have once : 1 ≤ just (.sfs ino) (.sfs ino) := just_self.ge
  have counted := taken.refCount (.sfs ino)
  obtain ⟨sin, loaded, _⟩ := loaded_of_refCount (show 0 < middle.refCount (.sfs ino) by omega)
  apply meets_bind_run (run_lift_getSin loaded)
  split_ifs
  · apply meets_bind_refDec sound taken once
    intro after moves
    exact meets_fail (moves.congr (add_neg_cancel _) rfl)
  · apply meets_bind_attempt (meets_lookupOnce ino path)
    intro result middle' found
    have both := taken.trans found (Or.inl (just_nonneg _))
    have nonneg := handed_nonneg just_nonneg result (.sfs ino)
    have enough : 1 ≤ (just (.sfs ino) + handed just result) (.sfs ino) := by
      rw [Pi.add_apply, just_self]
      omega
    have net : just (.sfs ino) + handed just result + -just (.sfs ino) = handed just result := by
      rw [add_neg_cancel_comm]
    cases result with
    | error errno =>
        apply meets_bind_refDec sound both enough
        intro after moves
        exact meets_fail (moves.congr net rfl)
    | ok subnode =>
        apply meets_bind_refDec sound both enough
        intro after moves
        exact meets_pure (moves.congr net rfl)

/-- `vop_lookup` of a node whose table has it. -/
theorem meets_vopLookup (sound : Sound vfs) (referenced : 0 < vfs.refCount node)
    (present : .vopLookup ∈ vfs.inOps node) :
    Meets NotMissing (vopLookup node path) vfs fun result after =>
      Moves (handed just result) 0 vfs after := by
  apply meets_bind_vopOp present
  cases node with
  | device device =>
      split_ifs
      · exact meets_fail Moves.refl
      · apply meets_bind_of_run meets_refInc
        rintro _ after ⟨rfl, taken⟩
        exact ⟨(), rfl, meets_pure taken⟩
  | sfs ino => exact meets_sfsLookup sound referenced

/-! ## Where a path starts -/

/-- A directory in use. -/
def Directory (vfs : VfsState) (node : Node) : Prop :=
  0 < vfs.refCount node ∧ vfs.inOps node = sfsNodeDirops

theorem Directory.lookup (directory : Directory vfs node) : .vopLookup ∈ vfs.inOps node := by
  rw [directory.2]
  decide

theorem Moves.directory (moves : Moves refs opens vfs after) (directory : Directory vfs node)
    (still : 0 < after.refCount node) : Directory after node :=
  ⟨still, (moves.inOps directory.1 still).trans directory.2⟩

/-- The working directory of a process is a directory, as are the boot file system and the root. -/
structure Starts (vfs : VfsState) (filesp : Nat) : Prop where
  pwd : ∀ files node, vfs.files filesp = some files → files.pwd = some node → Directory vfs node
  bootfs : ∀ node, vfs.bootfs = some node → Directory vfs node
  root : Directory vfs (.sfs sfsBlknRoot)

theorem meets_bind_getFiles {α : Type} {stops : VfsStop → Prop} {second : Files → VfsM α}
    {post : Except Errno α → VfsState → Prop} (plain : ∀ stop, Plain stop → stops stop)
    (rest : ∀ files, vfs.files filesp = some files → Meets stops (second files) vfs post) :
    Meets stops (getFiles filesp >>= second) vfs post := by
  cases found : vfs.files filesp with
  | none =>
      have ran : getFiles filesp vfs = .error (.other .panicked) := by
        simp only [getFiles, Bind.bind, Program.bind, Program.read, found]
        rfl
      unfold Meets
      simp only [Bind.bind, Program.bind, ran]
      exact plain _ (Or.inr ⟨_, rfl⟩)
  | some files =>
      have ran : getFiles filesp vfs = .ok (.ok files, vfs) := by
        simp only [getFiles, Bind.bind, Program.bind, Program.read, found]
        rfl
      exact meets_bind_run ran (rest files found)

/-- What a function that hands out a directory or a device leaves. -/
def HandsOut (vfs : VfsState) (result : Except Errno Node) (after : VfsState) : Prop :=
  Moves (handed just result) 0 vfs after ∧
    ∀ node, result = .ok node → .vopLookup ∈ after.inOps node

theorem handsOut_taken (directory : Directory vfs node) (taken : Moves (just node) 0 vfs after) :
    HandsOut vfs (.ok node) after := by
  refine ⟨taken, ?_⟩
  rintro _ ⟨⟩
  have counted := taken.refCount node
  rw [just_self] at counted
  exact (taken.directory directory (by omega)).lookup

theorem meets_getCurdir (starts : Starts vfs filesp) :
    Meets NotMissing (vfsGetCurdir filesp) vfs (HandsOut vfs) := by
  apply meets_bind_getFiles notMissing_plain
  intro files found
  cases isPwd : files.pwd with
  | none => exact meets_fail ⟨Moves.refl, fun _ impossible => nomatch impossible⟩
  | some node =>
      apply meets_bind_of_run meets_refInc
      rintro _ after ⟨rfl, taken⟩
      exact ⟨(), rfl, meets_pure (handsOut_taken (starts.pwd files node found isPwd) taken)⟩

theorem meets_getBootfs (starts : Starts vfs filesp) :
    Meets NotMissing vfsGetBootfs vfs (HandsOut vfs) := by
  apply meets_read
  cases isBoot : vfs.bootfs with
  | none => exact meets_fail ⟨Moves.refl, fun _ impossible => nomatch impossible⟩
  | some node =>
      apply meets_bind_of_run meets_refInc
      rintro _ after ⟨rfl, taken⟩
      exact ⟨(), rfl, meets_pure (handsOut_taken (starts.bootfs node isBoot) taken)⟩

theorem meets_getRoot (root : Directory vfs (.sfs sfsBlknRoot)) :
    Meets NotMissing sfsGetRoot vfs fun result after =>
      result = .ok (.sfs sfsBlknRoot) ∧ HandsOut vfs result after := by
  apply meets_bind_attempt (meets_loadInode sfsBlknRoot)
  intro result after taken
  cases result with
  | error _ => exact notMissing_other _
  | ok _ => exact meets_pure ⟨rfl, handsOut_taken root taken⟩

theorem meets_vfsGetRoot {devname : Path} (root : Directory vfs (.sfs sfsBlknRoot)) :
    Meets NotMissing (vfsGetRoot devname) vfs (HandsOut vfs) := by
  have device : ∀ device : Device, Meets NotMissing (inodeRefInc (.device device) >>= fun _ =>
      (pure (.device device) : VfsM Node)) vfs (HandsOut vfs) := by
    intro device
    apply meets_bind_of_run meets_refInc
    rintro _ after ⟨rfl, taken⟩
    refine ⟨(), rfl, meets_pure ⟨taken, ?_⟩⟩
    rintro _ ⟨⟩
    exact (by decide : .vopLookup ∈ devNodeOps)
  unfold vfsGetRoot
  split_ifs
  · exact (meets_getRoot root).weaken (fun _ => id) fun _ _ post => post.2
  · exact device .stdout
  · exact device .stdin
  · exact meets_fail ⟨Moves.refl, fun _ impossible => nomatch impossible⟩

/-- `get_device`: the start of the lookup is handed out. -/
theorem meets_getDevice (sound : Sound vfs) (starts : Starts vfs filesp) :
    Meets NotMissing (getDevice filesp path) vfs fun result after =>
      HandsOut vfs (result.map Prod.fst) after := by
  have withRest : ∀ {program : VfsM Node} (rest : Path), Meets NotMissing program vfs (HandsOut vfs) →
      Meets NotMissing (program >>= fun node => pure (node, rest)) vfs fun result after =>
        HandsOut vfs (result.map Prod.fst) after := by
    intro program rest meets
    exact meets_bind meets (fun _ _ post => meets_pure post) fun _ _ post => post
  unfold getDevice
  simp only []
  cases path.drop (pathHead path).length with
  | nil => exact withRest _ (meets_getCurdir starts)
  | cons stopped rest =>
      simp only []
      split_ifs
      · exact withRest _ (meets_getCurdir starts)
      · exact withRest _ (meets_getBootfs starts)
      · exact withRest _ (meets_vfsGetRoot starts.root)
      · apply meets_bind (meets_getCurdir starts)
        · intro node middle curdir
          have rootHere : Directory middle (.sfs sfsBlknRoot) := by
            have counted := curdir.1.refCount (.sfs sfsBlknRoot)
            have nonneg := just_nonneg node (.sfs sfsBlknRoot)
            have positive := starts.root.1
            exact curdir.1.directory starts.root (by simp only [handed] at counted; omega)
          cases node with
          | device device => exact notMissing_other _
          | sfs ino =>
              apply meets_bind_of_run (meets_getRoot rootHere)
              rintro _ middle' ⟨rfl, root⟩
              refine ⟨_, rfl, ?_⟩
              have both := curdir.1.trans root.1 (Or.inl (just_nonneg _))
              apply meets_bind_refDec sound both
              · simp only [handed, Pi.add_apply, just_self]
                have := just_nonneg (.sfs sfsBlknRoot) (.sfs ino)
                omega
              · intro after moves
                refine meets_pure (handsOut_taken starts.root (moves.congr ?_ (add_zero _)))
                simp only [handed]
                rw [add_neg_cancel_comm]
        · exact fun _ _ post => post

/-- `vfs_lookup` -/
theorem meets_vfsLookup (sound : Sound vfs) (starts : Starts vfs filesp) :
    Meets NotMissing (vfsLookup filesp path) vfs fun result after =>
      Moves (handed just result) 0 vfs after := by
  apply meets_bind (meets_getDevice sound starts)
  · rintro ⟨node, rest⟩ middle ⟨taken, lookup⟩
    have present := lookup node rfl
    change Moves (just node) 0 vfs middle at taken
    have counted := taken.refCount node
    rw [just_self] at counted
    simp only []
    split_ifs
    · apply meets_bind_attempt
        (meets_vopLookup (taken.sound sound) (by omega) present)
      intro result middle' found
      have both := taken.trans found (Or.inl (just_nonneg _))
      have nonneg := handed_nonneg just_nonneg result node
      have enough : 1 ≤ (just node + handed just result) node := by
        rw [Pi.add_apply, just_self]
        omega
      have net : just node + handed just result + -just node = handed just result := by
        rw [add_neg_cancel_comm]
      cases result with
      | error errno =>
          apply meets_bind_refDec sound both enough
          intro after moves
          exact meets_fail (moves.congr net (add_zero _))
      | ok found =>
          apply meets_bind_refDec sound both enough
          intro after moves
          exact meets_pure (moves.congr net (add_zero _))
    · exact meets_pure taken
  · exact fun _ _ post => post.1

/-! ## Opening -/

theorem Starts.moves (starts : Starts vfs filesp) (moves : Moves refs opens vfs after)
    (nonneg : ∀ node, 0 ≤ refs node) : Starts after filesp := by
  have still : ∀ {node}, Directory vfs node → Directory after node := by
    intro node directory
    have counted := moves.refCount node
    have positive := directory.1
    have := nonneg node
    exact moves.directory directory (by omega)
  refine ⟨?_, ?_, still starts.root⟩
  · intro files node found isPwd
    exact still (starts.pwd files node (moves.files ▸ found) isPwd)
  · intro node isBoot
    exact still (starts.bootfs node (moves.bootfs ▸ isBoot))

theorem hasFlag_or {flags flag other : Nat} (neither : ¬ hasFlag flags (flag ||| other) = true) :
    ¬ hasFlag flags flag = true ∧ ¬ hasFlag flags other = true := by
  unfold hasFlag at *
  rw [decide_eq_true_eq, not_not, Nat.and_or_distrib_left, Nat.or_eq_zero_iff] at neither
  rw [decide_eq_true_eq, decide_eq_true_eq, not_not, not_not]
  exact neither

/-- `vop_open`: a directory is opened for reading only, and a device is neither created nor cut. -/
theorem meets_vopOpen {openFlags : Nat} (sound : Sound vfs) (referenced : 0 < vfs.refCount node) :
    Meets NotMissing (vopOpen node openFlags) vfs fun result after => after = vfs ∧
      (result = .ok () →
        (vfs.inOps node = sfsNodeDirops →
          accmode openFlags = oRdonly ∧ ¬ hasFlag openFlags oAppend = true) ∧
        (vfs.inOps node = devNodeOps →
          ¬ hasFlag openFlags oCreat = true ∧ ¬ hasFlag openFlags oTrunc = true)) := by
  apply meets_bind_vopOp (sound.common referenced (by decide))
  cases node with
  | device device =>
      have table : vfs.inOps (.device device) ≠ sfsNodeDirops := by
        change devNodeOps ≠ sfsNodeDirops
        decide
      by_cases refused : hasFlag openFlags (oCreat ||| oTrunc ||| oExcl ||| oAppend) = true
      · simp only [if_pos refused]
        exact meets_fail ⟨rfl, by rintro ⟨⟩⟩
      · have flags := hasFlag_or (hasFlag_or (hasFlag_or refused).1).1
        simp only [if_neg refused]
        cases device <;> simp only [] <;> split_ifs
        · exact meets_fail ⟨rfl, by rintro ⟨⟩⟩
        · exact meets_pure ⟨rfl, fun _ => ⟨fun isDir => absurd isDir table, fun _ => flags⟩⟩
        · exact meets_fail ⟨rfl, by rintro ⟨⟩⟩
        · exact meets_pure ⟨rfl, fun _ => ⟨fun isDir => absurd isDir table, fun _ => flags⟩⟩
  | sfs ino =>
      obtain ⟨sin, loaded, _⟩ := loaded_of_refCount referenced
      apply meets_bind_run (run_lift_getSin loaded)
      have table : vfs.inOps (.sfs ino) =
          if sin.din.type = sfsTypeDir then sfsNodeDirops else sfsNodeFileops := by
        simp only [VfsState.inOps, loaded]
      split_ifs with isDir readsOnly appends
      · exact meets_fail ⟨rfl, by rintro ⟨⟩⟩
      · exact meets_fail ⟨rfl, by rintro ⟨⟩⟩
      · refine meets_pure ⟨rfl, fun _ => ⟨fun _ => ⟨not_not.mp readsOnly, appends⟩, ?_⟩⟩
        rw [table, if_pos isDir]
        rintro ⟨⟩
      · refine meets_pure ⟨rfl, fun _ => ?_⟩
        rw [table, if_neg isDir]
        exact ⟨(by rintro ⟨⟩), by rintro ⟨⟩⟩

theorem meets_vopTruncate {len : Int} (present : .vopTruncate ∈ vfs.inOps node) :
    Meets NotMissing (vopTruncate node len) vfs fun _ after => Moves 0 0 vfs after := by
  apply meets_bind_vopOp present
  cases node with
  | device device => exact absurd present (by change .vopTruncate ∉ devNodeOps; decide)
  | sfs ino => exact meets_keeps (KeepsViews.truncfile ino len)

/-- No table has `vop_create`. -/
theorem no_create (vfs : VfsState) (node : Node) : .vopCreate ∉ vfs.inOps node := by
  cases node with
  | device device =>
      change .vopCreate ∉ devNodeOps
      decide
  | sfs ino =>
      simp only [VfsState.inOps]
      cases vfs.sfs.inodes ino with
      | none => exact List.not_mem_nil
      | some sin =>
          simp only []
          split_ifs <;> decide

/-- A table without `vop_truncate` is that of a device or a directory. -/
theorem Sound.no_truncate (sound : Sound vfs) (referenced : 0 < vfs.refCount node)
    (missing : .vopTruncate ∉ vfs.inOps node) :
    vfs.inOps node = devNodeOps ∨ vfs.inOps node = sfsNodeDirops := by
  rcases sound.inOps referenced with ⟨_, _, ops⟩ | ⟨_, _, _, _, ⟨_, ops⟩ | ⟨_, ops⟩⟩
  · exact Or.inl ops
  · exact Or.inr ops
  · exact absurd (ops ▸ by decide) missing

/-- The path names nothing, in a directory where it could be created. -/
def CreatesMissing (vfs : VfsState) (filesp : Nat) (path : Path) : Prop :=
  ∃ after dir rest final, vfsLookup filesp path vfs = .ok (.error .noEnt, after) ∧
    vfsLookupParent filesp (lookedUpPath path) after = .ok (.ok (dir, rest), final)

/-- The path names a directory, which is opened for reading. -/
def TruncatesDirectory (vfs : VfsState) (filesp : Nat) (path : Path) (openFlags : Nat) : Prop :=
  ∃ after node, vfsLookup filesp path vfs = .ok (.ok node, after) ∧
    after.inOps node = sfsNodeDirops ∧ accmode openFlags = oRdonly ∧
    ¬ hasFlag openFlags oExcl = true ∧ ¬ hasFlag openFlags oAppend = true

/-- The flags that `vfs_open` lets through. -/
def ValidFlags (openFlags : Nat) : Prop :=
  (accmode openFlags = oRdonly ∨ accmode openFlags = oWronly ∨ accmode openFlags = oRdwr) ∧
    (hasFlag openFlags oTrunc = true → accmode openFlags ≠ oRdonly)

/-- With `O_CREAT`, the open is neither of a path that names nothing nor of a directory that
`vop_open` accepts. -/
def OpenFindsOps (vfs : VfsState) (filesp : Nat) (path : Path) (openFlags : Nat) : Prop :=
  ValidFlags openFlags → hasFlag openFlags oCreat = true →
    ¬ CreatesMissing vfs filesp path ∧ ¬ TruncatesDirectory vfs filesp path openFlags

/-- An exclusive creation of what exists. -/
def CreatesExisting (vfs : VfsState) (filesp : Nat) (path : Path) (openFlags : Nat) : Prop :=
  ValidFlags openFlags ∧ hasFlag openFlags oExcl = true ∧ hasFlag openFlags oCreat = true ∧
    ∃ node after, vfsLookup filesp path vfs = .ok (.ok node, after)

/-- What `vfs_open` leaves. An exclusive creation of what exists keeps the reference to it. -/
def OpenPost (vfs : VfsState) (filesp : Nat) (path : Path) (openFlags : Nat)
    (result : Except Errno Node) (after : VfsState) : Prop :=
  match result with
  | .ok node => Moves (just node) (just node) vfs after ∧
      (accmode openFlags ≠ oRdonly → after.inOps node ≠ sfsNodeDirops)
  | .error ret => Moves 0 0 vfs after ∨ ret = .alreadyExists ∧
      CreatesExisting vfs filesp path openFlags ∧ ∃ node, Moves (just node) 0 vfs after

theorem meets_vfsOpenNode {openFlags : Nat} (sound : Sound vfs) (starts : Starts vfs filesp)
    (valid : ValidFlags openFlags) :
    Meets (fun stop => OpenFindsOps vfs filesp path openFlags → NotMissing stop)
      (vfsOpenNode filesp path openFlags) vfs (OpenPost vfs filesp path openFlags) := by
  have allow : ∀ {α : Type} {state : VfsState} {program : VfsM α}
      {post : Except Errno α → VfsState → Prop}, Meets NotMissing program state post →
      Meets (fun stop => OpenFindsOps vfs filesp path openFlags → NotMissing stop) program state
        post := fun meets => meets.weaken (fun _ found _ => found) fun _ _ => id
  apply meets_bind_attempt (allow (meets_vfsLookup sound starts).withRun)
  rintro (ret | node) middle ⟨ran, looked⟩
  · change Moves 0 0 vfs middle at looked
    simp only []
    by_cases creates : ret = .noEnt ∧ hasFlag openFlags oCreat = true
    · rw [if_pos creates]
      have starts' := starts.moves looked fun _ => le_rfl
      apply meets_bind (allow (meets_getDevice (looked.sound sound) starts').withRun)
      · rintro ⟨dir, rest⟩ final ⟨found, _⟩
        have missing : ¬ OpenFindsOps vfs filesp path openFlags := by
          intro finds
          exact (finds valid creates.2).1 ⟨middle, dir, rest, final, creates.1 ▸ ran, found⟩
        exact meets_bind_missing (no_create final dir) fun finds => absurd finds missing
      · rintro errno after ⟨_, moves⟩
        exact Or.inl (looked.zero moves.1)
    · rw [if_neg creates]
      exact meets_fail (Or.inl looked)
  · change Moves (just node) 0 vfs middle at looked
    have counted := looked.refCount node
    rw [just_self] at counted
    have referenced : 0 < middle.refCount node := by omega
    simp only []
    by_cases exclusive : hasFlag openFlags oExcl = true ∧ hasFlag openFlags oCreat = true
    · rw [if_pos exclusive]
      exact meets_fail (Or.inr ⟨rfl, ⟨valid, exclusive.1, exclusive.2, node, middle, ran⟩, node,
        looked⟩)
    · rw [if_neg exclusive]
      apply meets_bind_attempt (allow (meets_vopOpen (looked.sound sound) referenced))
      rintro (ret | ⟨⟩) found ⟨rfl, opened⟩
      · apply allow
        apply meets_bind_refDec sound looked just_self.ge
        intro after moves
        exact meets_fail (Or.inl (moves.congr (add_neg_cancel _) rfl))
      · obtain ⟨forDirectory, forDevice⟩ := opened rfl
        apply meets_bind_of_run (allow (meets_openInc referenced))
        rintro _ held ⟨rfl, counted⟩
        refine ⟨(), rfl, ?_⟩
        have both : Moves (just node) (just node) vfs held :=
          (looked.trans counted (Or.inl (just_nonneg node))).congr (add_zero _) (zero_add _)
        have kept : ∀ {final : VfsState}, Moves 0 0 held final →
            Moves (just node) (just node) vfs final ∧
              (accmode openFlags ≠ oRdonly → final.inOps node ≠ sfsNodeDirops) := by
          intro final moves
          have total := both.andZero moves
          refine ⟨total, ?_⟩
          intro notReading isDir
          have later := total.refCount node
          rw [just_self] at later
          have same := (counted.andZero moves).inOps referenced (by omega)
          exact notReading (forDirectory (same.symm.trans isDir)).1
        by_cases cuts : hasFlag openFlags oTrunc = true ∨ hasFlag openFlags oCreat = true
        · rw [if_pos cuts]
          by_cases present : .vopTruncate ∈ held.inOps node
          · apply meets_bind_attempt (allow (meets_vopTruncate present))
            rintro (ret | ⟨⟩) final cut
            · have total := both.andZero cut
              have later := total.refCount node
              rw [just_self] at later
              apply allow
              apply meets_bind_of_run (meets_openDec (total.sound sound) (by omega))
              rintro _ closed ⟨rfl, released⟩
              refine ⟨(), rfl, ?_⟩
              have back : Moves (just node) 0 vfs closed := by
                refine (total.trans released (Or.inr fun _ => le_rfl)).congr (add_zero _) ?_
                exact add_neg_cancel _
              apply meets_bind_refDec sound back just_self.ge
              intro after moves
              exact meets_fail (Or.inl (moves.congr (add_neg_cancel _) rfl))
            · exact meets_pure (kept cut)
          · have missing : ¬ OpenFindsOps vfs filesp path openFlags := by
              have same := counted.inOps referenced (by
                have := counted.refCount node
                rw [Pi.zero_apply] at this
                omega)
              rw [same] at present
              intro finds
              rcases (looked.sound sound).no_truncate referenced present with isDevice | isDir
              · exact cuts.elim (forDevice isDevice).2 (forDevice isDevice).1
              · obtain ⟨reading, plain⟩ := forDirectory isDir
                rcases cuts with truncates | creates
                · exact valid.2 truncates reading
                · refine (finds valid creates).2 ⟨found, node, ran, isDir, reading, ?_, plain⟩
                  exact fun excl => exclusive ⟨excl, creates⟩
            have stuck : Meets (fun stop => OpenFindsOps vfs filesp path openFlags →
                NotMissing stop) (vopTruncate node 0) held fun _ _ => False :=
              meets_bind_missing present fun finds => absurd finds missing
            exact meets_bind_attempt stuck fun _ _ impossible => impossible.elim
        · rw [if_neg cuts]
          exact meets_pure (kept Moves.refl)

/-- `vfs_open` -/
theorem meets_vfsOpen {openFlags : Nat} (sound : Sound vfs) (starts : Starts vfs filesp) :
    Meets (fun stop => OpenFindsOps vfs filesp path openFlags → NotMissing stop)
      (vfsOpen filesp path openFlags) vfs (OpenPost vfs filesp path openFlags) := by
  unfold vfsOpen
  simp only []
  split_ifs with invalid refused
  · exact meets_fail (Or.inl Moves.refl)
  · exact meets_fail (Or.inl Moves.refl)
  · apply meets_vfsOpenNode sound starts
    constructor
    · by_cases writes : accmode openFlags = oWronly ∨ accmode openFlags = oRdwr
      · exact Or.inr writes
      · exact Or.inl (not_not.mp fun other => invalid ⟨writes, other⟩)
    · intro truncates reading
      apply refused
      refine ⟨truncates, ?_⟩
      rw [reading]
      decide

/-- `vfs_close` of an inode that a descriptor holds. -/
theorem meets_vfsClose (sound : Sound vfs)
    (alive : ∀ device, node = .device device → 1 < vfs.refCount node)
    (referenced : 0 < vfs.refCount node) :
    Meets NotMissing (vfsClose node) vfs fun result after =>
      result = .ok () ∧ Moves (-just node) (-just node) vfs after := by
  apply meets_bind_of_run (meets_openDec sound referenced)
  rintro _ middle ⟨rfl, closed⟩
  refine ⟨(), rfl, ?_⟩
  have same := closed.refCount node
  rw [Pi.zero_apply] at same
  have still : ∀ device, node = .device device → 1 < middle.refCount node := by
    intro device isDevice
    have := alive device isDevice
    omega
  apply (meets_refDec (closed.sound sound) still).weaken fun _ => id
  rintro result after ⟨rfl, dropped⟩
  refine ⟨rfl, (closed.trans dropped (Or.inl fun _ => le_rfl)).congr (zero_add _) (add_zero _)⟩

end UCore.Vfs
