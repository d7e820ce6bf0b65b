import UCore.Process.LoadIcode
import UCore.Vfs.IoAccounting

/-!
Contract: `load_icode_read` of `kern/process/proc.c`, over `file_seek` and `sysfile_read`.

Owns:
- the call itself, which runs while `current->mm` is `NULL`;
- that it answers 0 only when it has put bytes of the file into the buffer, all of them there;
- the program file whose reads are such calls.

Does not own: what `load_icode` makes of the bytes.
-/

set_option autoImplicit false

namespace UCore.Process

open UCore.Lib UCore.Lib.Program UCore.Fs UCore.Mm UCore.Vfs

/-- `load_icode_read`, for a `len` that is an `int`. The failure `none` is `-1`. -/
def loadIcodeRead (filesp : Nat) (fd : Int) (buf len : Nat) (offset : Int) :
    VfsM (Except (Option Errno) (List UserWrite)) := do
  match ← Program.attempt (fileSeek filesp fd offset .set) with
  | .error errno => pure (.error (some errno))
  | .ok () => do
      let (ret, writes) ← userRead none filesp fd buf len
      match ret with
      | .error errno => pure (.error (some errno))
      | .ok copied => if copied ≠ len then pure (.error none) else pure (.ok writes)

variable {vfs after : VfsState} {filesp ino buf len : Nat} {fd offset : Int} {content : Bytes}
  {node : Node} {inos : List Nat} {sfs : SfsFs} {sin : SfsInode}

/-! ## The seek -/

theorem ensures_vopTryseek : Ensures True (vopTryseek node offset) vfs fun result after =>
    ∃ sfs', after = { vfs with sfs := sfs' } ∧ SeekOutcome vfs.sfs node offset result sfs' := by
  apply ensures_bind ensures_vopOp
  · rintro _ state ⟨_, same⟩
    rw [same]
    cases node with
    | device device => exact ensures_fail ⟨_, rfl, rfl, rfl⟩
    | sfs ino =>
        cases ran : sfsTryseek ino offset vfs.sfs with
        | error reason =>
            have stopped : liftSfs (sfsTryseek ino offset) vfs = .error (.sfs reason) := by
              simp only [liftSfs, ran]
            exact ensures_of_stop stopped trivial
        | ok pair =>
            obtain ⟨result, sfs'⟩ := pair
            have sought : liftSfs (sfsTryseek ino offset) vfs =
                .ok (result, { vfs with sfs := sfs' }) := by simp only [liftSfs, ran]
            exact ensures_of_run sought ⟨sfs', rfl, ran⟩
  · rintro _ _ ⟨impossible, _⟩
    cases impossible

/-- A seek to `offset` that was not refused. -/
theorem ensures_fileSeek : Ensures True (fileSeek filesp fd offset .set) vfs fun result after =>
    result = .ok () → after.position filesp fd = offset ∧
      after.nodeAt filesp fd = vfs.nodeAt filesp fd ∧
      ∀ ino, vfs.nodeAt filesp fd = some (.sfs ino) →
        sfsTryseek ino offset vfs.sfs = .ok (.ok (), after.sfs) := by
  apply ensures_bind ensures_fd2file
  · rintro index state ⟨same, isIndex⟩
    obtain ⟨rfl, files, found, isOpen⟩ := isIndex index rfl
    rw [same]
    refine Ensures.weaken (@ensures_withFile vfs filesp files Unit _ fd.toNat _
      (fun result pos middle => result = .ok () → pos = offset ∧
        ∃ node, (files.fdArray fd.toNat).node = some node ∧
          SeekOutcome vfs.sfs node offset (.ok ()) middle.sfs) found rfl isOpen ?_)
      (fun _ => trivial) ?_
    · cases held : (files.fdArray fd.toNat).used.node with
      | none =>
          have stopped : ∀ state, fileNode (files.fdArray fd.toNat).used state =
              .error (.other .panicked) := by
            intro state
            rw [fileNode, held]
            rfl
          exact ensures_bind_stop (stopped _) trivial
      | some node =>
          have sought := @ensures_vopTryseek (vfs.setFile filesp files fd.toNat
            (files.fdArray fd.toNat).used) offset node
          apply ensures_bind_run (run_fileNode held)
          apply ensures_bind_run (show seekTarget _ _ _ _ _ = .ok (.ok offset, _) from rfl)
          have here : ∀ sfs', VfsState.files { vfs.setFile filesp files fd.toNat
              (files.fdArray fd.toNat).used with sfs := sfs' } filesp =
              some (files.setFile fd.toNat (files.fdArray fd.toNat).used) :=
            fun _ => setFile_found
          apply ensures_bind sought
          · rintro _ _ ⟨sfs', rfl, outcome⟩
            apply ensures_bind_run (run_getFile (here sfs'))
            apply ensures_of_run (run_setFile (here sfs'))
            rw [Files.setFile_self]
            exact ⟨_, offset, rfl, fun _ => ⟨rfl, node, held, outcome⟩⟩
          · rintro errno _ ⟨sfs', rfl, _⟩
            have still := @setFile_same _ filesp fd.toNat _ (here sfs')
            rw [Files.setFile_self] at still
            exact ⟨_, (files.fdArray fd.toNat).pos, still.symm, by rintro ⟨⟩⟩
    · rintro result after ⟨middle, pos, rfl, outcome⟩ succeeds
      obtain ⟨rfl, node, held, sought⟩ := outcome succeeds
      refine ⟨position_setFile, nodeAt_setFile.trans (nodeAt_found found).symm, fun ino isFile => ?_⟩
      rw [nodeAt_found found, held] at isFile
      cases isFile
      exact sought
  · rintro errno _ ⟨rfl, _⟩ ⟨⟩

/-- A seek that was not refused left the file alone, or enlarged it up to there. -/
theorem tryseek_done {sfs' : SfsFs} (loaded : sfs.inodes ino = some sin)
    (ran : sfsTryseek ino offset sfs = .ok (.ok (), sfs')) :
    0 ≤ offset ∧ offset < sfsMaxFileSize ∧ (sfs' = sfs ∨ ∃ sin',
      sfs'.inodes ino = some sin' ∧ (sin'.din.size : Int) = offset) := by
  by_cases invalid : offset < 0 ∨ offset ≥ sfsMaxFileSize
  · rw [sfsTryseek, if_pos invalid] at ran
    cases ran
  refine ⟨by omega, by omega, ?_⟩
  by_cases beyond : (sin.din.size : Int) ≤ offset
  · exact Or.inr ((ensures_tryseek_end loaded beyond).of_ok ran)
  · rw [sfsTryseek, if_neg invalid, bind_run (run_getSin loaded), if_neg (by omega)] at ran
    cases ran
    exact Or.inl rfl

/-! ## The buffer -/

/-- The chunks of a read lie in its buffer. -/
theorem chunks_inside {rounds base : Nat} : ∀ chunk ∈ chunks filesp fd rounds base len vfs,
    base ≤ chunk.1 ∧ 0 < chunk.2 ∧ chunk.1 + chunk.2 ≤ base + len := by
  induction rounds generalizing vfs base len with
  | zero => simp only [chunks, List.not_mem_nil, false_implies, implies_true]
  | succ rounds inductionHypothesis =>
      unfold chunks
      by_cases empty : len = 0
      · simp only [if_pos empty, List.not_mem_nil, false_implies, implies_true]
      rw [if_neg empty]
      split
      · rename_i moved after ran
        obtain ⟨short, _⟩ := fileIo_answer ran
        have first : ∀ chunk : Nat × Nat, moved.copied ≠ 0 → chunk = (base, moved.copied) →
            base ≤ chunk.1 ∧ 0 < chunk.2 ∧ chunk.1 + chunk.2 ≤ base + len := by
          rintro _ something rfl
          exact ⟨le_rfl, Nat.pos_of_ne_zero something, by dsimp only; omega⟩
        intro chunk member
        split_ifs at member with nothing goesOn
        · cases member
        · rcases List.mem_cons.mp member with isFirst | later
          · exact first chunk nothing isFirst
          · have rest := inductionHypothesis chunk later
            omega
        · exact first chunk nothing (List.mem_singleton.mp member)
      · simp only [List.not_mem_nil, false_implies, implies_true]

/-- The chunks of a read to the kernel's memory pass the check. -/
theorem chunks_pass_kernel {rounds : Nat} (kernel : kernBase ≤ buf ∧ buf + len ≤ kernTop) :
    ChunksPass none (chunks filesp fd rounds buf len vfs) := by
  intro chunk member
  have inside := chunks_inside chunk member
  have top : kernTop < 2 ^ 64 := by decide
  have whole : (chunk.1 + chunk.2) % 2 ^ 64 = chunk.1 + chunk.2 := Nat.mod_eq_of_lt (by omega)
  apply decide_eq_true
  rw [whole]
  exact ⟨by omega, by omega, by omega⟩

/-! ## The read -/

/-- `fd` is open on a regular file whose blocks are there, and `content` has its bytes. -/
def ProgramOpen (filesp : Nat) (fd : Int) (content : Bytes) (vfs : VfsState) : Prop :=
  ∃ inos ino sin, vfs.nodeAt filesp fd = some (.sfs ino) ∧ Fs.Consistent vfs.sfs inos ∧
    FilledFile vfs.sfs ino sin ∧
    ∀ position < sin.din.size, content position = blockBytes vfs.sfs ino position

/-- The writes of a read that was answered 0: they fill the buffer, with the bytes at `offset`. -/
structure ReadDone (content : Bytes) (buf len : Nat) (offset : Int) (writes : List UserWrite) :
    Prop where
  low : 0 ≤ offset
  high : offset + len < 2 ^ 63
  filled : ∃ bytes, (∀ memory, applyWrites memory writes = memory.overlay buf len bytes) ∧
    ∀ position < len, bytes position = content (offset.toNat + position)

/-- Behind a seek, a call that moves bytes moves those of the file. -/
theorem ProgramOpen.moved {middle : VfsState} {done : Nat} {bytes : Bytes}
    (opened : ProgramOpen filesp fd content vfs) (position : middle.position filesp fd = offset)
    (node : middle.nodeAt filesp fd = vfs.nodeAt filesp fd)
    (tried : ∀ ino, vfs.nodeAt filesp fd = some (.sfs ino) →
      sfsTryseek ino offset vfs.sfs = .ok (.ok (), middle.sfs))
    (called : CallBytes filesp fd false middle done bytes after) (positive : 0 < done) :
    offset + done ≤ sfsMaxFileSize ∧ (∀ index < done, bytes index = content (offset.toNat + index)) ∧
      ProgramOpen filesp fd content after := by
  obtain ⟨inos, ino, sin, isFile, consistent, file, bytesOf⟩ := opened
  have ran := tried ino isFile
  obtain ⟨low, _, target⟩ := tryseek_done file.loaded ran
  obtain ⟨_, consistent', _, sin', file', _⟩ := (file.tryseek consistent).of_ok ran
  obtain ⟨sin'', moved⟩ := called.file inos ino sin' (node.trans isFile) consistent' file'
  have range := moved.range positive
  rw [position, if_neg Bool.false_ne_true] at range
  rcases target with same | ⟨sin₂, loaded, size⟩
  · have sizes : sin'.din.size = sin.din.size := by
      have loaded := file'.loaded
      rw [same, file.loaded] at loaded
      rw [Option.some.inj loaded]
    have delivered := moved.delivered rfl
    rw [position, same] at delivered
    refine ⟨range.2.1, fun index inside => ?_, ?_⟩
    · rw [delivered index inside, bytesOf _ (by omega)]
    · obtain ⟨kmallocs, pieces⟩ := called.pieces
      refine ⟨inos, ino, sin'', (pieces.nodeAt.trans node).trans isFile, moved.consistent,
        moved.file, fun index inside => ?_⟩
      have stored := moved.stored
      rw [if_neg Bool.false_ne_true, same] at stored
      rw [moved.size rfl, sizes] at inside
      rw [stored, bytesOf index inside]
  · -- the seek enlarged the file up to `offset`, and there is no byte behind it
    rw [file'.loaded] at loaded
    cases loaded
    omega

/-- A read puts bytes of the file into the buffer, or is answered with an error, and leaves the file
open with the same bytes for the next one. -/
theorem ensures_loadIcodeRead (opened : ProgramOpen filesp fd content vfs)
    (kernel : kernBase ≤ buf ∧ buf + len ≤ kernTop) :
    Ensures True (loadIcodeRead filesp fd buf len offset) vfs fun result after =>
      ∀ writes, result = .ok (.ok writes) → ReadDone content buf len offset writes ∧
        (0 < len → ProgramOpen filesp fd content after) := by
  have small : sfsMaxFileSize < 2 ^ 62 := by decide
  apply ensures_bind_attempt ensures_fileSeek
  intro result middle sought
  cases result with
  | error errno => exact ensures_pure (by rintro _ ⟨⟩)
  | ok _ =>
      obtain ⟨position, node, tried⟩ := sought rfl
      have inRange : 0 ≤ offset ∧ offset < sfsMaxFileSize := by
        obtain ⟨_, ino, _, isFile, _, file, _⟩ := opened
        obtain ⟨low, high, _⟩ := tryseek_done file.loaded (tried ino isFile)
        exact ⟨low, high⟩
      have accounts : ReadAccounts none filesp fd buf len middle :=
        readAccounts_iff.mpr fun _ _ => chunks_pass_kernel kernel
      apply ensures_bind accounts
      · rintro ⟨ret, writes⟩ after ⟨_, _, done, bytes, ⟨⟩, account, called, written⟩
        cases ret with
        | error errno => exact ensures_pure (by rintro _ ⟨⟩)
        | ok copied =>
            by_cases short : copied ≠ len
            · simp only [if_pos short]
              exact ensures_pure (by rintro _ ⟨⟩)
            simp only [if_neg short]
            apply ensures_pure
            rintro _ ⟨⟩
            have all : done = len := by
              rcases account.answer with isOk | ⟨_, _, impossible⟩
              · cases isOk
                omega
              · cases impossible
            subst all
            obtain nothing | positive := Nat.eq_zero_or_pos done
            · refine ⟨⟨inRange.1, by omega, bytes, written, fun _ impossible => ?_⟩, fun positive => ?_⟩
              · omega
              · omega
            · obtain ⟨high, delivered, still⟩ := opened.moved position node tried called positive
              exact ⟨⟨inRange.1, by omega, bytes, written, delivered⟩, fun _ => still⟩
      · rintro _ _ ⟨_, _, _, _, impossible, _⟩
        cases impossible

/-! ## The program file -/

/-- `load_icode_read` was answered 0, and has put `bytes` into its buffer. -/
def ReadBy (filesp : Nat) (fd : Int) (content : Bytes) (offset len : Nat) (bytes : Bytes) : Prop :=
  offset < 2 ^ 64 ∧ ∃ vfs after buf writes memory, ProgramOpen filesp fd content vfs ∧
    (kernBase ≤ buf ∧ buf + len ≤ kernTop) ∧
    loadIcodeRead filesp fd buf len (wrap64 offset) vfs = .ok (.ok (.ok writes), after) ∧
    ∀ position < len, bytes position = applyWrites memory writes (buf + position)

theorem ReadBy.delivers {offset : Nat} {bytes : Bytes}
    (read : ReadBy filesp fd content offset len bytes) :
    offset + len < 2 ^ 63 ∧ ∀ position < len, bytes position = content (offset + position) := by
  obtain ⟨wide, vfs, after, buf, writes, memory, opened, kernel, ran, isRead⟩ := read
  obtain ⟨done, _⟩ := (ensures_loadIcodeRead opened kernel).of_ok ran writes rfl
  obtain ⟨stored, written, delivered⟩ := done.filled
  have low := done.low
  have high := done.high
  have same : wrap64 offset = offset := by
    unfold wrap64 at low high ⊢
    omega
  rw [same] at high delivered
  refine ⟨by omega, fun position inside => ?_⟩
  rw [isRead position inside, written, Bytes.overlay_inside (by omega) (by omega),
    Nat.add_sub_cancel_left, delivered position inside, Int.toNat_natCast]

/-- The program file of `load_icode`: what a read delivers, `load_icode_read` has put into a page. -/
def ExecFile.ofReads (filesp : Nat) (fd : Int) (content : Bytes)
    (read : Memory → Nat → Nat → Except LoadError Bytes)
    (reads : ∀ memory offset len bytes, read memory offset len = .ok bytes →
      ReadBy filesp fd content offset len bytes) : ExecFile where
  content := content
  read := read
  read_small memory offset len bytes ran := (reads memory offset len bytes ran).delivers.1
  read_content memory offset len bytes ran := (reads memory offset len bytes ran).delivers.2

end UCore.Process
