import UCore.Fs.SfsTransfer
import UCore.Vfs.UserIo

/-!
Contract: what `sysfile_read` and `sysfile_write` of `kern/fs/sysfile.c` account for.

Owns:
- the bytes that a call moves, chunk by chunk, and the bytes of the file behind them;
- when the answer, the position and the memory of the process agree.

Does not own: which calls return, and what the addresses of a process are.
-/

set_option autoImplicit false

namespace UCore.Vfs

open UCore.Lib UCore.Lib.Program UCore.Fs UCore.Mm

variable {vfs after : VfsState} {filesp len : Nat} {fd : Int} {base : Bytes} {write : Bool}
  {node : Node} {files : Files} {inos : List Nat} {ino : Nat} {sin : SfsInode}

/-! ## The position of an open file -/

def VfsState.position (vfs : VfsState) (filesp : Nat) (fd : Int) : Int :=
  match vfs.files filesp with
  | some files => (files.fdArray fd.toNat).pos
  | none => 0

def VfsState.nodeAt (vfs : VfsState) (filesp : Nat) (fd : Int) : Option Node :=
  match vfs.files filesp with
  | some files => (files.fdArray fd.toNat).node
  | none => none

theorem position_found (found : vfs.files filesp = some files) :
    vfs.position filesp fd = (files.fdArray fd.toNat).pos := by
  rw [VfsState.position, found]

theorem nodeAt_found (found : vfs.files filesp = some files) :
    vfs.nodeAt filesp fd = (files.fdArray fd.toNat).node := by
  rw [VfsState.nodeAt, found]

theorem position_setFile {file : File} :
    (vfs.setFile filesp files fd.toNat file).position filesp fd = file.pos := by
  rw [position_found setFile_found]
  exact congrArg File.pos Files.setFile_self

theorem nodeAt_setFile {file : File} :
    (vfs.setFile filesp files fd.toNat file).nodeAt filesp fd = file.node := by
  rw [nodeAt_found setFile_found]
  exact congrArg File.node Files.setFile_self

/-- The position moves with the bytes. -/
theorem FileMoved.position {moved : Moved}
    (moves : FileMoved vfs filesp fd base len write (.ok moved) after) :
    after.position filesp fd = wrap64 (vfs.position filesp fd + moved.copied) := by
  rcases moves with ⟨_, errno, impossible⟩ | ⟨files, node, middle, pos, found, _, _, rfl, moves⟩
  · cases impossible
  · rw [position_setFile, position_found found]
    exact moves

theorem FileMoved.position_failed {errno : Errno}
    (moves : FileMoved vfs filesp fd base len write (.error errno) after) :
    after.position filesp fd = vfs.position filesp fd := by
  rcases moves with ⟨rfl, _⟩ | ⟨files, node, middle, pos, found, _, _, rfl, moves⟩
  · rfl
  · rw [position_setFile, position_found found]
    exact moves

theorem FileMoved.nodeAt {result : Except Errno Moved}
    (moves : FileMoved vfs filesp fd base len write result after) :
    after.nodeAt filesp fd = vfs.nodeAt filesp fd := by
  rcases moves with ⟨rfl, errno, rfl⟩ | ⟨files, node, middle, pos, found, _, _, rfl, moves⟩
  · rfl
  · rw [nodeAt_setFile, nodeAt_found found]

theorem fileIo_moves {result : Except Errno Moved}
    (ran : fileIo filesp fd base len write vfs = .ok (result, after)) :
    FileMoved vfs filesp fd base len write result after :=
  ensures_fileIo.of_ok ran

/-- What `file_read` and `file_write` answer: no more bytes than they were asked for, and 0 or the
number of bytes unless there was an error. -/
theorem fileIo_answer {moved : Moved}
    (ran : fileIo filesp fd base len write vfs = .ok (.ok moved, after)) :
    moved.copied ≤ len ∧ ∀ value, moved.ret = .ok value → value = 0 ∨ value = moved.copied := by
  rcases fileIo_moves ran with ⟨_, errno, impossible⟩ | ⟨files, node, middle, pos, _, _, ran, _⟩
  · cases impossible
  · exact answers_vopIo.of_run _ _ _ ran

/-! ## The bytes of a call -/

/-- The chunks that a call moves one after the other, `done` bytes in all, until `file_read` or
`file_write` moves none. -/
inductive Pieces (filesp : Nat) (fd : Int) (write : Bool) :
    VfsState → Nat → Bytes → VfsState → Prop
  | none (vfs : VfsState) (bytes : Bytes) : Pieces filesp fd write vfs 0 bytes vfs
  | last (vfs after : VfsState) (base bytes : Bytes) (len : Nat) (result : Except Errno Moved)
      (ran : fileIo filesp fd base len write vfs = .ok (result, after))
      (nothing : ∀ moved, result = .ok moved → moved.copied = 0) :
      Pieces filesp fd write vfs 0 bytes after
  | more (vfs middle after : VfsState) (base rest : Bytes) (len done : Nat) (moved : Moved)
      (ran : fileIo filesp fd base len write vfs = .ok (.ok moved, middle))
      (something : 0 < moved.copied) (pieces : Pieces filesp fd write middle done rest after) :
      Pieces filesp fd write vfs (moved.copied + done)
        (Bytes.append (if write = true then base else moved.buf) moved.copied rest) after

/-- A single chunk. -/
theorem Pieces.one {moved : Moved} {rest : Bytes}
    (ran : fileIo filesp fd base len write vfs = .ok (.ok moved, after))
    (something : 0 < moved.copied) :
    Pieces filesp fd write vfs moved.copied
      (Bytes.append (if write = true then base else moved.buf) moved.copied rest) after :=
  .more vfs after after base rest len 0 moved ran something (.none after rest)

theorem Pieces.position {done : Nat} {bytes : Bytes}
    (pieces : Pieces filesp fd write vfs done bytes after) :
    wrap64 (after.position filesp fd) = wrap64 (vfs.position filesp fd + done) := by
  induction pieces with
  | none => rw [Nat.cast_zero, Int.add_zero]
  | last vfs after base bytes len result ran nothing =>
      cases result with
      | error errno => rw [(fileIo_moves ran).position_failed, Nat.cast_zero, Int.add_zero]
      | ok moved =>
          rw [(fileIo_moves ran).position, nothing moved rfl]
          unfold wrap64
          omega
  | more vfs middle after base rest len done moved ran something pieces inductionHypothesis =>
      rw [inductionHypothesis, (fileIo_moves ran).position, Nat.cast_add]
      unfold wrap64
      omega

theorem Pieces.nodeAt {done : Nat} {bytes : Bytes}
    (pieces : Pieces filesp fd write vfs done bytes after) :
    after.nodeAt filesp fd = vfs.nodeAt filesp fd := by
  induction pieces with
  | none => rfl
  | last vfs after base bytes len result ran nothing => exact (fileIo_moves ran).nodeAt
  | more vfs middle after base rest len done moved ran something pieces inductionHypothesis =>
      exact inductionHypothesis.trans (fileIo_moves ran).nodeAt

/-! ### The bytes of a regular file -/

/-- A transfer on a regular file. -/
theorem ensures_vopIo_file {offset : Int} (consistent : Fs.Consistent vfs.sfs inos)
    (file : FilledFile vfs.sfs ino sin) :
    Ensures True (vopIo (.sfs ino) base offset len write) vfs fun result after =>
      ∃ moved sin', result = .ok moved ∧ BytesMoved inos vfs.sfs ino sin write offset base
        moved.copied moved.buf after.sfs sin' := by
  apply (ensures_vopIo_sfs (file.io_bytes consistent)).weaken fun _ => trivial
  intro result after outcome
  cases result with
  | error errno =>
      obtain ⟨_, _, _, _, impossible, _⟩ := outcome
      cases impossible
  | ok moved =>
      obtain ⟨ret, _, _, _, sin', same, bytes⟩ := outcome
      cases same
      exact ⟨moved, sin', rfl, bytes⟩

/-- A transfer through a descriptor of a regular file. -/
theorem FileMoved.bytes {result : Except Errno Moved}
    (moves : FileMoved vfs filesp fd base len write result after)
    (isFile : vfs.nodeAt filesp fd = some (.sfs ino)) (consistent : Fs.Consistent vfs.sfs inos)
    (file : FilledFile vfs.sfs ino sin) :
    (after = vfs ∧ ∃ errno, result = .error errno) ∨ ∃ moved sin', result = .ok moved ∧
      BytesMoved inos vfs.sfs ino sin write (vfs.position filesp fd) base moved.copied moved.buf
        after.sfs sin' := by
  rcases moves with ⟨same, errno, failed⟩ | ⟨files, node, middle, pos, found, held, ran, rfl, _⟩
  · exact Or.inl ⟨same, errno, failed⟩
  · rw [nodeAt_found found, held] at isFile
    cases isFile
    rw [position_found found]
    have moved := @ensures_vopIo_file (vfs.setFile filesp files fd.toNat
      (files.fdArray fd.toNat).used) len base write inos ino sin (files.fdArray fd.toNat).pos
      consistent file
    have outcome := moved.of_ok ran
    exact Or.inr outcome

/-- A call that moved the first `done` of `bytes` between a regular file and its caller, from
`position` on. -/
structure FileBytes (inos : List Nat) (sfs : SfsFs) (position : Int) (ino : Nat) (sin : SfsInode)
    (write : Bool) (done : Nat) (bytes : Bytes) (after : SfsFs) (sin' : SfsInode) : Prop where
  consistent : Fs.Consistent after inos
  others : OthersKept inos ino sfs after
  file : FilledFile after ino sin'
  range : 0 < done → 0 ≤ position ∧ position + done ≤ sfsMaxFileSize ∧
    position + done ≤ (if write = true then sin' else sin).din.size
  grows : sin.din.size ≤ sin'.din.size
  size : write = false → sin'.din.size = sin.din.size
  stored : blockBytes after ino = if write = true then
    (blockBytes sfs ino).overlay position.toNat done bytes else blockBytes sfs ino
  delivered : write = false → ∀ index, index < done →
    bytes index = blockBytes sfs ino (position.toNat + index)

/-- Nothing was moved. -/
theorem FileBytes.none {sfs : SfsFs} {position : Int} {bytes : Bytes}
    (consistent : Fs.Consistent sfs inos) (file : FilledFile sfs ino sin) :
    FileBytes inos sfs position ino sin write 0 bytes sfs sin := by
  refine ⟨consistent, OthersKept.refl, file, nofun, le_rfl, fun _ => rfl, ?_, nofun⟩
  rw [Bytes.overlay_nothing, ite_self]

/-- A chunk in front of the others. -/
theorem FileBytes.more {sfs middle after : SfsFs} {position : Int} {moved : Moved} {done : Nat}
    {rest : Bytes} {sin' sin'' : SfsInode}
    (first : BytesMoved inos sfs ino sin write position base moved.copied moved.buf middle sin')
    (something : 0 < moved.copied)
    (second : FileBytes inos middle (position + moved.copied) ino sin' write done rest after sin'') :
    FileBytes inos sfs position ino sin write (moved.copied + done)
      (Bytes.append (if write = true then base else moved.buf) moved.copied rest) after sin'' := by
  obtain ⟨low, limit, inside⟩ := first.range something
  have next : (position + moved.copied).toNat = position.toNat + moved.copied := by omega
  have grows := second.grows
  have range := second.range
  refine ⟨second.consistent, first.others.trans second.others, second.file, ?_,
    first.grows.trans grows, fun isRead => (second.size isRead).trans (first.size isRead), ?_, ?_⟩
  · intro _
    by_cases ended : done = 0
    · refine ⟨low, by omega, ?_⟩
      cases write with
      | true =>
          rw [if_pos rfl] at inside ⊢
          omega
      | false =>
          rw [if_neg Bool.false_ne_true] at inside ⊢
          omega
    · obtain ⟨_, limit', inside'⟩ := range (Nat.pos_of_ne_zero ended)
      refine ⟨low, by omega, ?_⟩
      cases write with
      | true =>
          rw [if_pos rfl] at inside' ⊢
          omega
      | false =>
          have size := first.size rfl
          rw [if_neg Bool.false_ne_true] at inside' ⊢
          omega
  · have stored := first.stored
    have stored' := second.stored
    cases write with
    | true =>
        simp only [if_true] at stored stored' ⊢
        rw [stored', stored, next, Bytes.overlay_append]
    | false =>
        simp only [Bool.false_eq_true, if_false] at stored stored' ⊢
        rw [stored', stored]
  · rintro rfl index inside
    have stored := first.stored
    have buffer := first.buffer
    simp only [Bool.false_eq_true, if_false] at stored buffer ⊢
    by_cases early : index < moved.copied
    · rw [Bytes.append, if_pos early, buffer,
        Bytes.overlay_inside (Nat.zero_le _) (by omega), Nat.sub_zero]
      rfl
    · rw [Bytes.append, if_neg early, second.delivered rfl _ (by omega), stored, next]
      congr 1
      omega

/-- All chunks of a call, on a regular file whose blocks are there. -/
theorem Pieces.file {done : Nat} {bytes : Bytes}
    (pieces : Pieces filesp fd write vfs done bytes after)
    (isFile : vfs.nodeAt filesp fd = some (.sfs ino)) (consistent : Fs.Consistent vfs.sfs inos)
    (file : FilledFile vfs.sfs ino sin) :
    ∃ sin', FileBytes inos vfs.sfs (vfs.position filesp fd) ino sin write done bytes after.sfs
      sin' := by
  induction pieces generalizing sin with
  | none vfs bytes => exact ⟨sin, FileBytes.none consistent file⟩
  | last vfs after base bytes len result ran nothing =>
      rcases (fileIo_moves ran).bytes isFile consistent file with ⟨rfl, _⟩ | ⟨moved, sin', rfl, moves⟩
      · exact ⟨sin, FileBytes.none consistent file⟩
      · have stored := moves.stored
        rw [nothing moved rfl, Bytes.overlay_nothing] at stored
        refine ⟨sin', moves.consistent, moves.others, moves.file, nofun, moves.grows, moves.size, ?_,
          nofun⟩
        rw [stored, Bytes.overlay_nothing]
  | more vfs middle after base rest len done moved ran something pieces inductionHypothesis =>
      have moves := fileIo_moves ran
      rcases moves.bytes isFile consistent file with ⟨_, _, impossible⟩ | ⟨_, sin', same, first⟩
      · cases impossible
      · cases same
        obtain ⟨low, limit, _⟩ := first.range something
        have position := moves.position
        have small : sfsMaxFileSize < 2 ^ 63 := by decide
        rw [wrap64_of_range (by omega) (by omega)] at position
        obtain ⟨sin'', second⟩ := inductionHypothesis (moves.nodeAt.trans isFile) first.consistent
          first.file
        exact ⟨sin'', FileBytes.more first something (position ▸ second)⟩

/-! ## The loops -/

variable {mm : Option MmStruct} {addr copied rounds : Nat}

def UserWrite.apply (memory : Bytes) (write : UserWrite) : Bytes :=
  memory.overlay write.dst write.len write.src

/-- The memory of a process behind the writes of a call. -/
def applyWrites (memory : Bytes) (writes : List UserWrite) : Bytes :=
  writes.foldl UserWrite.apply memory

/-- The chunks that `file_read` delivers one after the other, each with its place in the buffer. -/
def chunks (filesp : Nat) (fd : Int) : Nat → Nat → Nat → VfsState → List (Nat × Nat)
  | 0, _, _, _ => []
  | rounds + 1, base, len, vfs =>
      if len = 0 then []
      else
        match fileRead filesp fd Bytes.zeros (min iobufSize len) vfs with
        | .ok (.ok moved, after) =>
            if moved.copied = 0 then []
            else if moved.ret = .ok 0 then
              (base, moved.copied) ::
                chunks filesp fd rounds (base + moved.copied) (len - moved.copied) after
            else [(base, moved.copied)]
        | _ => []

/-- `user_mem_check` lets all chunks through. -/
def ChunksPass (mm : Option MmStruct) (list : List (Nat × Nat)) : Prop :=
  ∀ chunk ∈ list, userMemCheck mm chunk.1 chunk.2 true = true

theorem chunksPass_nil : ChunksPass mm [] := nofun

theorem chunksPass_cons {chunk : Nat × Nat} {rest : List (Nat × Nat)} :
    ChunksPass mm (chunk :: rest) ↔
      userMemCheck mm chunk.1 chunk.2 true = true ∧ ChunksPass mm rest :=
  List.forall_mem_cons

/-- The answer of a call that moved `total` bytes, an `int`. -/
def Answered (total : Nat) : Except Errno Int → Prop
  | .ok value => value = wrap32 total
  | .error _ => total = 0

theorem answered_sysfileOut {total : Nat} {ret : Except Errno Nat}
    (zero : total = 0 → ∀ value, ret = .ok value → value = 0) :
    Answered total (sysfileOut total ret) := by
  unfold sysfileOut
  by_cases nothing : total = 0
  · rw [if_neg (not_not.mpr nothing)]
    cases ret with
    | error errno => exact nothing
    | ok value =>
        rw [zero nothing value rfl, nothing]
        rfl
  · rw [if_pos nothing]
    exact rfl

/-- A loop of `sysfile_read` that gave everything to the process that it took from the file. -/
structure Delivered (mm : Option MmStruct) (filesp : Nat) (fd : Int) (addr copied : Nat)
    (vfs : VfsState) (answer : UserAnswer) (after : VfsState) (done : Nat) (bytes : Bytes) :
    Prop where
  answered : Answered (copied + done) answer.1
  pieces : Pieces filesp fd false vfs done bytes after
  written : ∀ memory, applyWrites memory answer.2 = memory.overlay addr done bytes
  window : 0 < done → windowLow mm ≤ addr ∧ addr + done ≤ windowHigh mm

/-- A loop of `sysfile_read` that lost a chunk: `lost` bytes were taken from the file, and not
given to the process. -/
structure LostChunk (mm : Option MmStruct) (filesp : Nat) (fd : Int) (addr copied : Nat)
    (vfs : VfsState) (answer : UserAnswer) (after : VfsState) (done lost : Nat) (bytes : Bytes) :
    Prop where
  size : 0 < lost ∧ lost ≤ iobufSize
  answer_some : copied + done ≠ 0 → answer.1 = .ok (wrap32 (copied + done : Nat))
  answer_none : copied + done = 0 → answer.1 ≠ .ok 0
  position : wrap64 (after.position filesp fd) = wrap64 (vfs.position filesp fd + (done + lost : Nat))
  written : ∀ memory, applyWrites memory answer.2 = memory.overlay addr done bytes
  window : 0 < done → windowLow mm ≤ addr ∧ addr + done ≤ windowHigh mm

/-- How the loop ends. -/
def ReadLoopEnds (mm : Option MmStruct) (filesp : Nat) (fd : Int) (addr copied : Nat)
    (list : List (Nat × Nat)) (vfs : VfsState) (result : Except Errno UserAnswer)
    (after : VfsState) : Prop :=
  ∃ answer, result = .ok answer ∧
    ((ChunksPass mm list ∧ ∃ done bytes, Delivered mm filesp fd addr copied vfs answer after done bytes) ∨
      (¬ ChunksPass mm list ∧
        ∃ done lost bytes, LostChunk mm filesp fd addr copied vfs answer after done lost bytes))

/-- Nothing was moved in this round. -/
theorem delivered_nothing {ret : Except Errno Nat}
    (zero : copied = 0 → ∀ value, ret = .ok value → value = 0)
    (pieces : ∀ bytes, Pieces filesp fd false vfs 0 bytes after) :
    ∃ done bytes, Delivered mm filesp fd addr copied vfs (sysfileOut copied ret, []) after done bytes :=
  ⟨0, Bytes.zeros, answered_sysfileOut zero, pieces _, fun _ => Bytes.overlay_nothing.symm, nofun⟩

theorem zero_of_ok {value : Nat} (same : (Except.ok 0 : Except Errno Nat) = .ok value) :
    value = 0 := by
  cases same
  rfl

/-- A chunk that passes the check, in front of the rest of the loop. -/
theorem applyWrites_cons {memory : Bytes} {moved : Moved} {done : Nat} {rest : Bytes}
    {writes : List UserWrite}
    (written : ∀ memory, applyWrites memory writes =
      memory.overlay (addr + moved.copied) done rest) :
    applyWrites memory (⟨addr, moved.copied, moved.buf⟩ :: writes) =
      memory.overlay addr (moved.copied + done) (Bytes.append moved.buf moved.copied rest) := by
  rw [← Bytes.overlay_append, ← written]
  rfl

section Round

variable {middle : VfsState} {moved : Moved} {ret : Except Errno Int} {writes : List UserWrite}
  {done lost : Nat} {rest : Bytes}
  (ran : fileRead filesp fd base len vfs = .ok (.ok moved, middle)) (something : 0 < moved.copied)
include ran something

theorem Delivered.more (window : windowLow mm ≤ addr ∧ addr + moved.copied ≤ windowHigh mm)
    (delivered : Delivered mm filesp fd (addr + moved.copied) (copied + moved.copied) middle
      (ret, writes) after done rest) :
    Delivered mm filesp fd addr copied vfs (ret, ⟨addr, moved.copied, moved.buf⟩ :: writes) after
      (moved.copied + done) (Bytes.append moved.buf moved.copied rest) := by
  have inside := delivered.window
  refine ⟨?_, .more vfs middle after base rest len done moved ran something delivered.pieces,
    fun memory => applyWrites_cons delivered.written, fun _ => by omega⟩
  have answered := delivered.answered
  rwa [Nat.add_assoc] at answered

omit something in
theorem LostChunk.more (window : windowLow mm ≤ addr ∧ addr + moved.copied ≤ windowHigh mm)
    (isLost : LostChunk mm filesp fd (addr + moved.copied) (copied + moved.copied) middle
      (ret, writes) after done lost rest) :
    LostChunk mm filesp fd addr copied vfs (ret, ⟨addr, moved.copied, moved.buf⟩ :: writes) after
      (moved.copied + done) lost (Bytes.append moved.buf moved.copied rest) := by
  have inside := isLost.window
  have total : copied + moved.copied + done = copied + (moved.copied + done) := Nat.add_assoc _ _ _
  have position : wrap64 (after.position filesp fd) =
      wrap64 (vfs.position filesp fd + (moved.copied + done + lost : Nat)) := by
    rw [isLost.position, (fileIo_moves ran).position]
    unfold wrap64
    omega
  exact ⟨isLost.size, total ▸ isLost.answer_some, total ▸ isLost.answer_none, position,
    fun memory => applyWrites_cons isLost.written, fun _ => by omega⟩

/-- The check refuses the chunk. -/
theorem LostChunk.first {ret : Except Errno Nat} (short : moved.copied ≤ iobufSize)
    (notZero : ret ≠ .ok 0) :
    LostChunk mm filesp fd addr copied vfs (sysfileOut copied ret, []) middle 0 moved.copied
      Bytes.zeros := by
  refine ⟨⟨something, short⟩, fun before => ?_, fun before => ?_, ?_,
    fun _ => Bytes.overlay_nothing.symm, nofun⟩
  · exact if_pos before
  · show sysfileOut copied ret ≠ .ok 0
    unfold sysfileOut
    rw [if_neg (not_not.mpr (show copied = 0 from before))]
    cases ret with
    | error errno => exact nofun
    | ok value =>
        intro same
        apply notZero
        simp only [Except.ok.injEq, Nat.cast_eq_zero] at same
        rw [same]
  · rw [(fileIo_moves ran).position, Nat.zero_add]
    unfold wrap64
    omega

end Round

/-- Every round takes a chunk from the file. Either it passes the check and the loop goes on behind
it, or it is lost. -/
theorem ensures_userReadLoop :
    Ensures (ChunksPass mm (chunks filesp fd rounds addr len vfs))
      (userReadLoop mm filesp fd addr len copied rounds) vfs
      (ReadLoopEnds mm filesp fd addr copied (chunks filesp fd rounds addr len vfs) vfs) := by
  induction rounds generalizing vfs addr len copied with
  | zero =>
      exact ensures_pure ⟨_, rfl, Or.inl ⟨chunksPass_nil,
        delivered_nothing (fun _ _ => zero_of_ok) fun bytes => .none vfs bytes⟩⟩
  | succ rounds inductionHypothesis =>
      unfold userReadLoop chunks
      by_cases empty : len = 0
      · rw [if_pos empty, if_pos empty]
        exact ensures_pure ⟨_, rfl, Or.inl ⟨chunksPass_nil,
          delivered_nothing (fun _ _ => zero_of_ok) fun bytes => .none vfs bytes⟩⟩
      rw [if_neg empty, if_neg empty]
      cases ran : fileRead filesp fd Bytes.zeros (min iobufSize len) vfs with
      | error reason =>
          have stopped : Program.attempt (fileRead filesp fd Bytes.zeros (min iobufSize len)) vfs =
              .error reason := by simp only [attempt, ran]
          exact ensures_bind_stop stopped chunksPass_nil
      | ok pair =>
          obtain ⟨result, middle⟩ := pair
          have tried : Program.attempt (fileRead filesp fd Bytes.zeros (min iobufSize len)) vfs =
              .ok (.ok result, middle) := by simp only [attempt, ran]
          apply ensures_bind_run tried
          cases result with
          | error errno =>
              refine ensures_pure ⟨_, rfl, Or.inl ⟨chunksPass_nil,
                delivered_nothing (by intros; contradiction) fun bytes => ?_⟩⟩
              exact .last vfs middle Bytes.zeros bytes _ _ ran (by intros; contradiction)
          | ok moved =>
              obtain ⟨short, zeroOrAll⟩ := fileIo_answer ran
              by_cases nothing : moved.copied = 0
              · simp only [if_pos nothing]
                refine ensures_pure ⟨_, rfl, Or.inl ⟨chunksPass_nil,
                  delivered_nothing (fun _ value same => ?_) fun bytes => ?_⟩⟩
                · rcases zeroOrAll value same with zero | all
                  · exact zero
                  · exact all.trans nothing
                · refine .last vfs middle Bytes.zeros bytes _ _ ran ?_
                  rintro _ ⟨⟩
                  exact nothing
              have something : 0 < moved.copied := Nat.pos_of_ne_zero nothing
              have chunkSize : moved.copied ≤ iobufSize := by omega
              simp only [if_neg nothing, copyToUser]
              by_cases passes : userMemCheck mm addr moved.copied true = true
              · have window := userMemCheck_window
                  (Nat.lt_of_le_of_lt chunkSize (by decide)) passes
                simp only [if_pos passes]
                apply ensures_require (fun _ => ?_) fun tooLong => absurd (by omega) tooLong
                by_cases goesOn : moved.ret = .ok 0
                · -- the loop goes on behind the chunk
                  rw [if_neg (not_not.mpr goesOn), if_pos goesOn]
                  have rest := @inductionHypothesis middle (len - moved.copied)
                    (addr + moved.copied) (copied + moved.copied)
                  have pass : ChunksPass mm ((addr, moved.copied) ::
                      chunks filesp fd rounds (addr + moved.copied) (len - moved.copied) middle) ↔
                      ChunksPass mm
                        (chunks filesp fd rounds (addr + moved.copied) (len - moved.copied) middle) :=
                    chunksPass_cons.trans (and_iff_right passes)
                  rw [pass]
                  apply ensures_bind rest
                  · rintro ⟨ret, writes⟩ final ⟨_, ⟨⟩, outcome⟩
                    refine ensures_pure ⟨_, rfl, ?_⟩
                    rw [pass]
                    rcases outcome with ⟨all, done, bytes, delivered⟩ | ⟨notAll, done, lost, bytes, isLost⟩
                    · exact Or.inl ⟨all, _, _, delivered.more ran something window⟩
                    · exact Or.inr ⟨notAll, _, _, _, isLost.more ran window⟩
                  · rintro _ _ ⟨_, impossible, _⟩
                    cases impossible
                · -- an error behind the chunk, or all of a line of `stdin`
                  rw [if_pos goesOn, if_neg goesOn]
                  refine ensures_pure ⟨_, rfl, Or.inl ⟨chunksPass_cons.mpr ⟨passes, chunksPass_nil⟩,
                    moved.copied, _, ?_, @Pieces.one _ _ _ _ _ _ _ _ Bytes.zeros ran something,
                    fun memory => ?_, fun _ => window⟩⟩
                  · exact answered_sysfileOut fun none => absurd none (by omega)
                  · exact @applyWrites_cons addr memory moved 0 Bytes.zeros [] fun _ =>
                      Bytes.overlay_nothing.symm
              · simp only [if_neg passes]
                have fails : ∀ rest, ¬ ChunksPass mm ((addr, moved.copied) :: rest) :=
                  fun rest all => passes (chunksPass_cons.mp all).1
                refine ensures_pure ⟨_, rfl, Or.inr ⟨?_, 0, moved.copied, Bytes.zeros,
                  LostChunk.first ran something chunkSize ?_⟩⟩
                · by_cases goesOn : moved.ret = .ok 0
                  · rw [if_pos goesOn]
                    exact fails _
                  · rw [if_neg goesOn]
                    exact fails _
                · by_cases goesOn : moved.ret = .ok 0
                  · rw [if_pos goesOn]
                    rintro ⟨⟩
                  · rw [if_neg goesOn]
                    exact goesOn

/-- A loop of `sysfile_write`: the file has the bytes of the process that the call answers for. -/
structure Stored (mm : Option MmStruct) (memory : Bytes) (filesp : Nat) (fd : Int)
    (addr copied : Nat) (vfs : VfsState) (ret : Except Errno Int) (after : VfsState) (done : Nat)
    (bytes : Bytes) : Prop where
  answered : Answered (copied + done) ret
  pieces : Pieces filesp fd true vfs done bytes after
  bytes : ∀ index, index < done → bytes index = memory (addr + index)
  window : 0 < done → windowLow mm ≤ addr ∧ addr + done ≤ windowHigh mm

def WriteLoopEnds (mm : Option MmStruct) (memory : Bytes) (filesp : Nat) (fd : Int)
    (addr copied : Nat) (vfs : VfsState) (result : Except Errno (Except Errno Int))
    (after : VfsState) : Prop :=
  ∃ ret done bytes, result = .ok ret ∧
    Stored mm memory filesp fd addr copied vfs ret after done bytes

section Write

variable {memory : Bytes}

theorem writeLoop_nothing {ret : Except Errno Nat}
    (zero : copied = 0 → ∀ value, ret = .ok value → value = 0)
    (pieces : ∀ bytes, Pieces filesp fd true vfs 0 bytes after) :
    WriteLoopEnds mm memory filesp fd addr copied vfs (.ok (sysfileOut copied ret)) after :=
  ⟨_, 0, Bytes.zeros, rfl, answered_sysfileOut zero, pieces _, nofun, nofun⟩

/-- A chunk in front of the rest of the loop. -/
theorem Stored.more {middle : VfsState} {moved : Moved} {ret : Except Errno Int} {done : Nat}
    {rest : Bytes}
    (ran : fileWrite filesp fd (memory.drop addr) len vfs = .ok (.ok moved, middle))
    (something : 0 < moved.copied)
    (window : windowLow mm ≤ addr ∧ addr + moved.copied ≤ windowHigh mm)
    (stored : Stored mm memory filesp fd (addr + moved.copied) (copied + moved.copied) middle ret
      after done rest) :
    Stored mm memory filesp fd addr copied vfs ret after (moved.copied + done)
      (Bytes.append (memory.drop addr) moved.copied rest) := by
  have inside := stored.window
  have total : copied + moved.copied + done = copied + (moved.copied + done) := Nat.add_assoc _ _ _
  refine ⟨total ▸ stored.answered,
    .more vfs middle after _ rest len done moved ran something stored.pieces, fun index low => ?_,
    fun _ => by omega⟩
  by_cases early : index < moved.copied
  · rw [Bytes.append, if_pos early]
    rfl
  · rw [Bytes.append, if_neg early, stored.bytes _ (by omega)]
    congr 1
    omega

/-- Every round checks a chunk before it reaches the file. -/
theorem ensures_userWriteLoop :
    Ensures True (userWriteLoop mm memory filesp fd addr len copied rounds) vfs
      (WriteLoopEnds mm memory filesp fd addr copied vfs) := by
  induction rounds generalizing vfs addr len copied with
  | zero =>
      exact ensures_pure (writeLoop_nothing (fun _ _ => zero_of_ok) fun bytes => .none vfs bytes)
  | succ rounds inductionHypothesis =>
      unfold userWriteLoop
      by_cases empty : len = 0
      · rw [if_pos empty]
        exact ensures_pure (writeLoop_nothing (fun _ _ => zero_of_ok) fun bytes => .none vfs bytes)
      rw [if_neg empty]
      by_cases refused : userMemCheck mm addr (min iobufSize len) false = false
      · rw [if_pos refused]
        exact ensures_pure (writeLoop_nothing (by intros; contradiction) fun bytes =>
          .none vfs bytes)
      rw [if_neg refused]
      have size : min iobufSize len ≤ iobufSize := Nat.min_le_left _ _
      have window := userMemCheck_window (Nat.lt_of_le_of_lt size (by decide))
        (Bool.eq_true_of_not_eq_false refused)
      cases ran : fileWrite filesp fd (memory.drop addr) (min iobufSize len) vfs with
      | error reason =>
          have stopped : Program.attempt
              (fileWrite filesp fd (memory.drop addr) (min iobufSize len)) vfs = .error reason := by
            simp only [attempt, ran]
          exact ensures_bind_stop stopped trivial
      | ok pair =>
          obtain ⟨result, middle⟩ := pair
          have tried : Program.attempt
              (fileWrite filesp fd (memory.drop addr) (min iobufSize len)) vfs =
              .ok (.ok result, middle) := by simp only [attempt, ran]
          apply ensures_bind_run tried
          cases result with
          | error errno =>
              exact ensures_pure (writeLoop_nothing (by intros; contradiction) fun bytes =>
                .last vfs middle _ bytes _ _ ran (by intros; contradiction))
          | ok moved =>
              obtain ⟨short, zeroOrAll⟩ := fileIo_answer ran
              by_cases nothing : moved.copied = 0
              · simp only [if_pos nothing]
                refine ensures_pure (writeLoop_nothing (fun _ value same => ?_) fun bytes => ?_)
                · rcases zeroOrAll value same with zero | all
                  · exact zero
                  · exact all.trans nothing
                · refine .last vfs middle _ bytes _ _ ran ?_
                  rintro _ ⟨⟩
                  exact nothing
              have something : 0 < moved.copied := Nat.pos_of_ne_zero nothing
              have inside : windowLow mm ≤ addr ∧ addr + moved.copied ≤ windowHigh mm := by omega
              simp only [if_neg nothing]
              apply ensures_require (fun _ => ?_) fun _ => trivial
              by_cases goesOn : moved.ret = .ok 0
              · rw [if_neg (not_not.mpr goesOn)]
                apply (@inductionHypothesis middle (len - moved.copied) (addr + moved.copied)
                  (copied + moved.copied)).weaken fun _ => trivial
                rintro _ final ⟨ret, done, bytes, rfl, stored⟩
                exact ⟨ret, _, _, rfl, stored.more ran something inside⟩
              · rw [if_pos goesOn]
                have ended : Stored mm memory filesp fd (addr + moved.copied)
                    (copied + moved.copied) middle (sysfileOut (copied + moved.copied) moved.ret)
                    middle 0 Bytes.zeros :=
                  ⟨answered_sysfileOut fun none => absurd none (by omega), .none middle _,
                    (by intros; contradiction), by intros; contradiction⟩
                exact ensures_pure ⟨_, _, _, rfl, ended.more ran something inside⟩

end Write

/-! ## The calls -/

/-- The answer and the position that belong to a call that moved `done` bytes. -/
structure Accounts (filesp : Nat) (fd : Int) (vfs : VfsState) (ret : Except Errno Int) (done : Nat)
    (after : VfsState) : Prop where
  answer : ret = .ok (done : Int) ∨ (done = 0 ∧ ∃ errno, ret = .error errno)
  position : wrap64 (after.position filesp fd) = wrap64 (vfs.position filesp fd + done)

/-- A call moved the first `done` of `bytes`, chunk by chunk; those of a regular file are at its
position. -/
structure CallBytes (filesp : Nat) (fd : Int) (write : Bool) (vfs : VfsState) (done : Nat)
    (bytes : Bytes) (after : VfsState) : Prop where
  pieces : ∃ kmallocs, Pieces filesp fd write { vfs with kmallocs := kmallocs } done bytes after
  file : ∀ inos ino sin, vfs.nodeAt filesp fd = some (.sfs ino) → Fs.Consistent vfs.sfs inos →
    FilledFile vfs.sfs ino sin →
    ∃ sin', FileBytes inos vfs.sfs (vfs.position filesp fd) ino sin write done bytes after.sfs sin'

/-- `sysfile_read` advances the position by the number of bytes that it returns, and these bytes,
from the file, are in the memory of the process. -/
def ReadAccounts (mm : Option MmStruct) (filesp : Nat) (fd : Int) (addr len : Nat)
    (vfs : VfsState) : Prop :=
  Ensures True (userRead mm filesp fd addr len) vfs fun result after =>
    ∃ ret writes done bytes, result = .ok (ret, writes) ∧ Accounts filesp fd vfs ret done after ∧
      CallBytes filesp fd false vfs done bytes after ∧
      ∀ memory, applyWrites memory writes = memory.overlay addr done bytes

/-- `sysfile_write` advances the position by the number of bytes that it returns, and the file has
these bytes, from the memory of the process. -/
def WriteAccounts (mm : Option MmStruct) (memory : Bytes) (filesp : Nat) (fd : Int)
    (addr len : Nat) (vfs : VfsState) : Prop :=
  Ensures True (userWrite mm memory filesp fd addr len) vfs fun result after =>
    ∃ ret done bytes, result = .ok ret ∧ Accounts filesp fd vfs ret done after ∧
      CallBytes filesp fd true vfs done bytes after ∧
      ∀ index, index < done → bytes index = memory (addr + index)

/-- The state behind a call to `kmalloc`. -/
def VfsState.allocated (vfs : VfsState) : VfsState :=
  { vfs with kmallocs := fun index => vfs.kmallocs (index + 1) }

/-- Where the call comes to its loop, all chunks that `file_read` delivers may be written where they
belong. -/
def CopiesOut (mm : Option MmStruct) (filesp : Nat) (fd : Int) (addr len : Nat) (vfs : VfsState) :
    Prop :=
  fileTestfd filesp fd true false vfs = .ok (.ok true, vfs) → vfs.kmallocs 0 = true →
    ChunksPass mm (chunks filesp fd len addr len vfs.allocated)

theorem callBytes_of_pieces {kmallocs : Nat → Bool} {done : Nat} {bytes : Bytes}
    (pieces : Pieces filesp fd write { vfs with kmallocs := kmallocs } done bytes after) :
    CallBytes filesp fd write vfs done bytes after :=
  ⟨⟨kmallocs, pieces⟩, fun _ _ _ isFile consistent file => pieces.file isFile consistent file⟩

/-- In the window the `int` is the number of bytes. -/
theorem accounts_of_answered {ret : Except Errno Int} {done : Nat}
    (answered : Answered (0 + done) ret)
    (window : 0 < done → windowLow mm ≤ addr ∧ addr + done ≤ windowHigh mm)
    (position : wrap64 (after.position filesp fd) = wrap64 (vfs.position filesp fd + done)) :
    Accounts filesp fd vfs ret done after := by
  have small := window_small mm
  refine ⟨?_, position⟩
  rw [Nat.zero_add] at answered
  cases ret with
  | error errno => exact Or.inr ⟨answered, errno, rfl⟩
  | ok value =>
      have exact : wrap32 done = done := wrap32_of_range (by omega) (by omega)
      exact Or.inl (congrArg Except.ok (answered.trans exact))

theorem ensures_fileTestfd {readable writable : Bool} :
    Ensures True (fileTestfd filesp fd readable writable) vfs fun result after =>
      after = vfs ∧ ∃ permitted, result = .ok permitted := by
  apply ensures_bind_attempt ensures_fd2file
  rintro result _ ⟨rfl, finds⟩
  cases result with
  | error errno => exact ensures_pure ⟨rfl, _, rfl⟩
  | ok index =>
      obtain ⟨rfl, files, found, _⟩ := finds index rfl
      apply ensures_bind_run (run_getFile found)
      by_cases first : readable = true ∧ (files.fdArray fd.toNat).readable = false
      · rw [if_pos first]
        exact ensures_pure ⟨rfl, _, rfl⟩
      rw [if_neg first]
      by_cases second : writable = true ∧ (files.fdArray fd.toNat).writable = false
      · rw [if_pos second]
        exact ensures_pure ⟨rfl, _, rfl⟩
      · rw [if_neg second]
        exact ensures_pure ⟨rfl, _, rfl⟩

/-- A call that came back before its loop moved nothing. -/
theorem accounts_nothing {ret : Except Errno Int} {kmallocs : Nat → Bool}
    (answer : ret = .ok 0 ∨ ∃ errno, ret = .error errno) :
    Accounts filesp fd vfs ret 0 { vfs with kmallocs := kmallocs } := by
  refine ⟨?_, ?_⟩
  · rcases answer with zero | failed
    · exact Or.inl zero
    · exact Or.inr ⟨rfl, failed⟩
  · rw [Nat.cast_zero, Int.add_zero]
    rfl

theorem callBytes_nothing {kmallocs : Nat → Bool} {bytes : Bytes} :
    CallBytes filesp fd write vfs 0 bytes { vfs with kmallocs := kmallocs } :=
  callBytes_of_pieces (.none { vfs with kmallocs := kmallocs } bytes)

theorem readAccounts_of_return {ret : Except Errno Int} {kmallocs : Nat → Bool}
    (answer : ret = .ok 0 ∨ ∃ errno, ret = .error errno)
    (ran : userRead mm filesp fd addr len vfs =
      .ok (.ok (ret, []), { vfs with kmallocs := kmallocs })) :
    ReadAccounts mm filesp fd addr len vfs :=
  ensures_of_run ran ⟨ret, [], 0, Bytes.zeros, rfl, accounts_nothing answer, callBytes_nothing,
    fun _ => Bytes.overlay_nothing.symm⟩

/-- A loop that lost a chunk is behind on its account. -/
theorem LostChunk.not_accounts {answer : UserAnswer} {done lost total : Nat} {bytes bytes' : Bytes}
    (isLost : LostChunk mm filesp fd addr 0 vfs answer after done lost bytes)
    (accounts : Accounts filesp fd vfs answer.1 total after)
    (written : ∀ memory, applyWrites memory answer.2 = memory.overlay addr total bytes') : False := by
  have small := window_small mm
  have window := isLost.window
  have some := isLost.answer_some
  have none := isLost.answer_none
  obtain ⟨positive, short⟩ := isLost.size
  have size : iobufSize = 4096 := rfl
  have moved := isLost.position.symm.trans accounts.position
  have apart : (total : Int) ≠ done := by
    intro same
    rw [same] at moved
    unfold wrap64 at moved
    omega
  rw [Nat.zero_add] at some none
  rcases accounts.answer with isOk | ⟨nothing, errno, isError⟩
  · by_cases delivered : done = 0
    · -- the process got no byte of what the answer counts
      have counted : 0 < total := by
        apply Nat.pos_of_ne_zero
        rintro rfl
        exact none delivered isOk
      have same := (isLost.written fun _ => bytes' 0 + 1).symm.trans (written fun _ => bytes' 0 + 1)
      have first := congrFun same addr
      rw [delivered, Bytes.overlay_nothing, Bytes.overlay_inside le_rfl (by omega), Nat.sub_self]
        at first
      exact absurd first (by simp)
    · have isDone := (some delivered).symm.trans isOk
      rw [wrap32_of_range (by omega) (by omega)] at isDone
      exact apart (Except.ok.inj isDone).symm
  · by_cases delivered : done = 0
    · omega
    · exact absurd ((some delivered).symm.trans isError) nofun

theorem readAccounts_iff :
    ReadAccounts mm filesp fd addr len vfs ↔ CopiesOut mm filesp fd addr len vfs := by
  by_cases empty : len = 0
  · have ran : userRead mm filesp fd addr len vfs = .ok (.ok (.ok 0, []), vfs) := by
      rw [userRead, if_pos empty]
      rfl
    refine iff_of_true (readAccounts_of_return (Or.inl rfl) ran) fun _ _ => ?_
    rw [empty]
    exact chunksPass_nil
  have tested := @ensures_fileTestfd vfs filesp fd true false
  cases test : fileTestfd filesp fd true false vfs with
  | error reason =>
      have stopped : userRead mm filesp fd addr len vfs = .error reason := by
        simp only [userRead, if_neg empty, bind, Program.bind, test]
      refine iff_of_true (ensures_of_stop stopped trivial) fun passed => ?_
      cases test.symm.trans passed
  | ok pair =>
      obtain ⟨_, final⟩ := pair
      obtain ⟨same, permitted, rfl⟩ := tested.of_ok test
      rw [same] at test
      by_cases refused : permitted = false
      · have ran : userRead mm filesp fd addr len vfs = .ok (.ok (.error .inval, []), vfs) := by
          rw [userRead, if_neg empty, bind_run test, if_pos refused]
          rfl
        refine iff_of_true (readAccounts_of_return (Or.inr ⟨_, rfl⟩) ran) fun passed => ?_
        rw [test, refused] at passed
        simp at passed
      have allowed : permitted = true := Bool.eq_true_of_not_eq_false refused
      rw [allowed] at test
      have allocates : kmallocAnswer vfs = .ok (.ok (vfs.kmallocs 0), vfs.allocated) := rfl
      by_cases noMem : vfs.kmallocs 0 = false
      · have ran : userRead mm filesp fd addr len vfs =
            .ok (.ok (.error .noMem, []), vfs.allocated) := by
          rw [userRead, if_neg empty, bind_run test, if_neg (by decide), bind_run allocates,
            if_pos noMem]
          rfl
        refine iff_of_true (readAccounts_of_return (Or.inr ⟨_, rfl⟩) ran) fun _ enough => ?_
        exact Bool.noConfusion (noMem.symm.trans enough)
      have enough : vfs.kmallocs 0 = true := Bool.eq_true_of_not_eq_false noMem
      have ran : userRead mm filesp fd addr len vfs =
          userReadLoop mm filesp fd addr len 0 len vfs.allocated := by
        rw [userRead, if_neg empty, bind_run test, if_neg (by decide), bind_run allocates,
          if_neg noMem]
      have condition : CopiesOut mm filesp fd addr len vfs ↔
          ChunksPass mm (chunks filesp fd len addr len vfs.allocated) :=
        ⟨fun copies => copies test enough, fun passes _ _ => passes⟩
      have loop := @ensures_userReadLoop vfs.allocated filesp len fd mm addr 0 len
      rw [condition]
      unfold ReadAccounts Ensures
      unfold Ensures at loop
      rw [ran]
      cases looped : userReadLoop mm filesp fd addr len 0 len vfs.allocated with
      | error reason =>
          simp only [looped] at loop ⊢
          exact iff_of_true trivial loop
      | ok pair =>
          simp only [looped] at loop ⊢
          obtain ⟨⟨ret, writes⟩, isAnswer, outcome⟩ := loop
          rw [isAnswer]
          rcases outcome with ⟨passes, done, bytes, delivered⟩ | ⟨fails, done, lost, bytes, isLost⟩
          · refine iff_of_true ?_ passes
            exact ⟨ret, writes, done, bytes, rfl,
              accounts_of_answered delivered.answered delivered.window delivered.pieces.position,
              callBytes_of_pieces delivered.pieces, delivered.written⟩
          · refine iff_of_false ?_ fails
            rintro ⟨_, _, total, bytes', ⟨⟩, accounts, _, written⟩
            exact isLost.not_accounts ⟨accounts.answer, accounts.position⟩ written

theorem writeAccounts {memory : Bytes} : WriteAccounts mm memory filesp fd addr len vfs := by
  have nothing : ∀ ret kmallocs, (ret = .ok 0 ∨ ∃ errno, ret = .error errno) →
      ∃ ret' done bytes, (Except.ok ret : Except Errno (Except Errno Int)) = .ok ret' ∧
        Accounts filesp fd vfs ret' done { vfs with kmallocs := kmallocs } ∧
        CallBytes filesp fd true vfs done bytes { vfs with kmallocs := kmallocs } ∧
        ∀ index, index < done → bytes index = memory (addr + index) :=
    fun ret kmallocs answer => ⟨ret, 0, Bytes.zeros, rfl, accounts_nothing answer,
      callBytes_nothing, nofun⟩
  unfold WriteAccounts userWrite
  by_cases empty : len = 0
  · rw [if_pos empty]
    exact ensures_pure (nothing _ vfs.kmallocs (Or.inl rfl))
  rw [if_neg empty]
  apply ensures_bind ensures_fileTestfd
  · rintro permitted _ ⟨rfl, _⟩
    by_cases refused : permitted = false
    · rw [if_pos refused]
      exact ensures_pure (nothing _ _ (Or.inr ⟨_, rfl⟩))
    rw [if_neg refused]
    have allocates : ∀ vfs, kmallocAnswer vfs = .ok (.ok (vfs.kmallocs 0), vfs.allocated) :=
      fun _ => rfl
    apply ensures_bind_run (allocates _)
    by_cases noMem : ‹VfsState›.kmallocs 0 = false
    · rw [if_pos noMem]
      exact ensures_pure (nothing _ _ (Or.inr ⟨_, rfl⟩))
    rw [if_neg noMem]
    apply ensures_userWriteLoop.weaken fun _ => trivial
    rintro _ after ⟨ret, done, bytes, rfl, stored⟩
    exact ⟨ret, done, bytes, rfl,
      accounts_of_answered stored.answered stored.window stored.pieces.position,
      callBytes_of_pieces stored.pieces, stored.bytes⟩
  · rintro _ _ ⟨_, _, impossible⟩
    cases impossible

/-- `sysfile_read` accounts for the bytes it moves if and only if every chunk that `file_read`
delivers may be written where it belongs, and `sysfile_write` always does. -/
theorem sysfile_read_write_account (mm : Option MmStruct) (filesp : Nat) (fd : Int)
    (addr len : Nat) (vfs : VfsState) :
    (ReadAccounts mm filesp fd addr len vfs ↔ CopiesOut mm filesp fd addr len vfs) ∧
      ∀ memory, WriteAccounts mm memory filesp fd addr len vfs :=
  ⟨readAccounts_iff, fun _ => writeAccounts⟩

/-- The file of the small volume, open for reading. -/
def smallReading : VfsState where
  sfs := smallSfs.setInode 1 smallSin
  deviceRefs := fun _ => 0
  openCounts := fun _ => 1
  bootfs := none
  files := fun _ => some ⟨none, 1, fun _ => ⟨.opened, true, false, 0, some (.sfs 1), 1⟩⟩
  filesCreated := 1
  kmallocs := fun _ => true
  typed := []

/-- A process whose memory is a page of code. -/
def codeOnly : MmStruct := ⟨[⟨0x800000, 0x801000, true, false, false⟩]⟩

/-- Three bytes are read into the code. The call fails, and the position is at 3. -/
theorem sysfile_read_loses_bytes :
    (∃ after, userRead (some codeOnly) 0 3 0x800000 3 smallReading =
        .ok (.ok (.error .inval, []), after) ∧ after.position 0 3 = 3) ∧
      ¬ ReadAccounts (some codeOnly) 0 3 0x800000 3 smallReading := by
  have ran : ∃ after, userRead (some codeOnly) 0 3 0x800000 3 smallReading =
      .ok (.ok (.error .inval, []), after) ∧ after.position 0 3 = 3 := ⟨_, rfl, by decide +kernel⟩
  refine ⟨ran, fun accounts => ?_⟩
  obtain ⟨after, failed, position⟩ := ran
  obtain ⟨ret, writes, done, bytes, same, account, _, _⟩ := accounts.of_ok failed
  cases same
  rcases account.answer with isOk | ⟨rfl, _⟩
  · cases isOk
  · have moved := account.position
    rw [position] at moved
    exact absurd moved (by decide)

end UCore.Vfs
