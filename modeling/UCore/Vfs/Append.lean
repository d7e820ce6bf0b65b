import UCore.Fs.SfsTransfer
import UCore.Vfs.Boot
import UCore.Vfs.IoAccounting

/-!
Contract: files that are open with `O_APPEND`, in `kern/fs/file.c`.

Owns:
- the descriptors that append, along any run of calls;
- the calls that leave such a descriptor at the end of its file, and what its writes then keep.

Does not own: what the calls do to the counts of inodes.
-/

set_option autoImplicit false

namespace UCore.Vfs

open UCore.Lib UCore.Lib.Program UCore.Fs

variable {vfs after : VfsState} {filesp fd : Nat} {files : Files} {file : File}
  {lost : Node → Int}

/-! ## Descriptors that append -/

/-- A state, with the slots whose descriptors were opened with `O_APPEND`, or are duplicates of
such. -/
structure Appending where
  vfs : VfsState
  appends : Nat × Nat → Bool

/-- The slots that append behind a call. -/
def Call.marks (filesp : Nat) (call : Call) (result : Except Errno (Option Nat))
    (appends : Nat × Nat → Bool) : Nat × Nat → Bool :=
  match call, result with
  | .fileOpen _ openFlags, .ok (some fd) =>
      Function.update appends (filesp, fd) (hasFlag openFlags oAppend)
  | .fileDup fd1 _, .ok (some fd) =>
      Function.update appends (filesp, fd) (appends (filesp, fd1.toNat))
  | .copyFiles _, .ok (some target) => fun slot =>
      if slot.1 = target then appends (filesp, slot.2) else appends slot
  | _, _ => appends

/-- The calls of processes, with the slots that append. -/
def appendMachine : Machine Appending (Nat × Call) VfsStop where
  Admits state label := callMachine.Admits state.vfs label
  answer state label := (label.2.run label.1 state.vfs).map fun (result, after) =>
    ⟨after, label.2.marks label.1 result state.appends⟩

theorem appendMachine_step {before after : Appending} {label : Nat × Call}
    (step : appendMachine.Step before label after) :
    ∃ files result, before.vfs.files label.1 = some files ∧
      label.2.run label.1 before.vfs = .ok (result, after.vfs) ∧
      after.appends = label.2.marks label.1 result before.appends := by
  obtain ⟨files, found⟩ := Option.isSome_iff_exists.mp step.1
  have answered := step.2
  unfold appendMachine at answered
  simp only [] at answered
  cases ran : label.2.run label.1 before.vfs with
  | error reason =>
      rw [ran] at answered
      cases answered
  | ok pair =>
      rw [ran] at answered
      obtain rfl := Except.ok.inj answered
      exact ⟨files, pair.1, found, rfl, rfl⟩

/-- The entry in a slot. -/
def SlotFile (vfs : VfsState) (slot : Nat × Nat) (file : File) : Prop :=
  ∃ files, vfs.files slot.1 = some files ∧ files.fdArray slot.2 = file

/-- A descriptor that appends to the file `ino`. -/
structure Appender (state : Appending) (slot : Nat × Nat) (file : File) (ino : Nat) : Prop where
  marked : state.appends slot = true
  entry : SlotFile state.vfs slot file
  held : file.held = some (.sfs ino)

/-- Every descriptor that appends is at the end of its file. -/
def AtEnd (state : Appending) : Prop :=
  ∀ slot file ino, Appender state slot file ino → file.pos = state.vfs.sizeOf (.sfs ino)

/-! ## Calls that disturb them -/

/-- The call moves the descriptor in `slot` and its file together: a write or a seek. -/
def Call.MovesEnd (filesp : Nat) (slot : Nat × Nat) : Call → Prop
  | .fileWrite fd _ _ => slot = (filesp, fd.toNat)
  | .fileSeek fd _ _ => slot = (filesp, fd.toNat)
  | _ => False

/-- While a descriptor appends to a file, the call does not change the size of this file but by a
write or a seek through this descriptor, and it does not seek before the end of the file with such
a descriptor. Nothing is asked of a descriptor that the call closes. -/
structure Undisturbed (before : Appending) (label : Nat × Call) (after : Appending) : Prop where
  sizes : ∀ slot file file' ino, Appender before slot file ino → Appender after slot file' ino →
    ¬ label.2.MovesEnd label.1 slot →
    after.vfs.sizeOf (.sfs ino) = before.vfs.sizeOf (.sfs ino)
  seeks : ∀ fd pos whence file ino target, label.2 = .fileSeek fd pos whence →
    Appender before (label.1, fd.toNat) file ino →
    seeksTo before.vfs file (.sfs ino) pos whence = some target →
    (before.vfs.sizeOf (.sfs ino) : Int) ≤ target

/-- The sizes of inodes are `uint32_t`. -/
def SizesFit (state : Appending) : Prop :=
  ∀ slot file ino, Appender state slot file ino → state.vfs.sizeOf (.sfs ino) < 2 ^ 32

/-- A call that leaves the descriptors that append at the end of their files. -/
structure UndisturbedStep (before : Appending) (label : Nat × Call) (after : Appending) : Prop where
  step : appendMachine.Step before label after
  fits : SizesFit after
  undisturbed : Undisturbed before label after

section Step

variable {before after : Appending} {label : Nat × Call} {slot : Nat × Nat} {file' : File} {ino : Nat}

/-- A descriptor that is open behind the call, which leaves it alone. -/
theorem AtEnd.kept (atEnd : AtEnd before) (undisturbed : Undisturbed before label after)
    (appender : Appender before slot file ino) (later : Appender after slot file' ino)
    (other : ¬ label.2.MovesEnd label.1 slot) : file.pos = after.vfs.sizeOf (.sfs ino) := by
  rw [undisturbed.sizes slot file file' ino appender later other]
  exact atEnd slot file ino appender

theorem slotFile_setFile {vfs : VfsState} {file' : File}
    (entry : SlotFile (vfs.setFile filesp files fd file') slot file)
    (found : vfs.files filesp = some files) :
    (slot = (filesp, fd) ∧ file = file') ∨ (slot ≠ (filesp, fd) ∧ SlotFile vfs slot file) := by
  obtain ⟨files', isFiles, rfl⟩ := entry
  obtain ⟨other, place⟩ := slot
  by_cases here : other = filesp
  · subst here
    rw [setFile_found] at isFiles
    obtain rfl := Option.some.inj isFiles
    by_cases same : place = fd
    · subst same
      exact Or.inl ⟨rfl, Files.setFile_self⟩
    · refine Or.inr ⟨fun impossible => same (Prod.mk.inj impossible).2, files, found, ?_⟩
      exact (Function.update_of_ne same _ _).symm
  · rw [VfsState.setFile, files_setFiles_of_ne here] at isFiles
    exact Or.inr ⟨fun impossible => here (Prod.mk.inj impossible).1, files', isFiles, rfl⟩

/-- The entries of a structure that are still open. -/
theorem slotFile_setFiles {vfs : VfsState} {files' : Files}
    (entry : SlotFile (vfs.setFiles filesp files') slot file)
    (found : vfs.files filesp = some files)
    (kept : ∀ fd, (files'.fdArray fd).held = none ∨ files'.fdArray fd = files.fdArray fd)
    (isHeld : file.held ≠ none) : SlotFile vfs slot file := by
  obtain ⟨others, isFiles, rfl⟩ := entry
  obtain ⟨other, place⟩ := slot
  by_cases here : other = filesp
  · subst here
    rw [files_setFiles] at isFiles
    obtain rfl := Option.some.inj isFiles
    exact ⟨files, found, ((kept place).resolve_left isHeld).symm⟩
  · rw [files_setFiles_of_ne here] at isFiles
    exact ⟨others, isFiles, rfl⟩

theorem SlotFile.of_files {vfs vfs' : VfsState} (entry : SlotFile vfs' slot file)
    (same : vfs'.files = vfs.files) : SlotFile vfs slot file := by
  obtain ⟨files, found, here⟩ := entry
  exact ⟨files, by rw [← same, found], here⟩

theorem SlotFile.to_moves {vfs vfs' : VfsState} {refs opens : Node → Int}
    (entry : SlotFile vfs slot file) (moves : Moves refs opens vfs vfs') :
    SlotFile vfs' slot file :=
  entry.of_files moves.files.symm

theorem SlotFile.of_moves {vfs vfs' : VfsState} {refs opens : Node → Int}
    (entry : SlotFile vfs' slot file) (moves : Moves refs opens vfs vfs') :
    SlotFile vfs slot file :=
  entry.of_files moves.files

end Step

/-! ## One call -/

/-- An undisturbed call leaves the descriptors that append at the end. -/
def EndPost (before : Appending) (filesp : Nat) (call : Call)
    (result : Except Errno (Option Nat)) (after : VfsState) : Prop :=
  SizesFit ⟨after, call.marks filesp result before.appends⟩ →
    Undisturbed before (filesp, call) ⟨after, call.marks filesp result before.appends⟩ →
    AtEnd ⟨after, call.marks filesp result before.appends⟩

section Calls

variable {before : Appending} {call : Call} {result : Except Errno (Option Nat)}

theorem EndPost.same (atEnd : AtEnd before)
    (marks : call.marks filesp result before.appends = before.appends) :
    EndPost before filesp call result before.vfs := by
  intro _ _
  rw [marks]
  exact atEnd

/-- A call that opens no descriptor. -/
theorem EndPost.fewer (atEnd : AtEnd before)
    (marks : call.marks filesp result before.appends = before.appends)
    (still : ∀ slot, ¬ call.MovesEnd filesp slot)
    (old : ∀ slot file, SlotFile after slot file → file.held ≠ none → SlotFile before.vfs slot file) :
    EndPost before filesp call result after := by
  intro _ undisturbed slot file ino appender
  have marked := appender.marked
  rw [marks] at marked
  have isOld := old slot file appender.entry (by rw [appender.held]; exact Option.some_ne_none _)
  exact atEnd.kept undisturbed ⟨marked, isOld, appender.held⟩ appender (still slot)

theorem EndPost.moves {refs opens : Node → Int} (atEnd : AtEnd before)
    (marks : call.marks filesp result before.appends = before.appends)
    (still : ∀ slot, ¬ call.MovesEnd filesp slot) (moves : Moves refs opens before.vfs after) :
    EndPost before filesp call result after :=
  EndPost.fewer atEnd marks still fun _ _ entry _ => entry.of_moves moves

/-- A call that changes one entry, whose file it keeps open. -/
theorem EndPost.entry {file' : File} (atEnd : AtEnd before)
    (marks : call.marks filesp result before.appends = before.appends)
    (others : ∀ slot, slot ≠ (filesp, fd) → ¬ call.MovesEnd filesp slot)
    (found : before.vfs.files filesp = some files)
    (table : after.files = (before.vfs.setFile filesp files fd file').files)
    (held : file'.held = (files.fdArray fd).held)
    (moves : ∀ ino, Appender before (filesp, fd) (files.fdArray fd) ino →
      Appender ⟨after, before.appends⟩ (filesp, fd) file' ino → after.sizeOf (.sfs ino) < 2 ^ 32 →
      Undisturbed before (filesp, call) ⟨after, before.appends⟩ →
      file'.pos = after.sizeOf (.sfs ino)) :
    EndPost before filesp call result after := by
  intro fits undisturbed slot file ino appender
  have marked := appender.marked
  have unmarked := undisturbed
  rw [marks] at marked unmarked
  rcases slotFile_setFile (appender.entry.of_files table) found with ⟨rfl, rfl⟩ | ⟨apart, old⟩
  · have appended : Appender before (filesp, fd) (files.fdArray fd) ino :=
      ⟨marked, ⟨files, found, rfl⟩, held ▸ appender.held⟩
    have later : Appender ⟨after, before.appends⟩ (filesp, fd) file ino :=
      ⟨marked, appender.entry, appender.held⟩
    exact moves ino appended later (fits _ _ ino appender) unmarked
  · exact atEnd.kept undisturbed ⟨marked, old, appender.held⟩ appender (others slot apart)

/-- A call that leaves the position of the file it uses. -/
theorem EndPost.inPlace {α : Type} {want : Int} {answer : Except Errno α} (atEnd : AtEnd before)
    (marks : call.marks filesp result before.appends = before.appends)
    (still : ∀ slot, ¬ call.MovesEnd filesp slot)
    (used : SlotUsed before.vfs filesp want (fun file _ _ pos _ => pos = file.pos) answer after) :
    EndPost before filesp call result after := by
  rcases used with ⟨rfl, _⟩ | ⟨files, node, opened, pos, moves, rfl⟩
  · exact EndPost.same atEnd marks
  · apply EndPost.entry atEnd marks (fun slot _ => still slot) opened.found moves.files rfl
    exact fun ino appender later _ undisturbed => atEnd.kept undisturbed appender later (still _)

theorem sizeOf_loaded {vfs : VfsState} {ino : Nat} {sin : SfsInode}
    (loaded : vfs.sfs.inodes ino = some sin) : vfs.sizeOf (.sfs ino) = sin.din.size := by
  rw [VfsState.sizeOf, loaded]

theorem wrap64_size {size : Nat} (fits : size < 2 ^ 32) : wrap64 (size : Int) = size :=
  wrap64_of_range (by omega) (by omega)

/-- A transfer at the end of a file moves the end with it. -/
theorem vopIo_end {vfs after : VfsState} {ino len : Nat} {base : Bytes} {write : Bool} {pos : Int}
    {answer : Except Errno Moved} (start : pos = vfs.sizeOf (.sfs ino))
    (ran : vopIo (.sfs ino) base pos len write vfs = .ok (answer, after)) :
    ∃ size done, Grown ino size done after.sfs ∧ pos = size ∧
      match answer with
      | .ok moved => done = moved.copied
      | .error _ => done = 0 := by
  cases loaded : vfs.sfs.inodes ino with
  | none =>
      have missing : getSin ino vfs.sfs = .error .panicked := by
        simp only [getSin, Bind.bind, Program.bind, Program.read, loaded]
        rfl
      have stuck : Ensures True (sfsIoNolock ino base pos len write) vfs.sfs fun _ _ => False :=
        ensures_bind_stop missing trivial
      have outcome := (ensures_vopIo_sfs stuck).of_ok ran
      cases answer with
      | ok moved => exact outcome.elim fun _ => False.elim
      | error errno => exact outcome.elim
  | some sin =>
      have still : Grown ino sin.din.size 0 vfs.sfs := (SameViews.refl _).grown loaded
      rw [sizeOf_loaded loaded] at start
      cases write with
      | true =>
          have outcome := (ensures_vopIo_sfs (ensures_write_end loaded start)).of_ok ran
          cases answer with
          | ok moved =>
              obtain ⟨_, grown⟩ := outcome
              exact ⟨_, _, grown, start, rfl⟩
          | error errno => exact ⟨_, _, outcome, start, rfl⟩
      | false =>
          have outcome := (ensures_vopIo_sfs (ensures_read_end loaded start)).of_ok ran
          cases answer with
          | ok moved =>
              obtain ⟨_, same, nothing⟩ := outcome
              exact ⟨_, 0, same ▸ still, start, (nothing _ _ _ rfl).symm⟩
          | error errno => exact ⟨_, 0, outcome.1 ▸ still, start, rfl⟩

/-- What a transfer at the end of a file leaves. -/
theorem endPost_io {want : Int} {base : Bytes} {len : Nat} {write : Bool} (atEnd : AtEnd before)
    (marks : ∀ result, call.marks filesp result before.appends = before.appends)
    (others : ∀ slot, slot ≠ (filesp, want.toNat) → ¬ call.MovesEnd filesp slot) :
    Ensures True (do
      let _ ← fileIo filesp want base len write
      pure none : VfsM (Option Nat)) before.vfs (EndPost before filesp call) := by
  have post : ∀ answer after result, FileMoved before.vfs filesp want base len write answer after →
      EndPost before filesp call result after := by
    rintro answer after result
      (⟨rfl, _⟩ | ⟨files, node, middle, pos, found, isNode, ran, rfl, moves⟩)
    · exact EndPost.same atEnd (marks result)
    have table : (middle.setFile filesp files want.toNat
        { files.fdArray want.toNat with pos := pos }).files =
        (before.vfs.setFile filesp files want.toNat
          { files.fdArray want.toNat with pos := pos }).files := by
      simp only [VfsState.setFile, VfsState.setFiles, vopIo_files ran, Function.update_idem]
    apply EndPost.entry atEnd (marks result) others found table rfl
    intro ino appender _ fits _
    have start := atEnd _ _ ino appender
    have held : File.held (files.fdArray want.toNat) = some (.sfs ino) := appender.held
    have isFile : node = .sfs ino := by
      unfold File.held at held
      split_ifs at held
      exact Option.some.inj (isNode.symm.trans held)
    subst isFile
    obtain ⟨size, done, ⟨sin', found', isSize, _⟩, isPos, isDone⟩ :=
      vopIo_end (by exact start) ran
    have now : (middle.setFile filesp files want.toNat
        { files.fdArray want.toNat with pos := pos }).sizeOf (.sfs ino) = size + done :=
      (sizeOf_loaded found').trans isSize
    show pos = _
    rw [now]
    cases answer with
    | ok moved =>
        simp only [] at moves isDone
        rw [moves, isPos, ← isDone, ← Nat.cast_add]
        exact wrap64_size (now ▸ fits)
    | error errno =>
        simp only [] at moves isDone
        rw [moves, isPos, isDone]
        rfl
  exact ensures_bind ensures_fileIo (fun _ after moved => ensures_pure (post _ _ _ moved))
    fun _ after moved => post _ _ _ moved

/-- A new descriptor of a file that was at its end. -/
theorem EndPost.newEntry {file' : File} {refs opens : Node → Int} (atEnd : AtEnd before)
    (still : ∀ slot, ¬ call.MovesEnd filesp slot) (found : before.vfs.files filesp = some files)
    (moves : Moves refs opens (before.vfs.setFile filesp files fd file') after)
    (mark : Bool)
    (marks : call.marks filesp result before.appends = Function.update before.appends (filesp, fd) mark)
    (placed : mark = true → Undisturbed before (filesp, call)
        ⟨after, Function.update before.appends (filesp, fd) mark⟩ →
      ∀ ino, file'.held = some (.sfs ino) → file'.pos = after.sizeOf (.sfs ino)) :
    EndPost before filesp call result after := by
  intro _ undisturbed slot file ino appender
  have marked : call.marks filesp result before.appends slot = true := appender.marked
  have unmarked := undisturbed
  rw [marks] at marked unmarked
  rcases slotFile_setFile (appender.entry.of_moves moves) found with ⟨rfl, rfl⟩ | ⟨apart, old⟩
  · rw [Function.update_self] at marked
    exact placed marked unmarked ino appender.held
  · rw [Function.update_of_ne apart] at marked
    exact atEnd.kept undisturbed ⟨marked, old, appender.held⟩ appender (still slot)

variable (consistent : Consistent lost before.vfs) (atEnd : AtEnd before)
include consistent atEnd

/-- A seek from the end of a file to a place behind it moves the end there. -/
theorem endPost_seek {want pos : Int} {whence : Whence} :
    Meets (fun _ => True) (Call.run filesp (.fileSeek want pos whence)) before.vfs
      (EndPost before filesp (.fileSeek want pos whence)) := by
  have seek := @Balanced.meets_fileSeek before.vfs lost filesp (fun _ => True) want pos whence
    consistent.balanced (fun _ _ => trivial) (fun _ => trivial)
    fun _ _ _ _ _ => ⟨trivial, fun _ _ _ _ => trivial⟩
  have others : ∀ slot, slot ≠ (filesp, want.toNat) →
      ¬ Call.MovesEnd filesp slot (.fileSeek want pos whence) := fun _ apart => apart
  have post : ∀ answer after result,
      SlotUsed before.vfs filesp want (fun file node => Sought before.vfs file node pos whence)
        answer after → EndPost before filesp (.fileSeek want pos whence) result after := by
    rintro answer after result (⟨rfl, _⟩ | ⟨files, node, opened, pos', moves, sought⟩)
    · exact EndPost.same atEnd rfl
    apply EndPost.entry atEnd rfl others opened.found moves.files rfl
    intro ino appender _ _ undisturbed
    have start := atEnd _ _ ino appender
    have held : File.held (files.fdArray want.toNat) = some (.sfs ino) := appender.held
    rw [File.held, if_pos opened.isOpen, opened.held] at held
    obtain rfl := Option.some.inj held
    obtain ⟨sin, loaded, _⟩ := loaded_of_refCount opened.referenced
    rcases sought with ⟨_, rfl, same⟩ | ⟨target, isTarget, outcome, moved⟩
    · rw [start, sizeOf_loaded loaded, sizeOf_loaded (same ▸ loaded)]
    have beyond := undisturbed.seeks want pos whence _ ino target rfl appender isTarget
    rw [sizeOf_loaded loaded] at beyond
    have sought := (ensures_tryseek_end loaded beyond).of_ok outcome
    rcases moved with ⟨rfl, rfl⟩ | ⟨⟨errno, rfl⟩, rfl⟩
    · obtain ⟨sin', found, size⟩ := sought
      rw [sizeOf_loaded found]
      exact size.symm
    · obtain ⟨sin', found, size, _⟩ := sought
      rw [start, sizeOf_loaded loaded, sizeOf_loaded found, size, Nat.add_zero]
  exact meets_bind seek (fun _ after used => meets_pure (post _ _ _ used)) fun _ after used =>
    post _ _ _ used

theorem endPost_open {path : Path} {openFlags : Nat} :
    Meets (fun _ => True) (Call.run filesp (.fileOpen path openFlags)) before.vfs
      (EndPost before filesp (.fileOpen path openFlags)) := by
  have still : ∀ slot, ¬ Call.MovesEnd filesp slot (.fileOpen path openFlags) := fun _ => id
  have opens := (@meets_fileOpen before.vfs filesp path openFlags consistent.balanced.sound
    (consistent.starts filesp)).weaken (fun _ _ => trivial) fun _ _ post => post
  apply meets_bind opens
  · rintro fd after ⟨files, node, size, found, inside, isFree, sized, moves, _⟩
    apply meets_pure
    apply EndPost.newEntry atEnd still found moves (hasFlag openFlags oAppend) rfl
    intro appends _ ino held
    obtain rfl := Option.some.inj held
    rw [if_pos appends] at sized
    rw [← sized]
    rfl
  · rintro errno after (moves | ⟨files, fd, file, found, _, _, isFree, _, _, moves, _⟩)
    · exact EndPost.moves atEnd rfl still moves
    · apply EndPost.fewer atEnd rfl still
      intro slot other entry isHeld
      rcases slotFile_setFile (entry.of_moves moves) found with ⟨_, rfl⟩ | ⟨_, old⟩
      · exact absurd (File.held_free isFree) isHeld
      · exact old

theorem endPost_close {want : Int} :
    Meets (fun _ => True) (Call.run filesp (.fileClose want)) before.vfs
      (EndPost before filesp (.fileClose want)) := by
  have close := (@Balanced.meets_fileClose before.vfs lost filesp want consistent.balanced).weaken
    (fun _ _ => trivial) fun _ _ post => post
  apply meets_bind close
  · rintro _ after ⟨_, files, node, opened, moves⟩
    apply meets_pure
    apply EndPost.fewer atEnd rfl fun _ => id
    intro slot file entry isHeld
    rcases slotFile_setFile (entry.of_moves moves) opened.found with ⟨_, rfl⟩ | ⟨_, old⟩
    · exact absurd (File.held_free rfl) isHeld
    · exact old
  · rintro errno after ⟨_, same⟩
    obtain rfl : after = before.vfs := same
    exact EndPost.same atEnd rfl

theorem endPost_dup {want want' : Int} :
    Meets (fun _ => True) (Call.run filesp (.fileDup want want')) before.vfs
      (EndPost before filesp (.fileDup want want')) := by
  have still : ∀ slot, ¬ Call.MovesEnd filesp slot (.fileDup want want') := fun _ => id
  have duplicates := (@Balanced.meets_fileDup before.vfs lost filesp want want'
    consistent.balanced).weaken (fun _ _ => trivial) fun _ _ post => post
  apply meets_bind duplicates
  · rintro fd after ⟨_, files, node, opened, _, isFree, moves⟩
    have apart : want.toNat ≠ fd := by
      intro same
      have isOpen := opened.isOpen
      rw [same, isFree] at isOpen
      cases isOpen
    apply meets_pure
    apply EndPost.newEntry atEnd still opened.found moves
      (before.appends (filesp, want.toNat)) rfl
    intro appends undisturbed ino held
    have source : (files.fdArray want.toNat).held = some (.sfs ino) := by
      rw [File.held, if_pos opened.isOpen]
      exact held
    have appender : Appender before (filesp, want.toNat) (files.fdArray want.toNat) ino :=
      ⟨appends, ⟨files, opened.found, rfl⟩, source⟩
    -- the descriptor that is duplicated stays open
    have stays : SlotFile after (filesp, want.toNat) (files.fdArray want.toNat) :=
      SlotFile.to_moves ⟨_, setFile_found, Function.update_of_ne apart _ _⟩ moves
    have marked : Function.update before.appends (filesp, fd) (before.appends (filesp, want.toNat))
        (filesp, want.toNat) = true := by
      rw [Function.update_of_ne fun same => apart (Prod.mk.inj same).2]
      exact appends
    have start := atEnd.kept undisturbed appender ⟨marked, stays, source⟩ (still _)
    exact start
  · rintro errno after ⟨_, same⟩
    obtain rfl : after = before.vfs := same
    exact EndPost.same atEnd rfl

theorem endPost_chdir {path : Path} :
    Meets (fun _ => True) (Call.run filesp (.vfsChdir path)) before.vfs
      (EndPost before filesp (.vfsChdir path)) := by
  have changes := (@Balanced.meets_vfsChdir before.vfs lost filesp path consistent.balanced
    consistent.kept (consistent.starts filesp)).weaken (fun _ _ => trivial) fun _ _ post => post
  apply meets_bind changes
  · rintro _ after ⟨_, files, dir, found, _, _, moves⟩
    apply meets_pure
    apply EndPost.fewer atEnd rfl fun _ => id
    exact fun slot file entry isHeld =>
      slotFile_setFiles (entry.of_moves moves) found (fun _ => Or.inr rfl) isHeld
  · rintro errno after ⟨_, moves⟩
    exact EndPost.moves atEnd rfl (fun _ => id) moves

theorem endPost_closeall :
    Meets (fun _ => True) (Call.run filesp .filesCloseall) before.vfs
      (EndPost before filesp .filesCloseall) := by
  have closes := (@Balanced.meets_filesCloseall before.vfs lost filesp
    consistent.balanced).weaken (fun _ _ => trivial) fun _ _ post => post
  apply meets_bind_of_run closes
  rintro _ after ⟨rfl, files, found, files', refs, opens, closed, _, moves, _⟩
  refine ⟨(), rfl, meets_pure ?_⟩
  apply EndPost.fewer atEnd rfl fun _ => id
  refine fun slot file entry isHeld =>
    slotFile_setFiles (entry.of_moves moves) found (fun entry => ?_) isHeld
  by_cases within : 2 ≤ entry ∧ entry < filesStructNentry
  · exact Or.inl (File.held_free (closed.closed entry within.1 within.2))
  · exact Or.inr (closed.others entry within)

theorem endPost_copy {share : Bool} (found : before.vfs.files filesp = some files) :
    Meets (fun _ => True) (Call.run filesp (.copyFiles share)) before.vfs
      (EndPost before filesp (.copyFiles share)) := by
  have still : ∀ slot, ¬ Call.MovesEnd filesp slot (.copyFiles share) := fun _ => id
  have copies := (@Balanced.meets_copyFiles before.vfs lost filesp files share consistent.balanced
    found).weaken (fun _ _ => trivial) fun _ _ post => post
  apply meets_bind copies
  · rintro target after ⟨_, ⟨_, rfl, rfl⟩ | ⟨_, rfl, refs, opens, _, moves⟩⟩
    · apply meets_pure
      have marks : Call.marks target (.copyFiles share) (.ok (some target)) before.appends =
          before.appends := by
        funext ⟨other, entry⟩
        change (if other = target then before.appends (target, entry)
          else before.appends (other, entry)) = _
        split_ifs with same
        · rw [same]
        · rfl
      apply EndPost.fewer atEnd marks still
      exact fun slot file entry isHeld =>
        slotFile_setFiles entry found (fun _ => Or.inr rfl) isHeld
    · have created : filesp ≠ before.vfs.filesCreated :=
        Nat.ne_of_lt (consistent.balanced.created filesp files found)
      apply meets_pure
      rintro _ undisturbed ⟨other, entry⟩ file ino ⟨marked, ⟨others, isOther, rfl⟩, held⟩
      have later := isOther
      replace isOther : (before.vfs.withDuplicate files).files other = some others := by
        rw [← moves.files, isOther]
      change (if other = before.vfs.filesCreated then before.appends (filesp, entry)
        else before.appends (other, entry)) = true at marked
      by_cases same : other = before.vfs.filesCreated
      · subst same
        rw [if_pos rfl] at marked
        have here : (before.vfs.withDuplicate files).files before.vfs.filesCreated =
            some (files.duplicate 1 filesStructNentry) := Function.update_self ..
        obtain rfl := Option.some.inj (here.symm.trans isOther)
        by_cases isOpen : entry < filesStructNentry ∧ (files.fdArray entry).status = .opened
        · have copied : (files.duplicate 1 filesStructNentry).fdArray entry =
              (files.fdArray entry).duplicate := if_pos isOpen
          rw [copied] at held ⊢
          have source : (files.fdArray entry).held = some (.sfs ino) := by
            rw [File.held, if_pos isOpen.2]
            exact held
          have appender : Appender before (filesp, entry) (files.fdArray entry) ino :=
            ⟨marked, ⟨files, found, rfl⟩, source⟩
          -- the structure that is copied stays as it is
          have stays : SlotFile after (filesp, entry) (files.fdArray entry) :=
            SlotFile.to_moves ⟨files, (Function.update_of_ne created _ _).trans found, rfl⟩ moves
          have kept : (if filesp = before.vfs.filesCreated then before.appends (filesp, entry)
              else before.appends (filesp, entry)) = true := by
            rw [ite_self]
            exact marked
          have start := atEnd.kept undisturbed appender ⟨kept, stays, source⟩ (still _)
          exact start
        · have initial : (files.duplicate 1 filesStructNentry).fdArray entry = File.initial :=
            if_neg isOpen
          rw [initial] at held
          cases held
      · have marks := marked
        rw [if_neg same] at marked
        have there : (before.vfs.withDuplicate files).files other = before.vfs.files other :=
          Function.update_of_ne same _ _
        exact atEnd.kept undisturbed ⟨marked, ⟨others, there.symm.trans isOther, rfl⟩, held⟩
          ⟨marks, ⟨others, later, rfl⟩, held⟩ (still _)
  · rintro errno after ⟨_, _, moves⟩
    exact EndPost.moves atEnd rfl still moves

theorem endPost_put (found : before.vfs.files filesp = some files) :
    Meets (fun _ => True) (Call.run filesp .putFiles) before.vfs
      (EndPost before filesp .putFiles) := by
  have puts := (@Balanced.meets_putFiles before.vfs lost filesp files consistent.balanced
    consistent.kept found (consistent.noDevice found)).weaken (fun _ _ => trivial)
      fun _ _ post => post
  apply meets_bind_of_run puts
  rintro _ after ⟨rfl, _, ⟨_, rfl⟩ | ⟨_, refs, opens, _, moves, _⟩⟩
  · refine ⟨(), rfl, meets_pure (EndPost.fewer atEnd rfl (fun _ => id) ?_)⟩
    exact fun slot file entry isHeld =>
      slotFile_setFiles entry found (fun _ => Or.inr rfl) isHeld
  · refine ⟨(), rfl, meets_pure (EndPost.fewer atEnd rfl (fun _ => id) ?_)⟩
    rintro ⟨other, entry⟩ file ⟨others, isOther, rfl⟩ _
    rw [moves.files] at isOther
    by_cases same : other = filesp
    · subst same
      have gone : (before.vfs.dropFiles other).files other = none := Function.update_self ..
      cases gone.symm.trans isOther
    · have there : (before.vfs.dropFiles filesp).files other = before.vfs.files other :=
        Function.update_of_ne same _ _
      exact ⟨others, there.symm.trans isOther, rfl⟩

omit consistent in
/-- A call that leaves the position of the file it uses. -/
theorem endPost_inPlace {α : Type} {want : Int} {program : VfsM α} {stops : VfsStop → Prop}
    (uses : Meets stops program before.vfs
      (SlotUsed before.vfs filesp want fun file _ _ pos _ => pos = file.pos))
    (marks : ∀ result, call.marks filesp result before.appends = before.appends)
    (still : ∀ slot, ¬ call.MovesEnd filesp slot) :
    Meets (fun _ => True) (do
      let _ ← program
      pure none : VfsM (Option Nat)) before.vfs (EndPost before filesp call) :=
  meets_bind (uses.weaken (fun _ _ => trivial) fun _ _ post => post)
    (fun _ _ used => meets_pure (EndPost.inPlace atEnd (marks _) still used))
    fun _ _ used => EndPost.inPlace atEnd (marks _) still used

/-- Every call, undisturbed, leaves the descriptors that append at the end. -/
theorem endPost_run (found : before.vfs.files filesp = some files)
    (ran : call.run filesp before.vfs = .ok (result, after)) :
    EndPost before filesp call result after := by
  have balanced := consistent.balanced
  cases call with
  | fileOpen path openFlags => exact (endPost_open consistent atEnd).of_ok ran
  | fileClose fd => exact (endPost_close consistent atEnd).of_ok ran
  | fileDup fd1 fd2 => exact (endPost_dup consistent atEnd).of_ok ran
  | fileRead fd base len =>
      have reads := @endPost_io filesp before (.fileRead fd base len) fd base len false atEnd
        (fun _ => rfl) fun _ _ => id
      exact reads.of_ok ran
  | fileWrite fd base len =>
      have writes := @endPost_io filesp before (.fileWrite fd base len) fd base len true atEnd
        (fun _ => rfl) fun _ apart => apart
      exact writes.of_ok ran
  | fileSeek fd pos whence => exact (endPost_seek consistent atEnd).of_ok ran
  | fileFstat fd =>
      have stats := @endPost_inPlace filesp before (.fileFstat fd) atEnd _ _ _ _
        (@Balanced.meets_fileFstat _ _ filesp NotMissing fd balanced notMissing_plain)
        (fun _ => rfl) fun _ => id
      exact stats.of_ok ran
  | fileFsync fd =>
      have syncs := @endPost_inPlace filesp before (.fileFsync fd) atEnd _ _ _ _
        (@Balanced.meets_fileFsync _ _ filesp fd balanced) (fun _ => rfl) fun _ => id
      exact syncs.of_ok ran
  | fileGetdirentry fd offset =>
      have reads := @endPost_inPlace filesp before (.fileGetdirentry fd offset) atEnd _ _ _ _
        (@Balanced.meets_fileGetdirentry _ _ filesp fd offset balanced) (fun _ => rfl) fun _ => id
      exact reads.of_ok ran
  | vfsChdir path => exact (endPost_chdir consistent atEnd).of_ok ran
  | copyFiles share => exact (endPost_copy consistent atEnd found).of_ok ran
  | filesCloseall => exact (endPost_closeall consistent atEnd).of_ok ran
  | putFiles => exact (endPost_put consistent atEnd found).of_ok ran

end Calls

/-! ## Writes at the end -/

/-- Every write through a descriptor that appends starts at the end of its file, and keeps the
bytes before it. -/
def WritesAtEnd (state : Appending) : Prop :=
  ∀ filesp fd file ino, Appender state (filesp, Int.toNat fd) file ino →
    file.pos = state.vfs.sizeOf (.sfs ino) ∧
    ∀ inos sin base len result after, Fs.Consistent state.vfs.sfs inos →
      FilledFile state.vfs.sfs ino sin →
      fileWrite filesp fd base len state.vfs = .ok (result, after) →
      ∃ done, (∀ moved, result = .ok moved → done = moved.copied) ∧
        blockBytes after.sfs ino =
          (blockBytes state.vfs.sfs ino).overlay (state.vfs.sizeOf (.sfs ino)) done base

theorem AtEnd.writesAtEnd {state : Appending} (atEnd : AtEnd state) : WritesAtEnd state := by
  intro filesp fd file ino appender
  have start := atEnd _ file ino appender
  refine ⟨start, ?_⟩
  intro inos sin base len result after consistent isFile ran
  obtain ⟨files, found, rfl⟩ := appender.entry
  have position := @position_found state.vfs filesp fd files found
  have isNode : state.vfs.nodeAt filesp fd = some (.sfs ino) := by
    have held := appender.held
    rw [File.held] at held
    split_ifs at held
    rw [nodeAt_found found]
    exact held
  rcases (fileIo_moves ran).bytes isNode consistent isFile with
    ⟨rfl, errno, rfl⟩ | ⟨moved, sin', rfl, bytes⟩
  · refine ⟨0, (by intros; contradiction), ?_⟩
    rw [Bytes.overlay_nothing]
  · refine ⟨moved.copied, fun _ same => by cases same; rfl, ?_⟩
    have stored := bytes.stored
    rw [position, start, Int.toNat_natCast, if_pos rfl] at stored
    exact stored

/-- The bytes before the end are kept. -/
theorem WritesAtEnd.keeps {state : Appending} {inos : List Nat} {filesp ino len index : Nat}
    {fd : Int} {file : File} {sin : SfsInode} {base : Bytes} {result : Except Errno Moved}
    {after : VfsState} (writes : WritesAtEnd state)
    (appender : Appender state (filesp, fd.toNat) file ino)
    (consistent : Fs.Consistent state.vfs.sfs inos) (isFile : FilledFile state.vfs.sfs ino sin)
    (ran : fileWrite filesp fd base len state.vfs = .ok (result, after))
    (early : index < state.vfs.sizeOf (.sfs ino)) :
    blockBytes after.sfs ino index = blockBytes state.vfs.sfs ino index := by
  obtain ⟨_, bytes⟩ := writes filesp fd file ino appender
  obtain ⟨done, _, stored⟩ := bytes inos sin base len result after consistent isFile ran
  rw [stored, Bytes.overlay, if_neg (by omega)]

theorem UndisturbedStep.atEnd {before after : Appending} {label : Nat × Call}
    (consistent : Consistent lost before.vfs) (atEnd : AtEnd before)
    (step : UndisturbedStep before label after) : AtEnd after := by
  obtain ⟨files, result, found, ran, marks⟩ := appendMachine_step step.step
  have same : after = ⟨after.vfs, label.2.marks label.1 result before.appends⟩ := by rw [← marks]
  have undisturbed := step.undisturbed
  have fits := step.fits
  rw [same] at undisturbed fits ⊢
  exact endPost_run consistent atEnd found ran fits undisturbed

/-- In every run of undisturbed calls, the descriptors that append write at the end. -/
theorem o_append_writes_at_end {first : VfsState} {calls : List (Nat × Call)} {state : Appending}
    (booted : Booted first)
    (run : Run UndisturbedStep ⟨first, fun _ => false⟩ calls state) : WritesAtEnd state := by
  have reached : (∃ lost, Consistent lost state.vfs) ∧ AtEnd state := by
    apply run.invariant (fun state => (∃ lost, Consistent lost state.vfs) ∧ AtEnd state)
    · rintro before label after ⟨⟨lost, consistent⟩, atEnd⟩ step
      obtain ⟨files, result, found, ran, _⟩ := appendMachine_step step.step
      obtain ⟨lost', later, _⟩ := ((consistent.meets_run found label.2).of_ok ran).consistent
      exact ⟨⟨lost', later⟩, step.atEnd consistent atEnd⟩
    · exact ⟨⟨0, booted.consistent⟩, fun slot file ino appender =>
      absurd appender.marked Bool.false_ne_true⟩
  exact reached.2.writesAtEnd

/-! ## A small volume -/

/-- A volume of seven blocks, whose root directory has the empty file `a`. -/
def fileSfs : SfsFs where
  blocks := 7
  unusedBlocks := 2
  superDirty := false
  freemapBits := 32768
  freemap block := decide (block = 5 ∨ block = 6)
  dBlocks := 7
  disk block :=
    if block = sfsBlknRoot then
      DiskInode.toBytes ⟨sfsDentrySize, sfsTypeDir, 1, 1, fun index => if index = 0 then 3 else 0, 0⟩
    else if block = 3 then (Bytes.ofNumber 4).overlay 4 1 fun _ => 97
    else if block = 4 then DiskInode.toBytes ⟨0, sfsTypeFile, 1, 0, fun _ => 0, 0⟩
    else Bytes.zeros
  inodes _ := none

/-- The state after the boot file system was set, with memory for everything. -/
def fileBooted : Option VfsState :=
  match vfsSetBootfs initFiles bootName (atBoot fileSfs (fun _ => true) []) with
  | .ok (.ok (), vfs) => some vfs
  | _ => none

theorem fileBooted_booted {vfs : VfsState} (booted : fileBooted = some vfs) : Booted vfs := by
  refine ⟨fileSfs, fun _ => true, [], ?_⟩
  unfold fileBooted at booted
  split at booted
  · next ran =>
      obtain rfl := Option.some.inj booted
      exact ran
  · cases booted

def openAppending : Nat × Call := (initFiles, .fileOpen [97] (oWronly ||| oAppend))

def writeByte (fd : Int) (byte : UInt8) : Nat × Call := (initFiles, .fileWrite fd (fun _ => byte) 1)

def closeFirst : Nat × Call := (initFiles, .fileClose 0)

instance : DecidableRel appendMachine.Admits := fun _ _ => inferInstanceAs (Decidable (_ = true))

/-- No descriptor appends but the first one of the initial process. -/
def OnlyFirst (state : Appending) : Prop :=
  ∀ slot, state.appends slot = true → slot = (initFiles, 0)

/-- The file to which this descriptor is open. -/
def firstNode (vfs : VfsState) : Option Node :=
  (vfs.files initFiles).bind fun files => (files.fdArray 0).held

theorem OnlyFirst.appender {state : Appending} {slot : Nat × Nat} {ino : Nat}
    (only : OnlyFirst state) (appender : Appender state slot file ino) :
    slot = (initFiles, 0) ∧ firstNode state.vfs = some (.sfs ino) := by
  have first : slot = (initFiles, 0) := only slot appender.marked
  obtain ⟨files, found, same⟩ := appender.entry
  rw [first] at found same
  rw [firstNode, found, Option.bind_some, same]
  exact ⟨first, appender.held⟩

/-- The initial process opens its first descriptor, closes it or writes through it. -/
def usesFirst (state : Appending) (label : Nat × Call) : Bool :=
  match label.2.run label.1 state.vfs with
  | .error _ => false
  | .ok (result, after) =>
      label.1 == initFiles && (firstNode after).all (fun node => decide (after.sizeOf node < 2 ^ 32)) &&
        match label.2, result with
        | .fileOpen _ _, .ok (some fd) => fd == 0 && (firstNode state.vfs).isNone
        | .fileClose _, _ => (firstNode after).isNone
        | .fileWrite fd _ _, _ => fd.toNat == 0
        | _, _ => false

theorem OnlyFirst.step {before after : Appending} {label : Nat × Call} (only : OnlyFirst before)
    (step : appendMachine.Step before label after) (uses : usesFirst before label = true) :
    UndisturbedStep before label after ∧ OnlyFirst after := by
  obtain ⟨files, result, found, ran, marks⟩ := appendMachine_step step
  obtain ⟨filesp, call⟩ := label
  simp only [usesFirst, ran, Bool.and_eq_true, beq_iff_eq] at uses
  obtain ⟨⟨rfl, sized⟩, kind⟩ := uses
  have kept : OnlyFirst after ∧ (call.MovesEnd initFiles (initFiles, 0) ∨
      firstNode before.vfs = none ∨ firstNode after.vfs = none) ∧
      ∀ fd pos whence, call ≠ .fileSeek fd pos whence := by
    unfold OnlyFirst
    rw [marks]
    split at kind
    · next fd =>
        simp only [Bool.and_eq_true, beq_iff_eq, Option.isNone_iff_eq_none] at kind
        refine ⟨fun slot marked => ?_, Or.inr (Or.inl kind.2), fun _ _ _ => Call.noConfusion⟩
        by_contra apart
        change Function.update before.appends (initFiles, fd) _ slot = true at marked
        rw [kind.1, Function.update_of_ne apart] at marked
        exact apart (only slot marked)
    · exact ⟨only, Or.inr (Or.inr (Option.isNone_iff_eq_none.mp kind)),
        fun _ _ _ => Call.noConfusion⟩
    · refine ⟨only, Or.inl ?_, fun _ _ _ => Call.noConfusion⟩
      rw [Call.MovesEnd, beq_iff_eq.mp kind]
    · cases kind
  obtain ⟨later, moves, notSeek⟩ := kept
  refine ⟨⟨step, ?_, ?_, ?_⟩, later⟩
  · intro slot file ino appender
    rw [(later.appender appender).2] at sized
    exact of_decide_eq_true sized
  · intro slot file file' ino appender appender' other
    obtain ⟨rfl, isOpen⟩ := only.appender appender
    rw [isOpen, (later.appender appender').2] at moves
    simp only [reduceCtorEq, or_false] at moves
    exact absurd moves other
  · exact fun fd pos whence file ino target isSeek => absurd isSeek (notSeek fd pos whence)

theorem OnlyFirst.run {first last : Appending} {calls : List (Nat × Call)}
    (run : Run (appendMachine.StepMeeting fun state label => usesFirst state label = true) first
      calls last) (only : OnlyFirst first) : Run UndisturbedStep first calls last := by
  induction run with
  | nil => exact Run.nil _
  | cons move _ inductionHypothesis =>
      obtain ⟨undisturbed, later⟩ := only.step move.1 move.2
      exact Run.cons undisturbed (inductionHypothesis later)

/-- A byte is appended, and another one behind a second open. -/
def appendReopened : List (Nat × Call) :=
  [openAppending, writeByte 0 120, closeFirst, openAppending, writeByte 0 121]

theorem o_append_writes_at_end_small : ∃ first state, Booted first ∧
    Run UndisturbedStep ⟨first, fun _ => false⟩ appendReopened state ∧
    state.vfs.sizeOf (.sfs 4) = 2 ∧ blockBytes state.vfs.sfs 4 0 = 120 ∧
    blockBytes state.vfs.sfs 4 1 = 121 ∧ WritesAtEnd state := by
  have done : (fileBooted.bind fun first =>
      (follow (appendMachine.next fun state label => usesFirst state label = true)
        ⟨first, fun _ => false⟩ appendReopened).map fun state => (first, state)).any (fun states =>
          states.2.vfs.sizeOf (.sfs 4) = 2 ∧ blockBytes states.2.vfs.sfs 4 0 = 120 ∧
          blockBytes states.2.vfs.sfs 4 1 = 121) = true := by decide +kernel
  obtain ⟨⟨first, state⟩, ran, checks⟩ := (Option.any_eq_true _ _).mp done
  obtain ⟨size, bytes, bytes'⟩ := of_decide_eq_true checks
  obtain ⟨start, isBooted, followed⟩ := Option.bind_eq_some_iff.mp ran
  obtain ⟨last, finished, same⟩ := Option.map_eq_some_iff.mp followed
  obtain ⟨rfl, rfl⟩ := Prod.mk.inj same
  have booted := fileBooted_booted isBooted
  have only : OnlyFirst ⟨start, fun _ => false⟩ := by
    intro slot marked
    cases marked
  have run := OnlyFirst.run (Machine.follow_next_run finished) only
  exact ⟨start, last, booted, run, size, bytes, bytes', o_append_writes_at_end booted run⟩

/-- Two descriptors append to the file, and a byte is written through the first. -/
def appendTwice : List (Nat × Call) := [openAppending, openAppending, writeByte 0 120]

/-- A write through the second descriptor replaces the byte. -/
theorem o_append_overwrites : ∃ first state, Booted first ∧
    Run appendMachine.Step ⟨first, fun _ => false⟩ appendTwice state ∧ ¬ WritesAtEnd state ∧
    ∃ after, (writeByte 1 121).2.run initFiles state.vfs = .ok (.ok none, after) ∧
      state.vfs.sizeOf (.sfs 4) = 1 ∧ blockBytes state.vfs.sfs 4 0 = 120 ∧
      blockBytes after.sfs 4 0 = 121 := by
  have done : (fileBooted.bind fun first => (follow (appendMachine.next fun _ _ => True)
      ⟨first, fun _ => false⟩ appendTwice).map fun state => (first, state)).any (fun states =>
        states.2.appends (initFiles, 1) = true ∧
        (states.2.vfs.files initFiles).map (fun files =>
          ((files.fdArray 1).held, (files.fdArray 1).pos)) = some (some (.sfs 4), 0) ∧
        states.2.vfs.sizeOf (.sfs 4) = 1 ∧ blockBytes states.2.vfs.sfs 4 0 = 120 ∧
        (((writeByte 1 121).2.run initFiles states.2.vfs).toOption.any fun written =>
          written.1.toOption = some none ∧ blockBytes written.2.sfs 4 0 = 121) = true) = true := by
    decide +kernel
  obtain ⟨⟨first, state⟩, ran, checks⟩ := (Option.any_eq_true _ _).mp done
  obtain ⟨marked, entry, size, before, writes⟩ := of_decide_eq_true checks
  obtain ⟨start, isBooted, followed⟩ := Option.bind_eq_some_iff.mp ran
  obtain ⟨last, finished, same⟩ := Option.map_eq_some_iff.mp followed
  obtain ⟨rfl, rfl⟩ := Prod.mk.inj same
  refine ⟨start, last, fileBooted_booted isBooted,
    Run.mono (fun _ _ _ move => move.1) (Machine.follow_next_run finished), ?_, ?_⟩
  · intro atEnd
    obtain ⟨files, found, held⟩ := Option.map_eq_some_iff.mp entry
    obtain ⟨held, pos⟩ := Prod.mk.inj held
    obtain ⟨start, _⟩ := atEnd initFiles 1 (files.fdArray 1) 4 ⟨marked, ⟨files, found, rfl⟩, held⟩
    rw [pos, size] at start
    cases start
  · obtain ⟨⟨answer, after⟩, wrote, checked⟩ := (Option.any_eq_true _ _).mp writes
    obtain ⟨isOk, byte⟩ := of_decide_eq_true checked
    obtain rfl : answer = .ok none := ok_of_toOption isOk
    exact ⟨after, ok_of_toOption wrote, size, before, byte⟩

end UCore.Vfs
