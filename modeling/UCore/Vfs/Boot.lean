import UCore.Vfs.Calls

/-!
Contract: the file system when the first user program starts.

Owns:
- the state in which `init_main` calls `vfs_set_bootfs("disk0:")`, with any disk mounted;
- that the state is consistent after this call;
- the machine of calls.

Does not own: mounting.
-/

set_option autoImplicit false

namespace UCore.Vfs

open UCore.Lib UCore.Lib.Program UCore.Fs

variable {vfs after : VfsState} {node : Node} {lost : Node → Int} {filesp : Nat}

/-- A structure that `files_create` made, with one holder. -/
def Files.created : Files := ⟨none, 1, fun _ => File.initial⟩

/-- Before `init_main` sets the boot file system: no inode of the mounted file system is in memory,
and the idle process and the first process have a files structure each. -/
def atBoot (sfs : SfsFs) (kmallocs : Nat → Bool) (typed : List UInt8) : VfsState where
  sfs := { sfs with inodes := fun _ => none }
  deviceRefs _ := 1
  openCounts _ := 0
  bootfs := none
  files filesp := if filesp < 2 then some Files.created else none
  filesCreated := 2
  kmallocs := kmallocs
  typed := typed

/-- `"disk0:"` -/
def bootName : Path := disk0Name ++ [colon]

/-- The first process, which set the boot file system. -/
def initFiles : Nat := 1

/-- The state that `init_main` goes on in. -/
def Booted (vfs : VfsState) : Prop :=
  ∃ sfs kmallocs typed,
    vfsSetBootfs initFiles bootName (atBoot sfs kmallocs typed) = .ok (.ok (), vfs)

section AtBoot

variable {sfs : SfsFs} {kmallocs : Nat → Bool} {typed : List UInt8}

theorem found_atBoot {files : Files}
    (found : (atBoot sfs kmallocs typed).files filesp = some files) :
    filesp < 2 ∧ files = Files.created := by
  unfold atBoot at found
  simp only [] at found
  split_ifs at found with early
  exact ⟨early, (Option.some.inj found).symm⟩

theorem balanced_atBoot : Balanced 0 (atBoot sfs kmallocs typed) := by
  have noneOpen : ∀ slot, openNode (atBoot sfs kmallocs typed) slot = none := by
    rintro ⟨filesp, fd⟩
    cases found : (atBoot sfs kmallocs typed).files filesp with
    | none => rw [openNode, found, Option.bind_none]
    | some files =>
        obtain ⟨_, rfl⟩ := found_atBoot found
        rw [openNode_of_found found]
        rfl
  have noPwd : ∀ filesp, pwdNode (atBoot sfs kmallocs typed) filesp = none := by
    intro filesp
    cases found : (atBoot sfs kmallocs typed).files filesp with
    | none => rw [pwdNode, found, Option.bind_none]
    | some files =>
        obtain ⟨_, rfl⟩ := found_atBoot found
        rw [pwdNode_of_found found]
        rfl
  have slotsZero : ∀ node, openSlots (atBoot sfs kmallocs typed) node = 0 := fun node =>
    tally_none fun slot => by rw [noneOpen]; rfl
  have dirsZero : ∀ node, workingDirs (atBoot sfs kmallocs typed) node = 0 := fun node =>
    tally_none fun slot => by rw [noPwd]; rfl
  constructor
  · exact ⟨(by intros; contradiction), fun _ => Nat.one_pos⟩
  · exact fun filesp files found => (found_atBoot found).1
  · intro filesp files fd found
    obtain ⟨_, rfl⟩ := found_atBoot found
    exact Or.inl ⟨rfl, rfl⟩
  · intro node
    unfold holders
    rw [slotsZero, dirsZero]
    cases node <;> rfl
  · intro node
    rw [slotsZero]
    cases node <;> rfl
  · intro node
    rw [dirsZero]
    exact le_rfl
  · exact fun _ => le_rfl

/-- The lookup of the boot file system finds its root. -/
theorem meets_lookupBoot :
    Meets NotMissing (vfsLookup filesp bootName) vfs fun result after =>
      Moves (handed just result) 0 vfs after ∧
        ∀ node, result = .ok node → node = .sfs sfsBlknRoot := by
  have device : getDevice filesp bootName = (do
      let node ← sfsGetRoot
      pure (node, [])) := rfl
  have root : Meets NotMissing sfsGetRoot vfs fun result after =>
      Moves (handed just result) 0 vfs after ∧
        ∀ node, result = .ok node → node = .sfs sfsBlknRoot := by
    apply meets_bind_attempt (meets_loadInode sfsBlknRoot)
    rintro (_ | _) after taken
    · exact notMissing_other _
    · refine meets_pure ⟨taken, ?_⟩
      rintro _ ⟨⟩
      rfl
  have located : Meets NotMissing (getDevice filesp bootName) vfs fun result after =>
      Moves (handed (fun found => just found.1) result) 0 vfs after ∧
        ∀ found, result = .ok found → found = (.sfs sfsBlknRoot, []) := by
    rw [device]
    apply meets_bind root
    · rintro node after ⟨taken, isRoot⟩
      refine meets_pure ⟨taken, ?_⟩
      rintro _ ⟨⟩
      rw [isRoot node rfl]
    · rintro errno after ⟨taken, _⟩
      exact ⟨taken, fun _ impossible => nomatch impossible⟩
  apply meets_bind located
  · rintro ⟨node, rest⟩ after ⟨taken, isRoot⟩
    obtain ⟨rfl, rfl⟩ := Prod.mk.inj (isRoot _ rfl)
    refine meets_pure ⟨taken, ?_⟩
    rintro _ ⟨⟩
    rfl
  · rintro errno after ⟨taken, _⟩
    exact ⟨taken, fun _ impossible => nomatch impossible⟩

/-- Setting the boot file system leaves a consistent state. -/
theorem meets_setBootfs :
    Meets NotMissing (vfsSetBootfs initFiles bootName) (atBoot sfs kmallocs typed)
      fun result after => result = .ok () → Consistent 0 after := by
  have isName : ¬ (bootName.dropWhile fun byte => byte ≠ colon) ≠ [colon] := by decide
  rw [vfsSetBootfs, if_neg isName]
  have found : (atBoot sfs kmallocs typed).files initFiles = some Files.created := rfl
  have noPwd : ∀ files node, (atBoot sfs kmallocs typed).files initFiles = some files →
      files.pwd = some node → Directory (atBoot sfs kmallocs typed) node := by
    intro files node isFiles isPwd
    obtain ⟨_, rfl⟩ := found_atBoot isFiles
    cases isPwd
  apply meets_bind (balanced_atBoot.meets_chdirTo (fun _ => le_rfl) meets_lookupBoot noPwd)
  · rintro _ state ⟨balanced, files, dir, isFiles, rfl, isDir, moves⟩
    obtain ⟨_, rfl⟩ := found_atBoot isFiles
    have table : state.inOps (.sfs sfsBlknRoot) = sfsNodeDirops :=
      isDir.resolve_left fun impossible => nomatch impossible
    have here : state.files initFiles =
        some { Files.created with pwd := some (.sfs sfsBlknRoot) } := by
      rw [moves.files]
      exact files_setFiles
    have unset : state.bootfs = none := moves.bootfs
    have gets : Meets NotMissing (vfsGetCurdir initFiles) state fun result after =>
        result = .ok (.sfs sfsBlknRoot) ∧ Moves (just (.sfs sfsBlknRoot)) 0 state after := by
      apply meets_bind_run (run_getFiles here)
      apply meets_bind_of_run meets_refInc
      rintro _ after ⟨rfl, taken⟩
      exact ⟨(), rfl, meets_pure ⟨rfl, taken⟩⟩
    apply meets_bind_of_run gets
    rintro _ taken ⟨rfl, counted⟩
    refine ⟨_, rfl, ?_⟩
    apply meets_read
    apply meets_modify
    have unset' : taken.bootfs = none := counted.bootfs.trans unset
    rw [unset']
    refine meets_pure fun _ => ?_
    have extra : Balanced (just (.sfs sfsBlknRoot)) taken := by
      apply balanced.moves counted
      · exact fun node => (zero_add _).symm
      · intro node
        have : 0 ≤ workingDirs state node := tally_nonneg
        have := just_nonneg (.sfs sfsBlknRoot) node
        omega
      · exact fun device => just_nonneg _ _
    have final : Balanced 0 { taken with bootfs := some (.sfs sfsBlknRoot) } :=
      extra.setBootfs unset' (fun node => (add_zero _).symm) fun _ => le_rfl
    have tables : ∀ {other : Nat} {others : Files}, taken.files other = some others →
        (others = Files.created ∨
          others = { Files.created with pwd := some (.sfs sfsBlknRoot) }) := by
      intro other others isOther
      rw [counted.files] at isOther
      by_cases same : other = initFiles
      · exact Or.inr (Option.some.inj (isOther.symm.trans (same ▸ here)))
      · rw [moves.files, files_setFiles_of_ne same] at isOther
        exact Or.inl (found_atBoot isOther).2
    have referenced : 0 < state.refCount (.sfs sfsBlknRoot) := by
      have isPwd := workingDirs_pos balanced here rfl
      have counts := balanced.refCount (.sfs sfsBlknRoot)
      have : 0 ≤ openSlots state (.sfs sfsBlknRoot) := tally_nonneg
      have := share_nonneg (.sfs sfsBlknRoot) state.bootfs
      have := creation_nonneg (.sfs sfsBlknRoot)
      unfold holders at counts
      rw [Pi.zero_apply] at counts
      omega
    have still : 0 < taken.refCount (.sfs sfsBlknRoot) := by
      have now := counted.refCount (.sfs sfsBlknRoot)
      rw [just_self] at now
      omega
    have root : taken.inOps (.sfs sfsBlknRoot) = sfsNodeDirops :=
      (counted.inOps referenced still).trans table
    refine ⟨final, fun _ => le_rfl, rfl, root, ?_, ?_, ?_⟩
    · intro other node isPwd
      cases isOther : taken.files other with
      | none =>
          change (taken.files other).bind Files.pwd = some node at isPwd
          rw [isOther] at isPwd
          cases isPwd
      | some others =>
          have holds : others.pwd = some node := by
            change (taken.files other).bind Files.pwd = some node at isPwd
            rwa [isOther] at isPwd
          rcases tables isOther with rfl | rfl
          · cases holds
          · obtain rfl := Option.some.inj holds
            exact root
    · rintro node ⟨other, others, fd, isOther, _, writing⟩
      rcases tables isOther with rfl | rfl <;> cases writing
    · intro other others isOther
      rcases tables isOther with rfl | rfl <;> exact Nat.one_pos
  · exact fun _ _ _ impossible => nomatch impossible

end AtBoot

theorem Booted.consistent (booted : Booted vfs) : Consistent 0 vfs := by
  obtain ⟨sfs, kmallocs, typed, ran⟩ := booted
  exact meets_setBootfs.of_ok ran rfl

/-! ## Runs of calls -/

/-- The calls of processes. A process calls through a files structure that it has. -/
def callMachine : Machine VfsState (Nat × Call) VfsStop where
  Admits vfs label := (vfs.files label.1).isSome = true
  answer vfs label := (label.2.run label.1 vfs).map Prod.snd

instance : DecidableRel callMachine.Admits := fun _ _ => inferInstanceAs (Decidable (_ = true))

theorem callMachine_step {label : Nat × Call} (step : callMachine.Step vfs label after) :
    ∃ files result, vfs.files label.1 = some files ∧
      label.2.run label.1 vfs = .ok (result, after) := by
  obtain ⟨files, found⟩ := Option.isSome_iff_exists.mp step.1
  have answered := step.2
  change (label.2.run label.1 vfs).map Prod.snd = .ok after at answered
  cases ran : label.2.run label.1 vfs with
  | error reason =>
      rw [ran] at answered
      cases answered
  | ok pair =>
      rw [ran] at answered
      obtain rfl := Except.ok.inj answered
      exact ⟨files, pair.1, found, rfl⟩

/-- Every state reached is consistent, with the references that failed calls kept. -/
theorem consistent_run {first : VfsState} {calls : List (Nat × Call)} (booted : Booted first)
    (run : Run callMachine.Step first calls vfs) : ∃ lost, Consistent lost vfs := by
  apply run.invariant (fun vfs => ∃ lost, Consistent lost vfs) _ ⟨0, booted.consistent⟩
  rintro before label after ⟨lost, consistent⟩ step
  obtain ⟨files, result, found, ran⟩ := callMachine_step step
  obtain ⟨lost', consistent', _⟩ := ((consistent.meets_run found label.2).of_ok ran).consistent
  exact ⟨lost', consistent'⟩

end UCore.Vfs
