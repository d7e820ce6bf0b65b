import Mathlib.Data.Nat.Bitwise
import UCore.Fs.SfsSync
import UCore.Tools.Mksfs

/-!
Contract: the free map and the superblock that `close_sfs` writes, as mounting reads them.

Owns:
- the bits of the words that the loop over a block of the free map sets;
- what `sfs_do_mount` does with a disk that has such a superblock and free map;
- what `bitmap_alloc` answers on the mounted free map, call after call.

Does not own: how the image was filled.
-/

set_option autoImplicit false

namespace UCore.Tools

open UCore.Lib UCore.Lib.Program UCore.Fs

/-! ## Words and bits -/

/-- The loop sets the bits of its range. -/
theorem testBit_setBits (data : Nat → Nat) (start count word bit : Nat) (low : bit < 32) :
    (setBits data start count word).testBit bit =
      ((data word).testBit bit ||
        decide (start ≤ 32 * word + bit ∧ 32 * word + bit < start + count)) := by
  induction count generalizing data start with
  | zero =>
      have nowhere : ¬ (start ≤ 32 * word + bit ∧ 32 * word + bit < start + 0) := by omega
      rw [setBits, decide_eq_false nowhere, Bool.or_false]
  | succ count inductionHypothesis =>
      rw [setBits, inductionHypothesis]
      by_cases here : word = start / 32
      · subst here
        rw [Function.update_self, Nat.testBit_or, Nat.one_shiftLeft, Nat.testBit_two_pow,
          Bool.or_assoc]
        congr 1
        rw [← Bool.decide_or]
        apply decide_eq_decide.mpr
        omega
      · rw [Function.update_of_ne here]
        congr 1
        apply decide_eq_decide.mpr
        omega

/-- A bit of a block of words. -/
theorem testBit_wordBytes (data : Nat → Nat) (position bit : Nat) (low : bit < 8) :
    (wordBytes data position).toNat.testBit bit =
      (data (position / 4)).testBit (8 * (position % 4) + bit) := by
  have base : (256 : Nat) ^ (position % 4) = 2 ^ (8 * (position % 4)) := by
    rw [Nat.pow_mul]
  have byte : (wordBytes data position).toNat =
      data (position / 4) / 2 ^ (8 * (position % 4)) % 2 ^ 8 := by
    rw [← base]
    exact UInt8.toNat_ofNat'
  rw [byte, Nat.testBit_mod_two_pow, decide_eq_true low, Bool.true_and, Nat.testBit_div_two_pow,
    Nat.add_comm]

/-- A bit of a block of the free map: the blocks from `nextIno` on are free. -/
theorem testBit_freemapBlock {ninos nextIno i position bit : Nat} (low : bit < 8)
    (inside : position < sfsBlksize) (started : i < ninos) :
    (freemapBlock ninos nextIno i position).toNat.testBit bit =
      decide (nextIno ≤ i + (8 * position + bit) ∧ i + (8 * position + bit) < ninos) := by
  have word : 32 * (position / 4) + (8 * (position % 4) + bit) = 8 * position + bit := by omega
  unfold freemapBlock sfsBlkbits
  unfold sfsBlksize at inside
  by_cases reached : i + 32768 > nextIno
  · rw [if_pos reached, testBit_wordBytes _ _ _ low, testBit_setBits _ _ _ _ _ (by omega), word, Nat.zero_testBit,
      Bool.false_or]
    apply decide_eq_decide.mpr
    split_ifs <;> omega
  · rw [if_neg reached]
    show (0 : UInt8).toNat.testBit bit = _
    have beyond : ¬ (nextIno ≤ i + (8 * position + bit) ∧ i + (8 * position + bit) < ninos) := by
      omega
    rw [decide_eq_false beyond]
    exact Nat.zero_testBit bit

/-! ## Mounting -/

/-- A disk with the superblock and the free map of an image of `ninos` blocks, of which those from
`nextIno` on are free. -/
structure FreemapOnDisk (ninos nextIno : Nat) (disk : Nat → Bytes) : Prop where
  magic : (SfsSuper.ofBytes (disk sfsBlknSuper)).magic = sfsMagic
  blocks : (SfsSuper.ofBytes (disk sfsBlknSuper)).blocks = ninos
  unusedBlocks : (SfsSuper.ofBytes (disk sfsBlknSuper)).unusedBlocks = ninos - nextIno
  freemap : ∀ i, i < sfsFreemapBlocks ninos →
    disk (sfsBlknFreemap + i) = freemapBlock ninos nextIno (i * sfsBlkbits)

variable {ninos nextIno dBlocks : Nat} {disk : Nat → Bytes}

namespace FreemapOnDisk

/-- The free map that mounting reads. -/
theorem readFreemap (onDisk : FreemapOnDisk ninos nextIno disk) :
    Fs.readFreemap disk (sfsFreemapBits ninos) =
      fun index => decide (nextIno ≤ index ∧ index < ninos) := by
  funext index
  unfold Fs.readFreemap bitmapBit
  by_cases inside : index < sfsFreemapBits ninos
  · have below : index / 32768 < sfsFreemapBlocks ninos := by
      unfold sfsFreemapBits sfsBlkbits at inside
      omega
    have block : index / 8 / sfsBlksize = index / 32768 := by
      unfold sfsBlksize
      omega
    have started : index / 32768 * sfsBlkbits < ninos := by
      unfold sfsFreemapBlocks sfsBlkbits at *
      omega
    rw [decide_eq_true inside, Bool.true_and]
    show (disk (sfsBlknFreemap + index / 8 / sfsBlksize) (index / 8 % sfsBlksize)).toNat.testBit
      (index % 8) = _
    rw [block, onDisk.freemap _ below,
      testBit_freemapBlock (Nat.mod_lt _ (by decide)) (Nat.mod_lt _ (by decide)) started]
    apply decide_eq_decide.mpr
    unfold sfsBlkbits sfsBlksize
    omega
  · have beyond : ¬ (nextIno ≤ index ∧ index < ninos) := by
      unfold sfsFreemapBits sfsFreemapBlocks sfsBlkbits at inside
      omega
    rw [decide_eq_false inside, decide_eq_false beyond, Bool.false_and]

/-- As many bits are set as the superblock says. -/
theorem counted (onDisk : FreemapOnDisk ninos nextIno disk) :
    (List.range (sfsFreemapBits ninos)).countP (Fs.readFreemap disk (sfsFreemapBits ninos)) =
      ninos - nextIno := by
  have fits : ninos ≤ sfsFreemapBits ninos := by
    unfold sfsFreemapBits sfsFreemapBlocks sfsBlkbits
    omega
  rw [onDisk.readFreemap]
  generalize sfsFreemapBits ninos = bits at fits
  have general : ∀ bits, (List.range bits).countP
      (fun index => decide (nextIno ≤ index ∧ index < ninos)) = min bits ninos - nextIno := by
    intro bits
    induction bits with
    | zero => simp
    | succ bits inductionHypothesis =>
        rw [List.range_succ, List.countP_append, inductionHypothesis, List.countP_singleton]
        by_cases free : nextIno ≤ bits ∧ bits < ninos
        · rw [if_pos (decide_eq_true free)]
          omega
        · rw [if_neg (by rw [decide_eq_false free]; exact nofun)]
          omega
  rw [general, Nat.min_eq_right fits]

/-- A device that has all blocks is mounted, and the assertion on the number of unused blocks
holds. -/
theorem mounts (onDisk : FreemapOnDisk ninos nextIno disk) (some : 0 < ninos)
    (inside : sfsBlknFreemap + sfsFreemapBlocks ninos ≤ ninos) (fits : ninos ≤ dBlocks) :
    ∃ info, sfsDoMount dBlocks disk = .ok (.ok (⟨ninos, ninos - nextIno, false,
      sfsFreemapBits ninos, fun index => decide (nextIno ≤ index ∧ index < ninos), dBlocks, disk,
      fun _ => none⟩, info)) := by
  have bits : sfsFreemapBits ninos ≠ 0 := by
    unfold sfsFreemapBits sfsFreemapBlocks sfsBlkbits
    omega
  refine ⟨(SfsSuper.ofBytes (disk sfsBlknSuper)).info, ?_⟩
  unfold sfsDoMount
  simp only [onDisk.blocks, onDisk.unusedBlocks]
  rw [if_neg (by unfold sfsBlknSuper; omega), if_neg (not_not.mpr onDisk.magic), if_neg (by omega),
    if_neg bits, if_neg (by omega), if_neg (not_not.mpr onDisk.counted), onDisk.readFreemap]

/-- No device makes mounting stop. -/
theorem mount_returns (onDisk : FreemapOnDisk ninos nextIno disk) (some : 0 < ninos) :
    ∃ result, sfsDoMount dBlocks disk = .ok result := by
  have bits : sfsFreemapBits ninos ≠ 0 := by
    unfold sfsFreemapBits sfsFreemapBlocks sfsBlkbits
    omega
  unfold sfsDoMount
  simp only [onDisk.blocks, onDisk.unusedBlocks]
  by_cases noSuper : sfsBlknSuper + 1 > dBlocks
  · rw [if_pos noSuper]
    exact ⟨_, rfl⟩
  rw [if_neg noSuper, if_neg (not_not.mpr onDisk.magic)]
  by_cases large : ninos > dBlocks
  · rw [if_pos large]
    exact ⟨_, rfl⟩
  rw [if_neg large, if_neg bits]
  by_cases short : sfsBlknFreemap + sfsFreemapBlocks ninos > dBlocks
  · rw [if_pos short]
    exact ⟨_, rfl⟩
  rw [if_neg short, if_neg (not_not.mpr onDisk.counted)]
  exact ⟨_, rfl⟩

/-- The free map that is mounted is the one on disk. -/
theorem mounted_freemap (onDisk : FreemapOnDisk ninos nextIno disk) {mounted : SfsFs} {info : Bytes}
    (ran : sfsDoMount dBlocks disk = .ok (.ok (mounted, info))) :
    mounted.freemap = fun index => decide (nextIno ≤ index ∧ index < ninos) := by
  rw [← onDisk.readFreemap]
  unfold sfsDoMount at ran
  simp only [onDisk.blocks] at ran
  split_ifs at ran <;> cases ran
  rfl

end FreemapOnDisk

/-! ## Allocation -/

/-- `bitmap_alloc` again and again: what the calls answer. -/
def bitmapAllocs : Nat → SfsM (List Nat)
  | 0 => pure []
  | calls + 1 => do
      let ino ← bitmapAlloc
      let rest ← bitmapAllocs calls
      pure (ino :: rest)

/-- Whatever is allocated was free at first. -/
theorem bitmapAllocs_free (calls : Nat) (sfs : SfsFs) :
    Ensures True (bitmapAllocs calls) sfs fun result _ =>
      ∀ answers, result = .ok answers → ∀ ino ∈ answers, sfs.freemap ino = true := by
  induction calls generalizing sfs with
  | zero =>
      apply ensures_pure
      rintro answers same
      rw [← Except.ok.inj same]
      exact nofun
  | succ calls inductionHypothesis =>
      unfold bitmapAllocs
      have first : Ensures True bitmapAlloc sfs fun result after =>
          ∀ index, result = .ok index →
            sfs.freemap index = true ∧ after = sfs.setFree index false := by
        unfold bitmapAlloc
        apply ensures_read
        cases found : firstFree sfs with
        | none =>
            apply ensures_fail
            exact nofun
        | some index =>
            apply ensures_modify
            apply ensures_pure
            rintro other same
            rw [← Except.ok.inj same]
            exact ⟨List.find?_some found, rfl⟩
      apply ensures_bind first
      · intro index after answered
        obtain ⟨free, rfl⟩ := answered index rfl
        apply ensures_bind (inductionHypothesis _)
        · intro rest after later
          apply ensures_pure
          rintro answers same
          rw [← Except.ok.inj same]
          intro ino member
          rcases List.mem_cons.mp member with rfl | among
          · exact free
          · have still : Function.update sfs.freemap index false ino = true :=
              later rest rfl ino among
            by_cases same : ino = index
            · rw [same]
              exact free
            · rwa [Function.update_of_ne same] at still
        · intro failure after _
          exact nofun
      · intro failure after _
        exact nofun

end UCore.Tools
