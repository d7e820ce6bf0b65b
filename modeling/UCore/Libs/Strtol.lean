import UCore.Libs.Vsnprintf

/-!
Contract: `strtol` of `libs/string.c`, and that it reads back what `printnum` prints.

Owns:
- `strtol`, with the part of the string that it leaves;
- the value of the characters of a number.

A string is the list of its characters before the terminating zero. Arithmetic on `long` wraps
around.

Does not own: `printnum`.
-/

set_option autoImplicit false

namespace UCore.Libs

open UCore.Lib

variable {base : Base}

/-! ## Parsing -/

/-- The value of a digit or a letter. -/
def digitValue (ch : UInt8) : Option Nat :=
  if 48 ≤ ch ∧ ch ≤ 57 then some (ch.toNat - 48)
  else if 97 ≤ ch ∧ ch ≤ 122 then some (ch.toNat - 97 + 10)
  else if 65 ≤ ch ∧ ch ≤ 90 then some (ch.toNat - 65 + 10)
  else none

/-- The loop over the initial whitespace. -/
def skipBlanks : List UInt8 → List UInt8
  | [] => []
  | ch :: s => if ch = 32 ∨ ch = 9 then skipBlanks s else ch :: s

/-- The sign and what follows it. -/
def readSign : List UInt8 → Bool × List UInt8
  | [] => (false, [])
  | ch :: s => if ch = 43 then (false, s) else if ch = 45 then (true, s) else (false, ch :: s)

/-- The base and what follows its prefix. -/
def readPrefix (base : Nat) (s : List UInt8) : Nat × List UInt8 :=
  if (base = 0 ∨ base = 16) ∧ s.head? = some 48 ∧ s[1]? = some 120 then (16, s.drop 2)
  else if base = 0 ∧ s.head? = some 48 then (8, s.drop 1)
  else if base = 0 then (10, s)
  else (base, s)

/-- The loop over the digits. -/
def strtolDigits (base : Nat) (val : BitVec 64) : List UInt8 → BitVec 64 × List UInt8
  | [] => (val, [])
  | ch :: s =>
      match digitValue ch with
      | none => (val, ch :: s)
      | some dig =>
          if dig ≥ base then (val, ch :: s)
          else strtolDigits base (val * BitVec.ofNat 64 base + BitVec.ofNat 64 dig) s

/-- `strtol`, with the string at `*endptr`. -/
def strtol (s : List UInt8) (base : Nat) : BitVec 64 × List UInt8 :=
  let (neg, s) := readSign (skipBlanks s)
  let (base, s) := readPrefix base s
  let (val, s) := strtolDigits base 0 s
  (if neg = true then -val else val, s)

/-! ## Digits -/

theorem digits_small (num : Nat) : ∀ dig ∈ digits base num, dig < base.value := by
  induction num using digits.induct base with
  | case1 num more inductionHypothesis =>
      rw [digits_more more]
      intro dig member
      rcases List.mem_append.mp member with before | last
      · exact inductionHypothesis dig before
      · rw [List.mem_singleton.mp last]
        exact Nat.mod_lt _ (Nat.lt_of_lt_of_le Nat.zero_lt_two base.low)
  | case2 num last =>
      rw [digits_last (Nat.lt_of_not_le last)]
      intro dig member
      rw [List.mem_singleton.mp member]
      exact Nat.lt_of_not_le last

theorem digitValue_digitChar : ∀ dig, dig < 16 → digitValue (digitChar dig) = some dig := by
  decide

/-- The characters of digits are none that `strtol` looks for before them. -/
theorem digitChar_plain : ∀ dig, dig < 16 → digitChar dig ≠ 32 ∧ digitChar dig ≠ 9 ∧
    digitChar dig ≠ 43 ∧ digitChar dig ≠ 45 ∧ digitChar dig ≠ 120 := by
  decide

/-- The value of digits, the most significant one first. -/
def digitsValue (base : Base) (val : Nat) : List Nat → Nat
  | [] => val
  | dig :: rest => digitsValue base (val * base.value + dig) rest

theorem digitsValue_append (val : Nat) (first second : List Nat) :
    digitsValue base val (first ++ second) = digitsValue base (digitsValue base val first) second := by
  induction first generalizing val with
  | nil => rfl
  | cons dig rest inductionHypothesis => exact inductionHypothesis _

theorem digitsValue_digits (num : Nat) : digitsValue base 0 (digits base num) = num := by
  induction num using digits.induct base with
  | case1 num more inductionHypothesis =>
      rw [digits_more more, digitsValue_append, inductionHypothesis]
      exact Nat.div_add_mod' num base.value
  | case2 num last =>
      rw [digits_last (Nat.lt_of_not_le last)]
      show 0 * base.value + num = num
      omega

theorem digitsValue_zeros (count : Nat) (digs : List Nat) :
    digitsValue base 0 (List.replicate count 0 ++ digs) = digitsValue base 0 digs := by
  induction count with
  | zero => rfl
  | succ count inductionHypothesis =>
      rw [List.replicate_succ, List.cons_append, digitsValue, Nat.zero_mul]
      exact inductionHypothesis

/-- The loop computes the value, as far as it fits. -/
theorem strtolDigits_eq (digs : List Nat) (val : Nat) (small : ∀ dig ∈ digs, dig < base.value) :
    strtolDigits base.value (BitVec.ofNat 64 val) (digs.map digitChar) =
      (BitVec.ofNat 64 (digitsValue base val digs), []) := by
  induction digs generalizing val with
  | nil => rfl
  | cons dig rest inductionHypothesis =>
      have below := small dig List.mem_cons_self
      have high := base.high
      rw [List.map_cons, strtolDigits, digitValue_digitChar dig (by omega)]
      simp only []
      rw [if_neg (Nat.not_le.mpr below), ← BitVec.ofNat_mul, ← BitVec.ofNat_add]
      exact inductionHypothesis _ fun dig' member => small dig' (List.mem_cons_of_mem _ member)

/-- A sequence of digits is read to its end. -/
theorem strtol_digits (digs : List Nat) (some : digs ≠ []) (small : ∀ dig ∈ digs, dig < base.value) :
    strtol (digs.map digitChar) base.value =
      (BitVec.ofNat 64 (digitsValue base 0 digs), []) ∧
    strtol (45 :: digs.map digitChar) base.value =
      (-BitVec.ofNat 64 (digitsValue base 0 digs), []) := by
  have high := base.high
  have low := base.low
  have noPrefix : readPrefix base.value (digs.map digitChar) =
      (base.value, digs.map digitChar) := by
    have noX : (digs.map digitChar)[1]? ≠ Option.some 120 := by
      intro isX
      rw [List.getElem?_map] at isX
      obtain ⟨dig, isDig, same⟩ := Option.map_eq_some_iff.mp isX
      have below := small dig (List.mem_of_getElem? isDig)
      exact (digitChar_plain dig (by omega)).2.2.2.2 same
    unfold readPrefix
    rw [if_neg (fun isPrefix => noX isPrefix.2.2), if_neg (by omega), if_neg (by omega)]
  have value := @strtolDigits_eq base digs 0 small
  have zero : (0 : BitVec 64) = BitVec.ofNat 64 0 := rfl
  cases digs with
  | nil => exact absurd rfl some
  | cons dig rest =>
      have below := small dig List.mem_cons_self
      obtain ⟨notBlank, notTab, notPlus, notMinus, _⟩ := digitChar_plain dig (by omega)
      have noBlank : skipBlanks ((dig :: rest).map digitChar) = (dig :: rest).map digitChar := by
        rw [List.map_cons, skipBlanks, if_neg (by simp [notBlank, notTab])]
      have noSign : readSign ((dig :: rest).map digitChar) =
          (false, (dig :: rest).map digitChar) := by
        rw [List.map_cons, readSign, if_neg notPlus, if_neg notMinus]
      constructor
      · unfold strtol
        rw [noBlank, noSign]
        simp only [noPrefix, zero, value]
        rfl
      · unfold strtol
        have isMinus : skipBlanks (45 :: (dig :: rest).map digitChar) =
            45 :: (dig :: rest).map digitChar := rfl
        have sign : readSign (45 :: (dig :: rest).map digitChar) =
            (true, (dig :: rest).map digitChar) := rfl
        rw [isMinus, sign]
        simp only [noPrefix, zero, value]
        rfl

theorem digits_ne_nil (num : Nat) : digits base num ≠ [] := by
  by_cases more : base.value ≤ num
  · rw [digits_more more]
    exact List.append_ne_nil_of_right_ne_nil _ (List.cons_ne_nil _ _)
  · rw [digits_last (Nat.lt_of_not_le more)]
    exact List.cons_ne_nil _ _

theorem strtol_digitText (num : Nat) :
    strtol (digitText base num) base.value = (BitVec.ofNat 64 num, []) ∧
      strtol (45 :: digitText base num) base.value = (-BitVec.ofNat 64 num, []) := by
  have both := @strtol_digits base (digits base num) (digits_ne_nil num) (digits_small num)
  rwa [digitsValue_digits] at both

/-! ## Printing and parsing -/

theorem printnum_collect (num : Nat) (width : Int) (padc : UInt8) :
    printnum collect base num width padc [] = .ok (.ok (), numberText base num width padc) := by
  rw [printnum_eq, emit_collect]
  rfl

/-- Padding with zeros changes nothing. -/
theorem strtol_zeros (num : Nat) (width : Int) :
    strtol (numberText base num width 48) base.value = (BitVec.ofNat 64 num, []) := by
  have zero : ∀ count, List.replicate count 48 = (List.replicate count 0).map digitChar := by
    intro count
    rw [List.map_replicate]
    rfl
  unfold numberText digitText
  rw [zero, ← List.map_append]
  refine (strtol_digits _ ?_ ?_).1.trans ?_
  · exact List.append_ne_nil_of_right_ne_nil _ (digits_ne_nil num)
  · intro dig member
    rcases List.mem_append.mp member with pad | digit
    · rw [(List.mem_replicate.mp pad).2]
      exact Nat.lt_of_lt_of_le Nat.zero_lt_two base.low
    · exact digits_small num dig digit
  · rw [digitsValue_zeros, digitsValue_digits]

theorem skipBlanks_pad (count : Nat) (s : List UInt8) :
    skipBlanks (List.replicate count 32 ++ s) = skipBlanks s := by
  induction count with
  | zero => rfl
  | succ count inductionHypothesis =>
      rw [List.replicate_succ, List.cons_append, skipBlanks, if_pos (Or.inl rfl)]
      exact inductionHypothesis

/-- Padding with blanks, which is the default, is skipped. -/
theorem strtol_blanks (num : Nat) (width : Int) :
    strtol (numberText base num width 32) base.value = (BitVec.ofNat 64 num, []) := by
  rw [← (strtol_digitText num).1]
  unfold strtol numberText
  rw [skipBlanks_pad]

/-- What `%ld` prints. -/
theorem fullOutput_ld (num : BitVec 64) : fullOutput (bytesOf "%ld") (fun _ => ⟨num, []⟩) =
    .ok (if num.toInt < 0 then 45 :: digitText decimal (-num.toInt).toNat
      else digitText decimal num.toInt.toNat) := by
  have isFormat : bytesOf "%ld" = [37, 108, 100] := by decide
  have low := BitVec.le_toInt num
  have high := @BitVec.toInt_lt 64 num
  have isPieces : pieces (bytesOf "%ld") (fun _ => ⟨num, []⟩) =
      [.text (signedText ⟨32, -1, -1, 1, false⟩ num.toInt)] := by
    rw [isFormat]
    simp [pieces, reswitch, convertPiece, Escape.start, isDigit, getint]
  have isText : formatted (bytesOf "%ld") (fun _ => ⟨num, []⟩) =
      if num.toInt < 0 then 45 :: digitText decimal (-num.toInt).toNat
        else digitText decimal num.toInt.toNat := by
    unfold formatted
    rw [isPieces]
    show signedText ⟨32, -1, -1, 1, false⟩ num.toInt ++ [] = _
    rw [List.append_nil]
    unfold signedText
    split_ifs
    · rw [numberText_plain (by omega)]
    · rw [numberText_plain (by omega)]
  have codes : ∀ err ∈ errorCodes (bytesOf "%ld") (fun _ => ⟨num, []⟩), err ≠ intMin := by
    unfold errorCodes
    rw [isPieces]
    intros; contradiction
  rw [← isText]
  unfold fullOutput
  rw [vprintfmt_eq codes, emit_collect]
  rfl

/-- Reading back a value of 64 bits: what `printnum` prints of it, without a width or with zeros or
blanks up to any width, and what `%ld` prints, is read to its end and gives the value. -/
theorem strtol_printnum (num : BitVec 64) :
    (∀ base : Base, ∀ padc, ∃ text, printnum collect base num.toNat (-1) padc [] =
      .ok (.ok (), text) ∧ strtol text base.value = (num, [])) ∧
    (∀ base : Base, ∀ width, ∃ text, printnum collect base num.toNat width 48 [] =
      .ok (.ok (), text) ∧ strtol text base.value = (num, [])) ∧
    (∀ base : Base, ∀ width, ∃ text, printnum collect base num.toNat width 32 [] =
      .ok (.ok (), text) ∧ strtol text base.value = (num, [])) ∧
    ∃ text, fullOutput (bytesOf "%ld") (fun _ => ⟨num, []⟩) = .ok text ∧
      strtol text 10 = (num, []) := by
  have back : BitVec.ofNat 64 num.toNat = num := by
    rw [BitVec.ofNat_toNat, BitVec.setWidth_eq]
  refine ⟨?_, ?_, ?_, ?_⟩
  · intro base padc
    refine ⟨_, printnum_collect num.toNat (-1) padc, ?_⟩
    rw [numberText_plain num.isLt, (strtol_digitText num.toNat).1, back]
  · intro base width
    refine ⟨_, printnum_collect num.toNat width 48, ?_⟩
    rw [strtol_zeros, back]
  · intro base width
    refine ⟨_, printnum_collect num.toNat width 32, ?_⟩
    rw [strtol_blanks, back]
  · refine ⟨_, fullOutput_ld num, ?_⟩
    split_ifs with negative
    · have value : -BitVec.ofNat 64 (-num.toInt).toNat = num := by
        rw [← BitVec.ofInt_natCast, Int.toNat_of_nonneg (by omega), BitVec.ofInt_neg,
          BitVec.ofInt_toInt, BitVec.neg_neg]
      exact (@strtol_digitText decimal _).2.trans (by rw [value])
    · have value : BitVec.ofNat 64 num.toInt.toNat = num := by
        rw [← BitVec.ofInt_natCast, Int.toNat_of_nonneg (Int.not_lt.mp negative),
          BitVec.ofInt_toInt]
      exact (@strtol_digitText decimal _).1.trans (by rw [value])

end UCore.Libs
