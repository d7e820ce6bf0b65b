import UCore.Libs.PrintfmtText

/-!
Contract: `vsnprintf` puts the longest part of the output that fits into the buffer.

Owns:
- what the conversion `e` prints, and the only error code that leads outside of its table;
- the full output of a format, and that every `putch` gets its characters in order;
- the buffer and the result that `vsnprintf` leaves.

Does not own: the pieces of a format.
-/

set_option autoImplicit false

namespace UCore.Libs

open UCore.Lib

variable {Sink : Type} {putch : Putch Sink} {fmt : List UInt8} {ap : VaList} {base : Base}

/-! ## Texts without padding -/

theorem widthLeft_eq {width : Int} {count : Nat} (low : -2 ^ 31 ≤ width - count)
    (high : width ≤ 0) : widthLeft width count = width - count := by
  induction count generalizing width with
  | zero => exact (sub_zero width).symm
  | succ count inductionHypothesis =>
      have one : wrap32 (width - 1) = width - 1 := wrap32_of_range (by omega) (by omega)
      rw [widthLeft, one, inductionHypothesis (by omega) (by omega)]
      omega

theorem digits_length {num bits : Nat} (small : num < 2 ^ bits) (some : 0 < bits) :
    (digits base num).length ≤ bits := by
  induction bits generalizing num with
  | zero => omega
  | succ bits inductionHypothesis =>
      by_cases more : base.value ≤ num
      · have low := base.low
        have less : num / base.value < 2 ^ bits := by
          apply Nat.div_lt_of_lt_mul
          calc num < 2 ^ (bits + 1) := small
            _ = 2 * 2 ^ bits := Nat.pow_succ'
            _ ≤ base.value * 2 ^ bits := Nat.mul_le_mul_right _ low
        have again : 0 < bits := by
          rcases Nat.eq_zero_or_pos bits with none | again
          · subst none
            omega
          · exact again
        rw [digits_more more, List.length_append, List.length_singleton]
        exact Nat.succ_le_succ (inductionHypothesis less again)
      · rw [digits_last (Nat.lt_of_not_le more)]
        exact Nat.succ_le_succ (Nat.zero_le _)

/-- Without a width, a number is its digits. -/
theorem numberText_plain {num : Nat} {padc : UInt8} (small : num < 2 ^ 64) :
    numberText base num (-1) padc = digitText base num := by
  have length := @digits_length base num 64 small (by decide)
  have pads : (wrap32 (-1 - (digits base num).length)).toNat = 0 := by
    rw [wrap32_of_range (by omega) (by omega)]
    omega
  rw [numberText, pads]
  rfl

/-! ## Errors -/

/-- The smallest `int`. -/
def intMin : Int := -2 ^ 31

/-- What the conversion `e` prints. -/
def errorMessage (err : Int) : List UInt8 :=
  let code := if err < 0 then -err else err
  match (errorString.getD code.toNat none).map bytesOf with
  | some p => p
  | none => bytesOf "error " ++ digitText decimal code.toNat

/-- `printfmt` with `"%s"` -/
theorem printfmt_string {p : List UInt8} (short : p.length < 2 ^ 31) (depth : Nat) :
    vprintfmtDepth putch depth (bytesOf "%s") (stringArgument p) = emit putch p := by
  have isFormat : bytesOf "%s" = [37, 115] := by decide
  have plain : p.map (shown false) = p := by
    have same : shown false = id := by
      funext ch
      exact if_neg fun impossible => Bool.noConfusion impossible.1
    rw [same, List.map_id]
  have noPads : (widthLeft (-1) p.length).toNat = 0 := by
    rw [widthLeft_eq (by omega) (by omega)]
    omega
  have isPieces : pieces (bytesOf "%s") (stringArgument p) = [.text p] := by
    rw [isFormat]
    simp [pieces, reswitch, convertPiece, Escape.start, isDigit, stringArgument, stringText,
      limited, stringPads, plain, noPads]
  cases depth with
  | zero =>
      rw [vprintfmtDepth, vprintfmtWith_eq, isPieces]
      exact bind_pure _
  | succ depth =>
      rw [vprintfmtDepth, vprintfmtWith_eq, isPieces]
      exact bind_pure _

/-- `printfmt` with `"error %d"` -/
theorem printfmt_number {err : Int} (low : 0 ≤ err) (high : err < 2 ^ 31) (depth : Nat) :
    vprintfmtDepth putch depth (bytesOf "error %d") (numberArgument err) =
      emit putch (bytesOf "error " ++ digitText decimal err.toNat) := by
  have isFormat : bytesOf "error %d" = [101, 114, 114, 111, 114, 32, 37, 100] := by decide
  have isText : bytesOf "error " = [101, 114, 114, 111, 114, 32] := by decide
  have isInt : ((BitVec.ofInt 64 err).truncate 32).toInt = err := by
    have word : (BitVec.ofInt 64 err).toNat = err.toNat := by
      rw [BitVec.toNat_ofInt]
      congr 1
      exact Int.emod_eq_of_lt low (by omega)
    rw [BitVec.truncate_eq_setWidth, BitVec.toInt_setWidth, word, Int.toNat_of_nonneg low]
    exact Int.bmod_eq_of_le (by omega) (by omega)
  have isPieces : pieces (bytesOf "error %d") (numberArgument err) =
      [[101], [114], [114], [111], [114], [32], digitText decimal err.toNat].map Piece.text := by
    have isNumber : numberText decimal err.toNat (-1) 32 = digitText decimal err.toNat :=
      numberText_plain (by omega)
    rw [isFormat]
    simp [pieces, reswitch, convertPiece, Escape.start, isDigit, numberArgument, signedText,
      getint, VaList.int, isInt, not_lt.mpr low, isNumber]
  have flat : [[101], [114], [114], [111], [114], [32], digitText decimal err.toNat].flatten =
      bytesOf "error " ++ digitText decimal err.toNat := by
    rw [isText]
    simp
  cases depth with
  | zero => rw [vprintfmtDepth, vprintfmtWith_eq, isPieces, printPieces_text, flat]
  | succ depth => rw [vprintfmtDepth, vprintfmtWith_eq, isPieces, printPieces_text, flat]

theorem errorString_short : ∀ entry ∈ errorString, ∀ text, entry = some text →
    (bytesOf text).length < 2 ^ 31 := by
  have all : ∀ entry ∈ errorString,
      (entry.map fun text => (bytesOf text).length).getD 0 < 2 ^ 31 := by decide
  rintro entry member text rfl
  exact all (some text) member

/-- The conversion `e` prints its message, but for the code that has no negative. -/
theorem printError_eq {err : Int} (low : intMin < err) (high : err < 2 ^ 31) (depth : Nat) :
    printError (vprintfmtDepth putch depth) err = emit putch (errorMessage err) := by
  have isCode : (if err < 0 then wrap32 (-err) else err) = if err < 0 then -err else err := by
    unfold intMin at low
    split_ifs
    · exact wrap32_of_range (by omega) (by omega)
    · rfl
  have nonneg : 0 ≤ if err < 0 then -err else err := by
    split_ifs <;> omega
  have small : (if err < 0 then -err else err) < 2 ^ 31 := by
    unfold intMin at low
    split_ifs <;> omega
  unfold printError errorMessage
  simp only [isCode]
  generalize (if err < 0 then -err else err) = code at nonneg small
  by_cases large : code > maxError
  · have none : errorString.getD code.toNat none = none := by
      have outside : errorString.length ≤ code.toNat := by
        unfold maxError at large
        show 25 ≤ code.toNat
        omega
      rw [List.getD_eq_getElem?_getD, List.getElem?_eq_none outside]
      rfl
    rw [if_pos large, none]
    exact printfmt_number nonneg small depth
  · have short : ∀ p, (errorString.getD code.toNat none).map bytesOf = some p →
        p.length < 2 ^ 31 := by
      intro p found
      obtain ⟨text, isText, rfl⟩ := Option.map_eq_some_iff.mp found
      rw [List.getD_eq_getElem?_getD] at isText
      cases entry : errorString[code.toNat]? with
      | none =>
          rw [entry] at isText
          cases isText
      | some other =>
          rw [entry, Option.getD_some] at isText
          subst isText
          exact errorString_short (some text) (List.mem_of_getElem? entry) text rfl
    have inTable : (errorText code : PrintM Sink _) =
        pure ((errorString.getD code.toNat none).map bytesOf) := by
      unfold errorText
      rw [if_pos ⟨nonneg, by omega⟩]
    rw [if_neg large, inTable, pure_bind]
    cases found : (errorString.getD code.toNat none).map bytesOf with
    | none => exact printfmt_number nonneg small depth
    | some p => exact printfmt_string (short p found) depth

/-- The code that has no negative leads outside of the table. -/
theorem printError_intMin (printfmt : List UInt8 → VaList → PrintM Sink Unit) :
    printError printfmt intMin = Program.stop .outsideTable := by
  have isCode : (if intMin < 0 then wrap32 (-intMin) else intMin) = intMin := by decide
  unfold printError
  simp only [isCode]
  rw [if_neg (by decide)]
  unfold errorText
  rw [if_neg (by decide)]
  rfl

/-! ## Any output -/

/-- The codes of the conversions `e`. -/
def Piece.code : Piece → Option Int
  | .text _ => none
  | .error err => some err

def errorCodes (fmt : List UInt8) (ap : VaList) : List Int := (pieces fmt ap).filterMap Piece.code

/-- What a piece prints. -/
def Piece.bytes : Piece → List UInt8
  | .text bytes => bytes
  | .error err => errorMessage err

/-- The whole text. -/
def formatted (fmt : List UInt8) (ap : VaList) : List UInt8 := (pieces fmt ap).flatMap Piece.bytes

theorem convertPiece_code {switched : Switched} {piece : Piece} {ap' : VaList} {err : Int}
    (converted : convertPiece switched = some (piece, ap')) (isError : piece = .error err) :
    err = switched.ap.int := by
  unfold convertPiece at converted
  simp only [] at converted
  split_ifs at converted <;> cases converted <;> cases isError
  rfl

/-- Error codes are of type `int`. -/
theorem pieces_code (err : Int) (member : .error err ∈ pieces fmt ap) :
    intMin ≤ err ∧ err < 2 ^ 31 := by
  induction fmt, ap using pieces.induct with
  | case1 ap =>
      rw [pieces] at member
      cases member
  | case2 ch fmt ap plain inductionHypothesis =>
      rw [pieces, if_pos plain] at member
      rcases List.mem_cons.mp member with impossible | later
      · cases impossible
      · exact inductionHypothesis later
  | case3 ch fmt ap isEscape shorter piece ap' converted inductionHypothesis =>
      rw [pieces, if_neg isEscape, converted] at member
      rcases List.mem_cons.mp member with isPiece | later
      · rw [convertPiece_code converted isPiece.symm]
        exact ⟨BitVec.le_toInt _, BitVec.toInt_lt⟩
      · exact inductionHypothesis later
  | case4 ch fmt ap isEscape shorter converted inductionHypothesis =>
      rw [pieces, if_neg isEscape, converted] at member
      rcases List.mem_cons.mp member with impossible | later
      · cases impossible
      · exact inductionHypothesis later

/-- Where no code leads outside of the table, the characters are printed one after the other. -/
theorem printPieces_eq (list : List Piece) (depth : Nat)
    (codes : ∀ err, .error err ∈ list → intMin < err ∧ err < 2 ^ 31) :
    printPieces putch (vprintfmtDepth putch depth) list =
      emit putch (list.flatMap Piece.bytes) := by
  induction list with
  | nil => rfl
  | cons piece rest inductionHypothesis =>
      rw [printPieces, inductionHypothesis fun err member => codes err (List.mem_cons_of_mem _ member),
        List.flatMap_cons, emit_append]
      cases piece with
      | text bytes => rfl
      | error err =>
          obtain ⟨low, high⟩ := codes err List.mem_cons_self
          rw [Piece.print, printError_eq low high]
          rfl

/-- A `putch` that always returns. -/
def Total (putch : Putch Sink) : Prop := ∀ ch sink, ∃ after, putch ch sink = .ok (.ok (), after)

theorem Total.emit (total : Total putch) (bytes : List UInt8) (sink : Sink) :
    ∃ after, emit putch bytes sink = .ok (.ok (), after) := by
  induction bytes generalizing sink with
  | nil => exact ⟨sink, rfl⟩
  | cons ch rest inductionHypothesis =>
      obtain ⟨middle, first⟩ := total ch sink
      obtain ⟨after, second⟩ := inductionHypothesis middle
      refine ⟨after, ?_⟩
      simp only [Libs.emit, bind, Program.bind, first]
      exact second

/-- Where a code leads outside of the table, the formatter gets there. -/
theorem printPieces_stops (total : Total putch) (list : List Piece) (depth : Nat)
    (codes : ∀ err, .error err ∈ list → intMin ≤ err ∧ err < 2 ^ 31)
    (member : .error intMin ∈ list) (sink : Sink) :
    printPieces putch (vprintfmtDepth putch depth) list sink = .error .outsideTable := by
  induction list generalizing sink with
  | nil => cases member
  | cons piece rest inductionHypothesis =>
      have goesOn : ∀ bytes, piece.print putch (vprintfmtDepth putch depth) = emit putch bytes →
          .error intMin ∈ rest → printPieces putch (vprintfmtDepth putch depth) (piece :: rest) sink =
            .error .outsideTable := by
        intro bytes prints later
        obtain ⟨after, printed⟩ := total.emit bytes sink
        have stops := inductionHypothesis
          (fun err member' => codes err (List.mem_cons_of_mem _ member')) later after
        simp only [printPieces, bind, Program.bind, prints, printed]
        exact stops
      cases piece with
      | text bytes =>
          rcases List.mem_cons.mp member with impossible | later
          · cases impossible
          · exact goesOn bytes rfl later
      | error err =>
          obtain ⟨low, high⟩ := codes err List.mem_cons_self
          by_cases first : err = intMin
          · subst first
            have stops : (Piece.error intMin).print putch (vprintfmtDepth putch depth) =
                Program.stop .outsideTable := printError_intMin _
            simp only [printPieces, bind, Program.bind, stops]
            rfl
          · rcases List.mem_cons.mp member with same | later
            · cases same
              exact absurd rfl first
            · exact goesOn _ (printError_eq (lt_of_le_of_ne low (Ne.symm first)) high depth) later

/-- `vprintfmt` prints the whole text, into whatever. -/
theorem vprintfmt_eq (codes : ∀ err ∈ errorCodes fmt ap, err ≠ intMin) :
    vprintfmt putch fmt ap = emit putch (formatted fmt ap) := by
  unfold vprintfmt vprintfmtDepth
  rw [vprintfmtWith_eq, formatted]
  apply printPieces_eq
  intro err member
  obtain ⟨low, high⟩ := pieces_code err member
  have notMin := codes err (List.mem_filterMap.mpr ⟨_, member, rfl⟩)
  exact ⟨lt_of_le_of_ne low (Ne.symm notMin), high⟩

theorem vprintfmt_stops (total : Total putch) (member : intMin ∈ errorCodes fmt ap) (sink : Sink) :
    vprintfmt putch fmt ap sink = .error .outsideTable := by
  unfold vprintfmt vprintfmtDepth
  rw [vprintfmtWith_eq]
  apply printPieces_stops total _ _ (fun err member => pieces_code err member)
  obtain ⟨piece, isPiece, isCode⟩ := List.mem_filterMap.mp member
  cases piece with
  | text _ => cases isCode
  | error err =>
      cases isCode
      exact isPiece

/-! ## The buffer -/

/-- A `putch` that keeps everything. -/
def collect : Putch (List UInt8) := fun ch => Program.modify fun output => output ++ [ch]

theorem emit_collect (bytes output : List UInt8) :
    emit collect bytes output = .ok (.ok (), output ++ bytes) := by
  induction bytes generalizing output with
  | nil =>
      rw [List.append_nil]
      rfl
  | cons ch rest inductionHypothesis =>
      have first : collect ch output = .ok (.ok (), output ++ [ch]) := rfl
      simp only [emit, bind, Program.bind, first]
      rw [inductionHypothesis, List.append_assoc]
      rfl

/-- The full formatted output: what is printed where everything is kept. -/
def fullOutput (fmt : List UInt8) (ap : VaList) : Except PrintfStop (List UInt8) :=
  match vprintfmt collect fmt ap [] with
  | .error stop => .error stop
  | .ok (_, output) => .ok output

/-- What printing leaves in the buffer. -/
theorem emit_sprintputch (bytes : List UInt8) (b : SprintBuf) (cnt : 0 ≤ b.cnt)
    (small : b.cnt + bytes.length < 2 ^ 31) :
    ∃ after, emit sprintputch bytes b = .ok (.ok (), after) ∧ after.cnt = b.cnt + bytes.length ∧
      after.buf = b.buf + min bytes.length (b.ebuf - b.buf) ∧
      ∀ address, after.memory address =
        if b.buf ≤ address ∧ address < b.buf + min bytes.length (b.ebuf - b.buf)
        then bytes.getD (address - b.buf) 0 else b.memory address := by
  induction bytes generalizing b with
  | nil =>
      refine ⟨b, rfl, (add_zero _).symm, by rw [List.length_nil, Nat.zero_min]; rfl, ?_⟩
      intro address
      rw [if_neg (by rw [List.length_nil, Nat.zero_min]; omega)]
  | cons ch rest inductionHypothesis =>
      have length : ((ch :: rest).length : Int) = rest.length + 1 := by
        rw [List.length_cons]
        rfl
      have counted : wrap32 (b.cnt + 1) = b.cnt + 1 := wrap32_of_range (by omega) (by omega)
      by_cases room : b.buf < b.ebuf
      · have first : sprintputch ch b = .ok (.ok (), { b with
            cnt := b.cnt + 1, memory := Function.update b.memory b.buf ch, buf := b.buf + 1 }) := by
          simp only [sprintputch, Program.modify, counted, if_pos room]
        obtain ⟨after, printed, isCnt, isBuf, isMemory⟩ := inductionHypothesis { b with
          cnt := b.cnt + 1, memory := Function.update b.memory b.buf ch, buf := b.buf + 1 }
          (by show 0 ≤ b.cnt + 1; omega) (by show b.cnt + 1 + _ < _; omega)
        refine ⟨after, ?_, ?_, ?_, ?_⟩
        · simp only [emit, bind, Program.bind, first]
          exact printed
        · rw [isCnt]
          show b.cnt + 1 + _ = _
          omega
        · rw [isBuf]
          show b.buf + 1 + min rest.length (b.ebuf - (b.buf + 1)) = _
          rw [List.length_cons]
          omega
        · intro address
          rw [isMemory]
          show (if b.buf + 1 ≤ address ∧
            address < b.buf + 1 + min rest.length (b.ebuf - (b.buf + 1)) then
              rest.getD (address - (b.buf + 1)) 0
            else Function.update b.memory b.buf ch address) = _
          rw [List.length_cons]
          by_cases here : address = b.buf
          · subst here
            rw [if_neg (by omega), if_pos (by omega), Function.update_self, Nat.sub_self]
            rfl
          · rw [Function.update_of_ne here]
            by_cases inside : b.buf + 1 ≤ address ∧
                address < b.buf + 1 + min rest.length (b.ebuf - (b.buf + 1))
            · have next : address - b.buf = address - (b.buf + 1) + 1 := by omega
              rw [if_pos inside, if_pos (by omega), next, List.getD_cons_succ]
            · rw [if_neg inside, if_neg (by omega)]
      · have first : sprintputch ch b = .ok (.ok (), { b with cnt := b.cnt + 1 }) := by
          simp only [sprintputch, Program.modify, counted, if_neg room]
        obtain ⟨after, printed, isCnt, isBuf, isMemory⟩ := inductionHypothesis
          { b with cnt := b.cnt + 1 } (by show 0 ≤ b.cnt + 1; omega)
          (by show b.cnt + 1 + _ < _; omega)
        have full : b.ebuf - b.buf = 0 := by omega
        have full' : ({ b with cnt := b.cnt + 1 } : SprintBuf).ebuf -
            ({ b with cnt := b.cnt + 1 } : SprintBuf).buf = 0 := full
        rw [full', Nat.min_zero] at isBuf
        refine ⟨after, ?_, ?_, ?_, ?_⟩
        · simp only [emit, bind, Program.bind, first]
          exact printed
        · rw [isCnt]
          show b.cnt + 1 + _ = _
          omega
        · rw [isBuf, full, Nat.min_zero]
        · intro address
          rw [isMemory, full', Nat.min_zero, Nat.min_zero, if_neg (by omega), if_neg (by omega)]

/-- What is promised of a call: the formatter ends without an index outside of `error_string`; the
buffer at `str` holds the longest part of the full output that leaves room for a zero in `size`
bytes, and that zero; no other byte is written; and the result is the length of the full output. -/
def Prints (memory : Bytes) (str size : Nat) (fmt : List UInt8) (ap : VaList) : Prop :=
  ∃ output after, fullOutput fmt ap = .ok output ∧
    vsnprintf memory str size fmt ap = .ok (output.length, after) ∧
    ∀ address, after address =
      if str ≤ address ∧ address < str + min output.length (size - 1) then
        output.getD (address - str) 0
      else if address = str + min output.length (size - 1) then 0 else memory address

/-- A call with a buffer does what is promised exactly when no conversion `e` gets the smallest
`int`. -/
theorem vsnprintf_prints_iff (memory : Bytes) (str size : Nat) (fmt : List UInt8) (ap : VaList)
    (notNull : str ≠ 0) (some : 1 ≤ size) (inside : str + size ≤ 2 ^ 64)
    (short : ∀ output, fullOutput fmt ap = .ok output → output.length < 2 ^ 31) :
    Prints memory str size fmt ap ↔ ∀ err ∈ errorCodes fmt ap, err ≠ intMin := by
  have isTotal : Total collect := fun ch output => ⟨output ++ [ch], rfl⟩
  constructor
  · rintro ⟨output, after, isOutput, _⟩ err member rfl
    have stops := vprintfmt_stops isTotal member []
    simp only [fullOutput, stops] at isOutput
    cases isOutput
  · intro codes
    have isOutput : fullOutput fmt ap = .ok (formatted fmt ap) := by
      unfold fullOutput
      rw [vprintfmt_eq codes, emit_collect]
      rfl
    have length := short _ isOutput
    have end' : (str + size + (2 ^ 64 - 1)) % 2 ^ 64 = str + size - 1 := by omega
    obtain ⟨after, printed, isCnt, isBuf, isMemory⟩ := emit_sprintputch (formatted fmt ap)
      ⟨memory, str, str + size - 1, 0⟩ le_rfl (by show (0 : Int) + _ < _; omega)
    have room : str + size - 1 - str = size - 1 := by omega
    simp only [room] at isBuf isMemory
    refine ⟨formatted fmt ap, Function.update after.memory after.buf 0, isOutput, ?_, ?_⟩
    · unfold vsnprintf
      simp only [end', vprintfmt_eq codes, printed, isCnt]
      rw [if_neg (by omega), zero_add]
    · intro address
      by_cases last : address = str + min (formatted fmt ap).length (size - 1)
      · rw [if_neg (by omega), if_pos last, last, ← isBuf, Function.update_self]
      · rw [isBuf, Function.update_of_ne last, if_neg last]
        exact isMemory address

/-- Whether an output is short, where there is one. -/
def isShort (output : Except PrintfStop (List UInt8)) : Bool :=
  match output with
  | .ok output => decide (output.length < 2 ^ 31)
  | .error _ => true

theorem short_of_isShort {result : Except PrintfStop (List UInt8)} (is : isShort result = true)
    (output : List UInt8) (returned : result = .ok output) : output.length < 2 ^ 31 := by
  subst returned
  exact of_decide_eq_true is

/-- An error code and a number, in a buffer that is too short for both. -/
theorem vsnprintf_prints_short :
    Prints Bytes.zeros 4096 16 (bytesOf "%e %5d") (fun _ => ⟨BitVec.ofInt 64 (-4), []⟩) := by
  have codes : errorCodes (bytesOf "%e %5d") (fun _ => ⟨BitVec.ofInt 64 (-4), []⟩) = [-4] := by
    decide +kernel
  apply (vsnprintf_prints_iff _ _ _ _ _ (by decide) (by decide) (by decide)
    (short_of_isShort (by decide +kernel))).mpr
  rw [codes]
  decide

/-- The smallest `int` as an error code. -/
theorem vsnprintf_error_intMin :
    (∀ output, fullOutput (bytesOf "%e") (fun _ => ⟨BitVec.ofInt 64 intMin, []⟩) = .ok output →
      output.length < 2 ^ 31) ∧
    ¬ Prints Bytes.zeros 4096 16 (bytesOf "%e") (fun _ => ⟨BitVec.ofInt 64 intMin, []⟩) := by
  have codes : errorCodes (bytesOf "%e") (fun _ => ⟨BitVec.ofInt 64 intMin, []⟩) = [intMin] := by
    decide +kernel
  have member : intMin ∈ errorCodes (bytesOf "%e") (fun _ => ⟨BitVec.ofInt 64 intMin, []⟩) := by
    rw [codes]
    exact List.mem_singleton_self _
  have isOutput : fullOutput (bytesOf "%e") (fun _ => ⟨BitVec.ofInt 64 intMin, []⟩) =
      .error .outsideTable := by
    have stops := vprintfmt_stops (fun ch output => ⟨output ++ [ch], rfl⟩ : Total collect) member []
    simp only [fullOutput, stops]
  constructor
  · intro output returned
    rw [isOutput] at returned
    cases returned
  · rintro ⟨output, _, returned, _⟩
    rw [isOutput] at returned
    cases returned

end UCore.Libs
