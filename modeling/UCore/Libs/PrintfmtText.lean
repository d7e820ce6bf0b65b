import UCore.Libs.Printfmt

/-!
Contract: the text that `vprintfmt` prints, whatever it prints into.

Owns:
- the text of a number and of a string, with its padding;
- a format with its arguments as pieces of text and error codes;
- that the formatter prints these pieces, one character after the other.

Does not own: what becomes of the characters.
-/

set_option autoImplicit false

namespace UCore.Libs

open UCore.Lib

variable {Sink : Type} {putch : Putch Sink} {printfmt : List UInt8 → VaList → PrintM Sink Unit}

/-! ## Characters one after the other -/

def emit (putch : Putch Sink) : List UInt8 → PrintM Sink Unit
  | [] => pure ()
  | ch :: rest => do
      putch ch
      emit putch rest

theorem emit_append (first second : List UInt8) :
    emit putch (first ++ second) = (do emit putch first; emit putch second) := by
  induction first with
  | nil => rfl
  | cons ch rest inductionHypothesis =>
      simp only [List.cons_append, emit, inductionHypothesis, bind_assoc]

theorem emit_singleton (ch : UInt8) : emit putch [ch] = putch ch := bind_pure (putch ch)

theorem putTimes_eq (ch : UInt8) (times : Nat) :
    putTimes putch ch times = emit putch (List.replicate times ch) := by
  induction times with
  | zero => rfl
  | succ times inductionHypothesis =>
      rw [putTimes, inductionHypothesis, List.replicate_succ]
      rfl

/-! ## Numbers -/

/-- The digits of a number, the most significant one first. -/
def digits (base : Base) (num : Nat) : List Nat :=
  if _ : base.value ≤ num then digits base (num / base.value) ++ [num % base.value] else [num]
termination_by num
decreasing_by
  have low := base.low
  exact Nat.div_lt_self (by omega) (by omega)

theorem digits_more {base : Base} {num : Nat} (more : base.value ≤ num) :
    digits base num = digits base (num / base.value) ++ [num % base.value] := by
  rw [digits, dif_pos more]

theorem digits_last {base : Base} {num : Nat} (last : num < base.value) :
    digits base num = [num] := by
  rw [digits, dif_neg (Nat.not_le.mpr last)]

/-- The characters of a number. -/
def digitText (base : Base) (num : Nat) : List UInt8 := (digits base num).map digitChar

/-- What `printnum` prints. -/
def numberText (base : Base) (num : Nat) (width : Int) (padc : UInt8) : List UInt8 :=
  List.replicate (wrap32 (width - (digits base num).length)).toNat padc ++ digitText base num

theorem printnum_eq (base : Base) (num : Nat) (width : Int) (padc : UInt8) :
    printnum putch base num width padc = emit putch (numberText base num width padc) := by
  induction num, width using printnum.induct putch base with
  | case1 num width more inductionHypothesis =>
      have wraps : ∀ count : Nat, wrap32 (wrap32 (width - 1) - count) =
          wrap32 (width - (count + 1 : Nat)) := by
        intro count
        unfold wrap32
        omega
      rw [printnum, dif_pos more, inductionHypothesis, numberText, numberText, digitText, digitText,
        digits_more more, wraps, List.length_append, List.length_singleton, List.map_append,
        ← List.append_assoc, emit_append _ (List.map digitChar [num % base.value])]
      rw [List.map_singleton, emit_singleton]
  | case2 num width last =>
      have small : num % base.value = num := Nat.mod_eq_of_lt (Nat.lt_of_not_le last)
      rw [printnum, dif_neg last, putTimes_eq, numberText, digitText,
        digits_last (Nat.lt_of_not_le last), emit_append, small]
      rw [List.map_singleton, emit_singleton]
      rfl

/-! ## Strings -/

/-- The part of a string that the precision lets through. -/
def limited (precision : Int) (p : List UInt8) : List UInt8 :=
  if precision < 0 then p else p.take precision.toNat

/-- `width --`, again and again. -/
def widthLeft (width : Int) : Nat → Int
  | 0 => width
  | count + 1 => widthLeft (wrap32 (width - 1)) count

def shown (altflag : Bool) (ch : UInt8) : UInt8 :=
  if altflag = true ∧ (ch < 32 ∨ 126 < ch) then 63 else ch

theorem stringLoop_eq (altflag : Bool) (precision width : Int) (p : List UInt8) :
    stringLoop putch altflag precision width p = (do
      emit putch ((limited precision p).map (shown altflag))
      pure (widthLeft width (limited precision p).length)) := by
  induction p generalizing precision width with
  | nil =>
      have none : limited precision [] = [] := by
        unfold limited
        split_ifs
        · rfl
        · exact List.take_nil
      rw [none]
      rfl
  | cons ch p inductionHypothesis =>
      rw [stringLoop]
      by_cases goesOn : precision < 0 ∨ precision - 1 ≥ 0
      · rw [if_pos goesOn, inductionHypothesis]
        have one : limited precision (ch :: p) =
            ch :: limited (if precision < 0 then precision else precision - 1) p := by
          unfold limited
          by_cases whole : precision < 0
          · rw [if_pos whole, if_pos whole, if_pos whole]
          · have some : precision.toNat = (precision - 1).toNat + 1 := by omega
            rw [if_neg whole, if_neg whole, if_neg (by omega), some, List.take_succ_cons]
        rw [one, List.map_cons, List.length_cons, emit, bind_assoc]
        rfl
      · have none : limited precision (ch :: p) = [] := by
          unfold limited
          have zero : precision.toNat = 0 := by omega
          rw [if_neg (by omega), zero, List.take_zero]
        rw [if_neg goesOn, none]
        rfl

theorem strnlen_eq (p : List UInt8) (precision : Int) :
    strnlen p precision = (limited precision p).length := by
  unfold strnlen limited
  split_ifs
  · rfl
  · rw [List.length_take, Nat.min_comm]

/-- The width with which a string starts after its padding on the left, and that padding. -/
def stringPads (escape : Escape) (count : Nat) : Int × Nat :=
  if escape.width > 0 ∧ escape.padc ≠ 45 then
    (wrap32 (escape.width - count) - (wrap32 (escape.width - count)).toNat,
      (wrap32 (escape.width - count)).toNat)
  else (escape.width, 0)

/-- What the conversion `s` prints. -/
def stringText (escape : Escape) (p : List UInt8) : List UInt8 :=
  let part := limited escape.precision p
  let (width, pads) := stringPads escape part.length
  List.replicate pads escape.padc ++ part.map (shown escape.altflag) ++
    List.replicate (widthLeft width part.length).toNat 32

theorem printString_eq (escape : Escape) (p : List UInt8) :
    printString putch escape p = emit putch (stringText escape p) := by
  rw [printString, stringText, strnlen_eq, stringPads]
  simp only [putTimes_eq, stringLoop_eq]
  split_ifs
  · simp only [emit_append, bind_assoc, pure_bind]
  · simp only [emit_append, bind_assoc, pure_bind, Nat.cast_zero, sub_zero]

/-- What the conversion `d` prints. -/
def signedText (escape : Escape) (num : Int) : List UInt8 :=
  if num < 0 then 45 :: numberText decimal (-num).toNat escape.width escape.padc
  else numberText decimal num.toNat escape.width escape.padc

theorem printSigned_eq (escape : Escape) (num : Int) :
    printSigned putch escape num = emit putch (signedText escape num) := by
  unfold printSigned signedText
  split_ifs
  · rw [printnum_eq]
    rfl
  · rw [printnum_eq]

/-! ## Pieces -/

/-- A part of the output: text that is there already, or the code of an error. -/
inductive Piece
  | text (bytes : List UInt8)
  | error (err : Int)

def Piece.print (putch : Putch Sink) (printfmt : List UInt8 → VaList → PrintM Sink Unit) :
    Piece → PrintM Sink Unit
  | .text bytes => emit putch bytes
  | .error err => printError printfmt err

/-- The piece that a conversion prints. -/
def convertPiece (switched : Switched) : Option (Piece × VaList) :=
  let escape := switched.escape
  let ap := switched.ap
  if switched.ch = 99 then some (.text [UInt8.ofNat (ap 0).word.toNat], ap.next)
  else if switched.ch = 101 then some (.error ap.int, ap.next)
  else if switched.ch = 115 then
    some (.text (stringText escape
      (if (ap 0).word = 0 then bytesOf "(null)" else (ap 0).text)), ap.next)
  else if switched.ch = 100 then
    some (.text (signedText escape (getint ap escape.lflag)), ap.next)
  else if switched.ch = 117 then
    some (.text (numberText decimal (getuint ap escape.lflag) escape.width escape.padc), ap.next)
  else if switched.ch = 111 then
    some (.text (numberText octal (getuint ap escape.lflag) escape.width escape.padc), ap.next)
  else if switched.ch = 112 then
    some (.text (48 :: 120 :: numberText hexadecimal (ap 0).word.toNat escape.width escape.padc),
      ap.next)
  else if switched.ch = 120 then
    some (.text (numberText hexadecimal (getuint ap escape.lflag) escape.width escape.padc),
      ap.next)
  else if switched.ch = 37 then some (.text [37], ap)
  else none

theorem convert_eq (switched : Switched) :
    convert putch printfmt switched = (convertPiece switched).map fun piece =>
      (piece.1.print putch printfmt, piece.2) := by
  unfold convert convertPiece
  simp only [printString_eq, printSigned_eq, printnum_eq]
  split_ifs
  · rw [Option.map_some, Piece.print, emit_singleton]
  · rfl
  · rfl
  · rfl
  · rfl
  · rfl
  · rfl
  · rfl
  · rfl
  · rw [Option.map_some, Piece.print, emit_singleton]
  · rfl

/-- The pieces of a format. -/
def pieces : List UInt8 → VaList → List Piece
  | [], _ => []
  | ch :: fmt, ap =>
      if ch ≠ 37 then .text [ch] :: pieces fmt ap
      else
        have := reswitch_length Escape.start ap fmt
        match convertPiece (reswitch Escape.start ap fmt) with
        | some (piece, ap') => piece :: pieces (reswitch Escape.start ap fmt).fmt ap'
        | none => .text [37] :: pieces fmt (reswitch Escape.start ap fmt).ap
termination_by fmt => fmt.length
decreasing_by all_goals simp only [List.length_cons]; omega

def printPieces (putch : Putch Sink) (printfmt : List UInt8 → VaList → PrintM Sink Unit) :
    List Piece → PrintM Sink Unit
  | [] => pure ()
  | piece :: rest => do
      piece.print putch printfmt
      printPieces putch printfmt rest

/-- The formatter prints the pieces of its format. -/
theorem vprintfmtWith_eq (fmt : List UInt8) (ap : VaList) :
    vprintfmtWith putch printfmt fmt ap = printPieces putch printfmt (pieces fmt ap) := by
  induction fmt, ap using pieces.induct with
  | case1 ap => rw [vprintfmtWith, pieces, printPieces]
  | case2 ch fmt ap plain inductionHypothesis =>
      rw [vprintfmtWith, pieces, if_pos plain, if_pos plain, printPieces, inductionHypothesis,
        Piece.print, emit_singleton]
  | case3 ch fmt ap isEscape shorter piece ap' converted inductionHypothesis =>
      rw [vprintfmtWith, pieces, if_neg isEscape, if_neg isEscape, convert_eq, converted]
      simp only [Option.map_some]
      rw [printPieces, inductionHypothesis]
  | case4 ch fmt ap isEscape shorter converted inductionHypothesis =>
      rw [vprintfmtWith, pieces, if_neg isEscape, if_neg isEscape, convert_eq, converted]
      simp only [Option.map_none]
      rw [printPieces, inductionHypothesis, Piece.print, emit_singleton]

/-- Pieces of text are one text. -/
theorem printPieces_text (texts : List (List UInt8)) :
    printPieces putch printfmt (texts.map Piece.text) = emit putch texts.flatten := by
  induction texts with
  | nil => rfl
  | cons bytes texts inductionHypothesis =>
      rw [List.map_cons, printPieces, inductionHypothesis, List.flatten_cons, emit_append]
      rfl

end UCore.Libs
