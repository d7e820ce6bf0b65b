import Mathlib.Data.List.Basic
import UCore.Lib.Bytes
import UCore.Lib.Program
import UCore.Machine

/-!
Contract: formatted printing, `libs/printfmt.c`.

Owns:
- `printnum`, the escape sequences of a format, and `vprintfmt` over any `putch`;
- `sprintputch` and `vsnprintf`.

A format is the list of its characters before the terminating zero, and so is a string. What
`va_arg` takes is a slot of eight bytes, and where it is a pointer, the string it leads to. A `putch`
gets the byte that is left of the `int` it is called with. Arithmetic on `int` wraps around.

Does not own: the text that is printed, as a whole.
-/

set_option autoImplicit false

namespace UCore.Libs

open UCore.Lib

/-- What stops the formatter: an index outside of `error_string`, or `printfmt` called within itself
deeper than it can be. -/
inductive PrintfStop
  | outsideTable
  | tooDeep
deriving DecidableEq, Repr

variable {Sink : Type}

/-- A program that prints into `Sink`. -/
abbrev PrintM (Sink : Type) : Type → Type := Program Sink Empty PrintfStop

abbrev Putch (Sink : Type) : Type := UInt8 → PrintM Sink Unit

/-! ## Numbers -/

/-- The bases that a number can be printed in. -/
structure Base where
  value : Nat
  low : 2 ≤ value
  high : value ≤ 16

def octal : Base := ⟨8, by decide, by decide⟩

def decimal : Base := ⟨10, by decide, by decide⟩

def hexadecimal : Base := ⟨16, by decide, by decide⟩

/-- `"0123456789abcdef"[mod]` -/
def digitChar (mod : Nat) : UInt8 := UInt8.ofNat (if mod < 10 then 48 + mod else 87 + mod)

/-- `for (; times > 0; times --) putch(ch)` -/
def putTimes (putch : Putch Sink) (ch : UInt8) : Nat → PrintM Sink Unit
  | 0 => pure ()
  | times + 1 => do
      putch ch
      putTimes putch ch times

/-- `printnum`. The loop `while (-- width > 0)` runs as often as the decreased width says. -/
def printnum (putch : Putch Sink) (base : Base) (num : Nat) (width : Int) (padc : UInt8) :
    PrintM Sink Unit := do
  if h : base.value ≤ num then
    printnum putch base (num / base.value) (wrap32 (width - 1)) padc
  else
    putTimes putch padc (wrap32 (width - 1)).toNat
  putch (digitChar (num % base.value))
termination_by num
decreasing_by
  have low := base.low
  exact Nat.div_lt_self (by omega) (by omega)

/-! ## Arguments -/

/-- A slot of the argument list, and the string it points to where it is a pointer to one. -/
structure VaArg where
  word : BitVec 64
  text : List UInt8

/-- The arguments that are left. -/
abbrev VaList : Type := Nat → VaArg

/-- The list after `va_arg`. -/
def VaList.next (ap : VaList) : VaList := fun position => ap (position + 1)

/-- `va_arg(ap, int)` -/
def VaList.int (ap : VaList) : Int := ((ap 0).word.truncate 32).toInt

def getuint (ap : VaList) (lflag : Nat) : Nat :=
  if lflag ≠ 0 then (ap 0).word.toNat else ((ap 0).word.truncate 32).toNat

def getint (ap : VaList) (lflag : Nat) : Int :=
  if lflag ≠ 0 then (ap 0).word.toInt else ap.int

/-! ## Escape sequences -/

/-- `padc`, `width`, `precision`, `lflag` and `altflag`. -/
structure Escape where
  padc : UInt8
  width : Int
  precision : Int
  lflag : Nat
  altflag : Bool

/-- The values that a `%` starts with. -/
def Escape.start : Escape := ⟨32, -1, -1, 0, false⟩

/-- `process_precision` -/
def Escape.processPrecision (escape : Escape) : Escape :=
  if escape.width < 0 then { escape with width := escape.precision, precision := -1 } else escape

def isDigit (ch : UInt8) : Bool := decide (48 ≤ ch ∧ ch ≤ 57)

/-- The loop over the digits of a width, from the digit `ch` on, with what follows them. -/
def widthLoop (precision : Int) (ch : UInt8) : List UInt8 → Int × List UInt8
  | [] => (wrap32 (precision * 10 + ch.toNat - 48), [])
  | next :: fmt =>
      if isDigit next = true then widthLoop (wrap32 (precision * 10 + ch.toNat - 48)) next fmt
      else (wrap32 (precision * 10 + ch.toNat - 48), next :: fmt)

theorem widthLoop_length (precision : Int) (ch : UInt8) (fmt : List UInt8) :
    (widthLoop precision ch fmt).2.length ≤ fmt.length := by
  induction fmt generalizing precision ch with
  | nil => exact le_rfl
  | cons next fmt inductionHypothesis =>
      unfold widthLoop
      split_ifs
      · exact (inductionHypothesis _ _).trans (Nat.le_succ _)
      · exact le_rfl

/-- Where `reswitch` leads: the character that is no flag, what was collected, and the format and
the arguments after it. -/
structure Switched where
  ch : UInt8
  escape : Escape
  fmt : List UInt8
  ap : VaList

/-- `reswitch`, as long as there are flags. -/
def reswitch (escape : Escape) (ap : VaList) : List UInt8 → Switched
  | [] => ⟨0, escape, [], ap⟩
  | ch :: fmt =>
      if ch = 45 ∨ ch = 48 then reswitch { escape with padc := ch } ap fmt
      else if isDigit ch = true then
        have := widthLoop_length 0 ch fmt
        reswitch { escape with precision := (widthLoop 0 ch fmt).1 }.processPrecision ap
          (widthLoop 0 ch fmt).2
      else if ch = 42 then
        reswitch { escape with precision := ap.int }.processPrecision ap.next fmt
      else if ch = 46 then
        reswitch { escape with width := if escape.width < 0 then 0 else escape.width } ap fmt
      else if ch = 35 then reswitch { escape with altflag := true } ap fmt
      else if ch = 108 then
        reswitch { escape with lflag := (escape.lflag + 1) % 2 ^ 32 } ap fmt
      else ⟨ch, escape, fmt, ap⟩
termination_by fmt => fmt.length
decreasing_by all_goals simp only [List.length_cons]; omega

/-! ## Conversions -/

def maxError : Nat := 24

/-- The texts of `error_string`. -/
def errorString : List (Option String) :=
  [none, some "unspecified error", some "bad process", some "invalid parameter",
    some "out of memory", some "out of processes", some "segmentation fault", none,
    some "invalid elf file", some "process is killed", some "panic failure", none, none,
    some "no such device", some "device not available", some "device/file is busy",
    some "no such file or directory", some "is a directory", some "not a directory",
    some "cross device link", some "unimplemented feature", some "illegal seek",
    some "too many files are open", some "file or directory already exists",
    some "directory is not empty"]

def bytesOf (text : String) : List UInt8 := text.toList.map fun char => UInt8.ofNat char.toNat

/-- `error_string[err]` -/
def errorText (err : Int) : PrintM Sink (Option (List UInt8)) :=
  if 0 ≤ err ∧ err ≤ maxError then
    pure ((errorString.getD err.toNat none).map bytesOf)
  else Program.stop .outsideTable

/-- An argument list with one number. -/
def numberArgument (number : Int) : VaList := fun _ => ⟨BitVec.ofInt 64 number, []⟩

/-- An argument list with one string. -/
def stringArgument (text : List UInt8) : VaList := fun _ => ⟨1, text⟩

/-- The conversion `e`, with `printfmt`. -/
def printError (printfmt : List UInt8 → VaList → PrintM Sink Unit) (err : Int) :
    PrintM Sink Unit := do
  let err := if err < 0 then wrap32 (-err) else err
  if err > maxError then printfmt (bytesOf "error %d") (numberArgument err)
  else do
    match ← errorText err with
    | none => printfmt (bytesOf "error %d") (numberArgument err)
    | some p => printfmt (bytesOf "%s") (stringArgument p)

/-- The loop over the characters of a string, and the width that is left. -/
def stringLoop (putch : Putch Sink) (altflag : Bool) (precision width : Int) :
    List UInt8 → PrintM Sink Int
  | [] => pure width
  | ch :: p =>
      if precision < 0 ∨ precision - 1 ≥ 0 then do
        putch (if altflag = true ∧ (ch < 32 ∨ 126 < ch) then 63 else ch)
        stringLoop putch altflag (if precision < 0 then precision else precision - 1)
          (wrap32 (width - 1)) p
      else pure width

/-- `strnlen(p, precision)` -/
def strnlen (p : List UInt8) (precision : Int) : Nat :=
  if precision < 0 then p.length else min p.length precision.toNat

/-- The conversion `s` -/
def printString (putch : Putch Sink) (escape : Escape) (p : List UInt8) : PrintM Sink Unit := do
  let width := if escape.width > 0 ∧ escape.padc ≠ 45
    then wrap32 (escape.width - strnlen p escape.precision) else escape.width
  let pads := if escape.width > 0 ∧ escape.padc ≠ 45 then width.toNat else 0
  putTimes putch escape.padc pads
  let width ← stringLoop putch escape.altflag escape.precision (width - pads) p
  putTimes putch 32 width.toNat

/-- The conversion `d` -/
def printSigned (putch : Putch Sink) (escape : Escape) (num : Int) : PrintM Sink Unit := do
  if num < 0 then do
    putch 45
    printnum putch decimal (-num).toNat escape.width escape.padc
  else printnum putch decimal num.toNat escape.width escape.padc

/-- The conversion that the character stands for, if there is one, and the arguments after it. -/
def convert (putch : Putch Sink) (printfmt : List UInt8 → VaList → PrintM Sink Unit)
    (switched : Switched) : Option (PrintM Sink Unit × VaList) :=
  let escape := switched.escape
  let ap := switched.ap
  if switched.ch = 99 then some (putch (UInt8.ofNat (ap 0).word.toNat), ap.next)
  else if switched.ch = 101 then some (printError printfmt ap.int, ap.next)
  else if switched.ch = 115 then
    some (printString putch escape
      (if (ap 0).word = 0 then bytesOf "(null)" else (ap 0).text), ap.next)
  else if switched.ch = 100 then
    some (printSigned putch escape (getint ap escape.lflag), ap.next)
  else if switched.ch = 117 then
    some (printnum putch decimal (getuint ap escape.lflag) escape.width escape.padc, ap.next)
  else if switched.ch = 111 then
    some (printnum putch octal (getuint ap escape.lflag) escape.width escape.padc, ap.next)
  else if switched.ch = 112 then
    some (do
      putch 48
      putch 120
      printnum putch hexadecimal (ap 0).word.toNat escape.width escape.padc, ap.next)
  else if switched.ch = 120 then
    some (printnum putch hexadecimal (getuint ap escape.lflag) escape.width escape.padc, ap.next)
  else if switched.ch = 37 then some (putch 37, ap)
  else none

theorem reswitch_length (escape : Escape) (ap : VaList) (fmt : List UInt8) :
    (reswitch escape ap fmt).fmt.length ≤ fmt.length := by
  induction escape, ap, fmt using reswitch.induct with
  | case1 => simp [reswitch]
  | case2 escape ap ch fmt flag inductionHypothesis =>
      rw [reswitch, if_pos flag]
      exact inductionHypothesis.trans (Nat.le_succ _)
  | case3 escape ap ch fmt notFlag digit shorter inductionHypothesis =>
      rw [reswitch, if_neg notFlag, if_pos digit]
      exact (inductionHypothesis.trans shorter).trans (Nat.le_succ _)
  | case4 escape ap fmt notFlag notDigit inductionHypothesis =>
      rw [reswitch, if_neg notFlag, if_neg notDigit, if_pos rfl]
      exact inductionHypothesis.trans (Nat.le_succ _)
  | case5 escape ap fmt notFlag notDigit notStar inductionHypothesis =>
      rw [reswitch, if_neg notFlag, if_neg notDigit, if_neg notStar, if_pos rfl]
      exact inductionHypothesis.trans (Nat.le_succ _)
  | case6 escape ap fmt notFlag notDigit notStar notDot inductionHypothesis =>
      rw [reswitch, if_neg notFlag, if_neg notDigit, if_neg notStar, if_neg notDot, if_pos rfl]
      exact inductionHypothesis.trans (Nat.le_succ _)
  | case7 escape ap fmt notFlag notDigit notStar notDot notAlt inductionHypothesis =>
      rw [reswitch, if_neg notFlag, if_neg notDigit, if_neg notStar, if_neg notDot, if_neg notAlt,
        if_pos rfl]
      exact inductionHypothesis.trans (Nat.le_succ _)
  | case8 escape ap ch fmt notFlag notDigit notStar notDot notAlt notLong =>
      rw [reswitch, if_neg notFlag, if_neg notDigit, if_neg notStar, if_neg notDot, if_neg notAlt,
        if_neg notLong]
      exact Nat.le_succ _

/-- `vprintfmt`, with the `printfmt` that it calls. -/
def vprintfmtWith (putch : Putch Sink) (printfmt : List UInt8 → VaList → PrintM Sink Unit) :
    List UInt8 → VaList → PrintM Sink Unit
  | [], _ => pure ()
  | ch :: fmt, ap =>
      if ch ≠ 37 then do
        putch ch
        vprintfmtWith putch printfmt fmt ap
      else
        have := reswitch_length Escape.start ap fmt
        match convert putch printfmt (reswitch Escape.start ap fmt) with
        | some (program, ap') => do
            program
            vprintfmtWith putch printfmt (reswitch Escape.start ap fmt).fmt ap'
        | none => do
            -- the characters after the `%` are printed as they are
            putch 37
            vprintfmtWith putch printfmt fmt (reswitch Escape.start ap fmt).ap
termination_by fmt => fmt.length
decreasing_by all_goals simp only [List.length_cons]; omega

/-- `vprintfmt`, which calls itself through `printfmt` at most `depth` deep. -/
def vprintfmtDepth (putch : Putch Sink) : Nat → List UInt8 → VaList → PrintM Sink Unit
  | 0 => vprintfmtWith putch fun _ _ => Program.stop .tooDeep
  | depth + 1 => vprintfmtWith putch (vprintfmtDepth putch depth)

/-- `vprintfmt`. The formats that it calls `printfmt` with have no `%e`. -/
def vprintfmt (putch : Putch Sink) : List UInt8 → VaList → PrintM Sink Unit :=
  vprintfmtDepth putch 1

/-! ## Printing into a buffer -/

/-- `struct sprintbuf`, with memory. -/
structure SprintBuf where
  memory : Bytes
  buf : Nat
  ebuf : Nat
  cnt : Int

def sprintputch : Putch SprintBuf := fun ch =>
  Program.modify fun b =>
    let b := { b with cnt := wrap32 (b.cnt + 1) }
    if b.buf < b.ebuf then
      { b with memory := Function.update b.memory b.buf ch, buf := b.buf + 1 }
    else b

/-- `-E_INVAL` -/
def errInval : Int := -3

/-- `vsnprintf`: its result, and memory. -/
def vsnprintf (memory : Bytes) (str size : Nat) (fmt : List UInt8) (ap : VaList) :
    Except PrintfStop (Int × Bytes) :=
  let b : SprintBuf := ⟨memory, str, (str + size + (2 ^ 64 - 1)) % 2 ^ 64, 0⟩
  if str = 0 ∨ b.buf > b.ebuf then .ok (errInval, memory)
  else
    match vprintfmt sprintputch fmt ap b with
    | .error stop => .error stop
    | .ok (_, b) => .ok (b.cnt, Function.update b.memory b.buf 0)

end UCore.Libs
