import Mathlib.Data.List.Count
import Mathlib.Data.List.GetD
import Mathlib.Logic.Function.Basic

/-!
Contract: `gettoken` of the shell in `user/sh.c`, and the tokens that a command line has.

Owns:
- the memory of a command line, which no access past its terminating zero reaches;
- `gettoken`, and one call of it after another as `runcmd` makes them;
- the special symbols and the maximal words of a line, by the positions they stand at.

A pointer into the line is the distance from its start, and `NULL` is `none`.

Does not own: what the shell does with the tokens.
-/

set_option autoImplicit false

namespace UCore.User

/-! ## The program -/

inductive Fault
  | pastEnd
  | outOfFuel
deriving DecidableEq, Repr

/-- A command line in memory, with the place of its terminating zero. -/
structure Line where
  bytes : Nat → UInt8
  last : Nat

/-- `*s` -/
def Line.load (line : Line) (s : Nat) : Except Fault UInt8 :=
  if s ≤ line.last then .ok (line.bytes s) else .error .pastEnd

/-- `*s = ch` -/
def Line.store (line : Line) (s : Nat) (ch : UInt8) : Except Fault Line :=
  if s ≤ line.last then .ok { line with bytes := Function.update line.bytes s ch }
  else .error .pastEnd

/-- `strchr` of `libs/string.c` returns where the first `c` stands in the string `s`. -/
def strchr : List UInt8 → UInt8 → Option Nat
  | [], _ => none
  | ch :: s, c => if ch = c then some 0 else (strchr s c).map (· + 1)

/-- `WHITESPACE` -/
def whitespace : List UInt8 := [32, 9, 13, 10]

/-- `SYMBOLS` -/
def symbols : List UInt8 := [60, 124, 62, 38, 59]

/-- The loop that overwrites the whitespace before a token. -/
def skipWhitespace : Nat → Line → Nat → Except Fault (Line × Nat)
  | 0, _, _ => .error .outOfFuel
  | fuel + 1, line, s => do
      let ch ← line.load s
      if strchr whitespace ch ≠ none then
        let line ← line.store s 0
        skipWhitespace fuel line (s + 1)
      else pure (line, s)

/-- The loop over the characters of a word. -/
def scanWord : Nat → Bool → Line → Nat → Except Fault (Line × Nat)
  | 0, _, _, _ => .error .outOfFuel
  | fuel + 1, flag, line, s => do
      let ch ← line.load s
      if ch ≠ 0 ∧ (flag = true ∨ strchr (whitespace ++ symbols) ch = none) then
        if ch = 34 then
          let line ← line.store s 32
          scanWord fuel (!flag) line (s + 1)
        else scanWord fuel flag line (s + 1)
      else pure (line, s)

/-- `*s != '\0' ? s : NULL` -/
def resumeAt (line : Line) (s : Nat) : Except Fault (Option Nat) := do
  let ch ← line.load s
  pure (if ch ≠ 0 then some s else none)

/-- The line, and the two pointers that `gettoken` is given the addresses of. -/
structure Cursor where
  line : Line
  p1 : Option Nat
  p2 : Option Nat

/-- The code of a word is `'w'`. -/
def gettoken (fuel : Nat) (cursor : Cursor) : Except Fault (UInt8 × Cursor) :=
  match cursor.p1 with
  | none => pure (0, cursor)
  | some s => do
      let (line, s) ← skipWhitespace fuel cursor.line s
      let token ← line.load s
      if token = 0 then pure (0, { cursor with line := line })
      else if strchr symbols token ≠ none then
        let line ← line.store s 0
        let p1 ← resumeAt line (s + 1)
        pure (token, ⟨line, p1, some s⟩)
      else
        let (line, stop) ← scanWord fuel false line s
        let p1 ← resumeAt line stop
        pure (119, ⟨line, p1, some s⟩)

/-- As many calls one after another, with the token and the `*p2` of each. -/
def gettokens (fuel : Nat) : Nat → Cursor → Except Fault (List (UInt8 × Option Nat) × Cursor)
  | 0, cursor => pure ([], cursor)
  | calls + 1, cursor => do
      let (token, cursor) ← gettoken fuel cursor
      let (answers, final) ← gettokens fuel calls cursor
      pure ((token, cursor.p2) :: answers, final)

/-! ## The tokens of a line -/

/-- The string at an address. -/
structure StringAt (bytes : Nat → UInt8) (start : Nat) (text : List UInt8) : Prop where
  chars : ∀ index (inside : index < text.length), bytes (start + index) = text[index]
  ends : bytes (start + text.length) = 0
  noZero : 0 ∉ text

/-- The character at a position of a line, the terminating zero included. -/
def charAt (text : List UInt8) (position : Nat) : UInt8 :=
  text.getD position 0

/-- Of the characters before the position an odd number are quotes. -/
def Quoted (text : List UInt8) (position : Nat) : Prop :=
  (text.take position).count 34 % 2 = 1

instance (text : List UInt8) (position : Nat) : Decidable (Quoted text position) :=
  inferInstanceAs (Decidable (_ = _))

/-- Whitespace or a symbol outside of quotes. -/
def Separates (text : List UInt8) (position : Nat) : Prop :=
  charAt text position ∈ whitespace ++ symbols ∧ ¬ Quoted text position

instance (text : List UInt8) (position : Nat) : Decidable (Separates text position) :=
  inferInstanceAs (Decidable (_ ∧ _))

/-- Each quote becomes a blank. -/
def unquote (ch : UInt8) : UInt8 := if ch = 34 then 32 else ch

/-- A symbol, or a word from its first position up to the position after its last one. -/
inductive Piece
  | symbol (start : Nat)
  | word (start stop : Nat)
deriving DecidableEq, Repr

namespace Piece

def start : Piece → Nat
  | symbol start => start
  | word start _ => start

/-- What `gettoken` answers for the piece. -/
def token (text : List UInt8) : Piece → UInt8
  | symbol start => charAt text start
  | word _ _ => 119

/-- The special symbols of the line, and its longest parts without a separator. -/
def Of (text : List UInt8) : Piece → Prop
  | symbol start => Separates text start ∧ charAt text start ∈ symbols
  | word start stop => start < stop ∧ stop ≤ text.length ∧
      (∀ position, start ≤ position → position < stop → ¬ Separates text position) ∧
      (start = 0 ∨ Separates text (start - 1)) ∧ (stop = text.length ∨ Separates text stop)

end Piece

/-- What the shell is to read of a word. -/
def wordText (text : List UInt8) (start stop : Nat) : List UInt8 :=
  ((text.drop start).take (stop - start)).map unquote

/-! ## Characters -/

theorem strchr_eq_none {s : List UInt8} {c : UInt8} : strchr s c = none ↔ c ∉ s := by
  induction s with
  | nil => exact iff_of_true rfl List.not_mem_nil
  | cons ch rest inductionHypothesis =>
      rw [strchr, List.mem_cons, not_or]
      by_cases same : ch = c
      · rw [if_pos same]
        exact iff_of_false (Option.some_ne_none 0) fun apart => apart.1 same.symm
      · rw [if_neg same, Option.map_eq_none_iff, inductionHypothesis]
        exact (and_iff_right (Ne.symm same)).symm

/-- Whitespace is no symbol, and neither is a quote or the terminating zero. -/
theorem whitespace_plain : ∀ ch ∈ whitespace, ch ∉ symbols ∧ ch ≠ 34 ∧ ch ≠ 0 := by
  simp only [whitespace, List.forall_mem_cons, List.not_mem_nil, false_imp_iff, implies_true, and_true]
  decide

theorem symbols_plain : ∀ ch ∈ symbols, ch ≠ 34 ∧ ch ≠ 0 := by
  simp only [symbols, List.forall_mem_cons, List.not_mem_nil, false_imp_iff, implies_true, and_true]
  decide

theorem separator_plain {ch : UInt8} (separator : ch ∈ whitespace ++ symbols) :
    ch ≠ 34 ∧ ch ≠ 0 := by
  rcases List.mem_append.mp separator with blank | symbol
  · exact (whitespace_plain ch blank).2
  · exact symbols_plain ch symbol

section

variable {text : List UInt8} {position : Nat}

theorem charAt_inside (inside : position < text.length) : charAt text position = text[position] :=
  (List.getElem_eq_getD 0).symm

theorem charAt_end : charAt text text.length = 0 :=
  List.getD_eq_default _ _ (Nat.le_refl _)

/-- A character that is not zero is one of the line. -/
theorem inside_of_charAt (nonzero : charAt text position ≠ 0) : position < text.length := by
  by_contra outside
  exact nonzero (List.getD_eq_default _ _ (Nat.le_of_not_lt outside))

theorem end_of_charAt (noZero : 0 ∉ text) (inside : position ≤ text.length)
    (zero : charAt text position = 0) : position = text.length := by
  by_contra apart
  have within : position < text.length := by omega
  rw [charAt_inside within] at zero
  exact noZero (zero ▸ List.getElem_mem within)

theorem Separates.inside (separates : Separates text position) : position < text.length :=
  inside_of_charAt (separator_plain separates.1).2

/-- A quote opens or closes. -/
theorem quoted_succ (inside : position < text.length) :
    Quoted text (position + 1) ↔ (Quoted text position ↔ charAt text position ≠ 34) := by
  unfold Quoted
  rw [List.take_add_one, List.getElem?_eq_getElem inside, charAt_inside inside, List.count_append]
  by_cases quote : text[position] = 34
  · simp only [quote, Option.toList_some, List.count_singleton_self, ne_eq, not_true, iff_false]
    omega
  · have none : [text[position]].count 34 = 0 := List.count_singleton.trans (if_neg (by simpa using quote))
    rw [Option.toList_some, none, Nat.add_zero]
    exact (iff_true_right quote).symm

theorem quoted_succ_of_ne (inside : position < text.length) (plain : charAt text position ≠ 34) :
    Quoted text (position + 1) ↔ Quoted text position := by
  rw [quoted_succ inside, iff_true_right plain]

end

/-! ## What the calls leave in memory -/

/-- What the memory holds once the calls have reached `position`: the separators before it are
overwritten with zeros, and the quotes of the words with blanks. -/
def scanned (text : List UInt8) (position index : Nat) : UInt8 :=
  if index < position then (if Separates text index then 0 else unquote (charAt text index))
  else charAt text index

structure Scanned (text : List UInt8) (position : Nat) (line : Line) : Prop where
  last : line.last = text.length
  bytes : ∀ index, index ≤ text.length → line.bytes index = scanned text position index

section

variable {text : List UInt8} {line : Line} {position fuel : Nat}

theorem scanned_ahead {index : Nat} (ahead : position ≤ index) :
    scanned text position index = charAt text index :=
  if_neg (Nat.not_lt.mpr ahead)

theorem scanned_separator {index : Nat} (behind : index < position)
    (separates : Separates text index) : scanned text position index = 0 := by
  rw [scanned, if_pos behind, if_pos separates]

theorem scanned_word {index : Nat} (behind : index < position)
    (plain : ¬ Separates text index) : scanned text position index = unquote (charAt text index) := by
  rw [scanned, if_pos behind, if_neg plain]

theorem scanned_succ {index : Nat} (elsewhere : index ≠ position) :
    scanned text (position + 1) index = scanned text position index := by
  unfold scanned
  exact if_congr (by omega) rfl rfl

namespace Scanned

theorem load (holds : Scanned text position line) (inside : position ≤ text.length) :
    line.load position = .ok (charAt text position) := by
  rw [Line.load, holds.last, if_pos inside, holds.bytes position inside, scanned_ahead (Nat.le_refl _)]

/-- The character at the position is overwritten with what is to stay there. -/
theorem store (holds : Scanned text position line) (inside : position ≤ text.length) {ch : UInt8}
    (stays : scanned text (position + 1) position = ch) :
    ∃ line', line.store position ch = .ok line' ∧ Scanned text (position + 1) line' := by
  refine ⟨_, if_pos (holds.last ▸ inside), holds.last, fun index within => ?_⟩
  by_cases here : index = position
  · subst here
    exact (Function.update_self ..).trans stays.symm
  · exact (Function.update_of_ne here ..).trans
      ((holds.bytes index within).trans (scanned_succ here).symm)

/-- A character of a word that is no quote stays as it is. -/
theorem pass (holds : Scanned text position line) (plain : ¬ Separates text position)
    (noQuote : charAt text position ≠ 34) : Scanned text (position + 1) line := by
  refine ⟨holds.last, fun index within => (holds.bytes index within).trans ?_⟩
  by_cases here : index = position
  · subst here
    rw [scanned_ahead (Nat.le_refl _), scanned_word (Nat.lt_succ_self _) plain, unquote,
      if_neg noQuote]
  · exact (scanned_succ here).symm

end Scanned

/-- The whitespace from `position` up to `stop` is overwritten. -/
structure Skipped (text : List UInt8) (position stop : Nat) (line : Line) : Prop where
  scanned : Scanned text stop line
  after : position ≤ stop
  inside : stop ≤ text.length
  outside : ¬ Quoted text stop
  noBlank : charAt text stop ∉ whitespace
  blanks : ∀ index, position ≤ index → index < stop →
    Separates text index ∧ charAt text index ∉ symbols

/-- A word reaches from `position` to the next separator or to the end of the line. -/
structure WordTo (text : List UInt8) (position stop : Nat) (line : Line) : Prop where
  scanned : Scanned text stop line
  after : position ≤ stop
  inside : stop ≤ text.length
  ends : stop = text.length ∨ Separates text stop
  plain : ∀ index, position ≤ index → index < stop → ¬ Separates text index

theorem Skipped.earlier {stop : Nat} (skipped : Skipped text (position + 1) stop line)
    (separates : Separates text position) (noSymbol : charAt text position ∉ symbols) :
    Skipped text position stop line := by
  refine ⟨skipped.scanned, Nat.le_of_succ_le skipped.after, skipped.inside, skipped.outside,
    skipped.noBlank, fun index low high => ?_⟩
  by_cases here : index = position
  · subst here
    exact ⟨separates, noSymbol⟩
  · exact skipped.blanks index (by omega) high

theorem WordTo.earlier {stop : Nat} (word : WordTo text (position + 1) stop line)
    (plain : ¬ Separates text position) : WordTo text position stop line := by
  refine ⟨word.scanned, Nat.le_of_succ_le word.after, word.inside, word.ends,
    fun index low high => ?_⟩
  by_cases here : index = position
  · exact here ▸ plain
  · exact word.plain index (by omega) high

theorem skipWhitespace_eq (holds : Scanned text position line) (inside : position ≤ text.length)
    (outside : ¬ Quoted text position) (enough : text.length < fuel + position) :
    ∃ line' stop, skipWhitespace fuel line position = .ok (line', stop) ∧
      Skipped text position stop line' := by
  induction fuel generalizing position line with
  | zero => omega
  | succ fuel inductionHypothesis =>
      by_cases blank : charAt text position ∈ whitespace
      · obtain ⟨noSymbol, noQuote, nonzero⟩ := whitespace_plain _ blank
        have within : position < text.length := inside_of_charAt nonzero
        have separates : Separates text position := ⟨List.mem_append_left _ blank, outside⟩
        obtain ⟨line', stored, holds'⟩ := holds.store inside
          (scanned_separator (Nat.lt_succ_self position) separates)
        have outside' : ¬ Quoted text (position + 1) :=
          fun quoted => outside ((quoted_succ_of_ne within noQuote).mp quoted)
        obtain ⟨final, stop, ran, skipped⟩ :=
          inductionHypothesis holds' within outside' (by omega)
        refine ⟨final, stop, ?_, skipped.earlier separates noSymbol⟩
        simp only [skipWhitespace, holds.load inside, bind, Except.bind, ne_eq, strchr_eq_none,
          not_not, if_pos blank, stored]
        exact ran
      · refine ⟨line, position, ?_, holds, Nat.le_refl _, inside, outside, blank, ?_⟩
        · simp only [skipWhitespace, holds.load inside, bind, Except.bind, ne_eq, strchr_eq_none,
            not_not, if_neg blank]
          rfl
        · exact fun index low high => absurd high (Nat.not_lt.mpr low)

/-- The condition of the loop over a word. -/
theorem goesOn_iff (noZero : 0 ∉ text) (inside : position ≤ text.length) :
    (charAt text position ≠ 0 ∧ (decide (Quoted text position) = true ∨
      strchr (whitespace ++ symbols) (charAt text position) = none)) ↔
      position < text.length ∧ ¬ Separates text position := by
  rw [decide_eq_true_eq, strchr_eq_none, Separates, not_and_or, not_not, or_comm]
  refine and_congr_left fun _ => ⟨inside_of_charAt, fun within zero => ?_⟩
  exact absurd (end_of_charAt noZero inside zero) (Nat.ne_of_lt within)

theorem scanWord_eq (noZero : 0 ∉ text) (holds : Scanned text position line)
    (inside : position ≤ text.length) (enough : text.length < fuel + position) :
    ∃ line' stop, scanWord fuel (decide (Quoted text position)) line position = .ok (line', stop) ∧
      WordTo text position stop line' := by
  induction fuel generalizing position line with
  | zero => omega
  | succ fuel inductionHypothesis =>
      have condition := goesOn_iff noZero inside
      by_cases more : position < text.length ∧ ¬ Separates text position
      · obtain ⟨within, plain⟩ := more
        by_cases quote : charAt text position = 34
        · have stays : scanned text (position + 1) position = 32 := by
            rw [scanned_word (Nat.lt_succ_self position) plain, unquote, if_pos quote]
          obtain ⟨line', stored, holds'⟩ := holds.store inside stays
          have toggles : decide (Quoted text (position + 1)) = !decide (Quoted text position) := by
            have change := quoted_succ within
            rw [iff_false_right (not_not.mpr quote)] at change
            rw [decide_eq_decide.mpr change, decide_not]
          obtain ⟨final, stop, ran, word⟩ := inductionHypothesis holds' within (by omega)
          refine ⟨final, stop, ?_, word.earlier plain⟩
          rw [toggles] at ran
          simp only [scanWord, holds.load inside, bind, Except.bind]
          rw [if_pos (condition.mpr ⟨within, plain⟩), if_pos quote, stored]
          exact ran
        · obtain ⟨final, stop, ran, word⟩ :=
            inductionHypothesis (holds.pass plain quote) within (by omega)
          refine ⟨final, stop, ?_, word.earlier plain⟩
          rw [decide_eq_decide.mpr (quoted_succ_of_ne within quote)] at ran
          simp only [scanWord, holds.load inside, bind, Except.bind]
          rw [if_pos (condition.mpr ⟨within, plain⟩), if_neg quote]
          exact ran
      · refine ⟨line, position, ?_, holds, Nat.le_refl _, inside, ?_, ?_⟩
        · simp only [scanWord, holds.load inside, bind, Except.bind]
          rw [if_neg fun still => more (condition.mp still)]
          rfl
        · by_cases within : position < text.length
          · exact Or.inr (not_not.mp fun plain => more ⟨within, plain⟩)
          · exact Or.inl (by omega)
        · exact fun index low high => absurd high (Nat.not_lt.mpr low)

end

/-! ## The next piece -/

/-- A word can start at the position or after the separators that follow. -/
def StartsWord (text : List UInt8) (position : Nat) : Prop :=
  position = 0 ∨ Separates text (position - 1) ∨ Separates text position

/-- The piece is the first one from the position on, and all others start at `next` or later. -/
structure First (text : List UInt8) (position : Nat) (piece : Piece) (next : Nat) : Prop where
  isPiece : piece.Of text
  ahead : position ≤ piece.start
  passed : piece.start < next
  others : ∀ other : Piece, other.Of text → position ≤ other.start →
    other = piece ∨ next ≤ other.start
  complete : ∀ start stop, piece = .word start stop → stop ≤ next

section

variable {text : List UInt8} {line : Line} {position s : Nat}

/-- No piece starts in whitespace. -/
theorem Piece.Of.after_blanks {piece : Piece} (isPiece : piece.Of text)
    (ahead : position ≤ piece.start) (skipped : Skipped text position s line) :
    s ≤ piece.start := by
  by_contra before
  obtain ⟨separates, noSymbol⟩ := skipped.blanks piece.start ahead (by omega)
  cases piece with
  | symbol start => exact noSymbol isPiece.2
  | word start stop => exact isPiece.2.2.1 start (Nat.le_refl _) isPiece.1 separates

theorem first_symbol (skipped : Skipped text position s line) (separates : Separates text s)
    (symbol : charAt text s ∈ symbols) : First text position (.symbol s) (s + 1) := by
  refine ⟨⟨separates, symbol⟩, skipped.after, Nat.lt_succ_self s, fun other isPiece ahead => ?_, ?_⟩
  · have start := isPiece.after_blanks ahead skipped
    by_cases here : other.start = s
    · cases other with
      | symbol _ => exact Or.inl (congrArg Piece.symbol here)
      | word start' stop =>
          obtain rfl : start' = s := here
          exact absurd separates (isPiece.2.2.1 start' (Nat.le_refl _) isPiece.1)
    · exact Or.inr (by omega)
  · rintro _ _ ⟨⟩

theorem first_word {stop : Nat} {line' : Line} (skipped : Skipped text position s line)
    (starts : StartsWord text position) (some : s < stop) (wordTo : WordTo text s stop line') :
    First text position (.word s stop) stop := by
  obtain ⟨_, _, within, ends, word⟩ := wordTo
  have begins : s = 0 ∨ Separates text (s - 1) := by
    by_cases moved : position < s
    · exact Or.inr (skipped.blanks (s - 1) (by omega) (by omega)).1
    · have here : position = s := Nat.le_antisymm skipped.after (Nat.le_of_not_lt moved)
      subst here
      rcases starts with first | before | separates
      · exact Or.inl first
      · exact Or.inr before
      · exact absurd separates (word position (Nat.le_refl _) some)
  refine ⟨⟨some, within, word, begins, ends⟩, skipped.after, some, fun other isPiece ahead => ?_,
    ?_⟩
  · have start := isPiece.after_blanks ahead skipped
    by_cases beyond : stop ≤ other.start
    · exact Or.inr beyond
    have plain := word other.start start (by omega)
    cases other with
    | symbol _ => exact absurd isPiece.1 plain
    | word from' until' =>
        obtain ⟨nonempty, inside, plain', begins', ends'⟩ := isPiece
        have same : from' = s := by
          by_contra apart
          change s ≤ from' at start
          rcases begins' with zero | before
          · omega
          · exact word (from' - 1) (by omega) (by change ¬ stop ≤ from' at beyond; omega) before
        subst same
        refine Or.inl (congrArg (Piece.word from') ?_)
        rcases Nat.lt_trichotomy until' stop with shorter | equal | longer
        · rcases ends' with atEnd | separates
          · omega
          · exact absurd separates (word until' (by omega) shorter)
        · exact equal
        · rcases ends with atEnd | separates
          · omega
          · exact absurd separates (plain' stop (by omega) longer)
  · rintro _ _ ⟨⟩
    exact Nat.le_refl _

end

/-! ## One call -/

/-- A further call goes on at the position, or it only finds the end of the line. -/
structure Ready (text : List UInt8) (position : Nat) (cursor : Cursor) : Prop where
  line : Scanned text position cursor.line
  next : (position < text.length ∧ cursor.p1 = some position ∧ ¬ Quoted text position ∧
      StartsWord text position) ∨
    position = text.length ∧ ∀ s, cursor.p1 = some s → s ≤ text.length ∧ cursor.line.bytes s = 0

section

variable {text : List UInt8} {cursor : Cursor} {position fuel : Nat}

theorem Ready.inside (ready : Ready text position cursor) : position ≤ text.length := by
  rcases ready.next with going | ended
  · exact Nat.le_of_lt going.1
  · exact Nat.le_of_eq ended.1

theorem resumeAt_eq {line : Line} {p2 : Option Nat} (noZero : 0 ∉ text)
    (holds : Scanned text position line) (inside : position ≤ text.length)
    (going : position < text.length → ¬ Quoted text position ∧ StartsWord text position) :
    ∃ p1, resumeAt line position = .ok p1 ∧ Ready text position ⟨line, p1, p2⟩ := by
  refine ⟨_, by simp only [resumeAt, holds.load inside, bind, Except.bind]; rfl, holds, ?_⟩
  by_cases zero : charAt text position = 0
  · rw [if_neg (not_not.mpr zero)]
    exact Or.inr ⟨end_of_charAt noZero inside zero, by rintro _ ⟨⟩⟩
  · rw [if_pos zero]
    have within := inside_of_charAt zero
    exact Or.inl ⟨within, rfl, going within⟩

theorem zero_plain : (0 : UInt8) ∉ whitespace := by
  decide

/-- At the end of the line a call changes nothing. -/
theorem gettoken_ended (ready : Ready text text.length cursor) (enough : text.length < fuel) :
    gettoken fuel cursor = .ok (0, cursor) := by
  obtain ⟨line, p1, p2⟩ := cursor
  have ended : ∀ s, p1 = some s → s ≤ text.length ∧ line.bytes s = 0 := by
    rcases ready.next with ⟨going, _⟩ | ⟨_, ended⟩
    · exact absurd going (Nat.lt_irrefl _)
    · exact ended
  cases p1 with
  | none => rfl
  | some s =>
      obtain ⟨inside, zero⟩ := ended s rfl
      have load : line.load s = .ok 0 := by
        rw [Line.load, ready.line.last, if_pos inside, zero]
      have stays : skipWhitespace fuel line s = .ok (line, s) := by
        obtain ⟨rounds, rfl⟩ := Nat.exists_eq_add_one_of_ne_zero (show fuel ≠ 0 by omega)
        have none : strchr whitespace 0 = none := strchr_eq_none.mpr zero_plain
        simp only [skipWhitespace, load, bind, Except.bind]
        rw [if_neg (not_not.mpr none)]
        rfl
      simp only [gettoken, stays, load, bind, Except.bind]
      rfl

/-- A call finds the next piece, or the end of the line. -/
theorem gettoken_next (noZero : 0 ∉ text) (ready : Ready text position cursor)
    (enough : text.length < fuel) :
    (∃ final, gettoken fuel cursor = .ok (0, final) ∧ Ready text text.length final ∧
      ∀ piece : Piece, piece.Of text → ¬ position ≤ piece.start) ∨
    ∃ piece next final, gettoken fuel cursor = .ok (Piece.token text piece, final) ∧
      final.p2 = some piece.start ∧ First text position piece next ∧ Ready text next final := by
  rcases ready.next with ⟨within, p1, outside, starts⟩ | ⟨rfl, ended⟩
  · obtain ⟨line, s, ran, skipped⟩ :=
      skipWhitespace_eq ready.line (Nat.le_of_lt within) outside (show _ < fuel + position by omega)
    have holds := skipped.scanned
    have inside := skipped.inside
    have load := holds.load inside
    by_cases zero : charAt text s = 0
    · have atEnd := end_of_charAt noZero inside zero
      refine Or.inl ⟨{ cursor with line := line }, ?_, ⟨atEnd ▸ holds, Or.inr ⟨rfl, ?_⟩⟩, ?_⟩
      · simp only [gettoken, p1, ran, load, bind, Except.bind, if_pos zero]
        rfl
      · intro start isStart
        cases Option.some.inj (p1.symm.trans isStart)
        refine ⟨Nat.le_of_lt within, ?_⟩
        rw [holds.bytes position (Nat.le_of_lt within),
          scanned_separator (by omega) (skipped.blanks position (Nat.le_refl _) (by omega)).1]
      · intro piece isPiece ahead
        have start := isPiece.after_blanks ahead skipped
        cases piece with
        | symbol start' =>
            have := isPiece.1.inside
            change s ≤ start' at start
            omega
        | word start' stop =>
            have := isPiece.1
            have := isPiece.2.1
            change s ≤ start' at start
            omega
    · have within' := inside_of_charAt zero
      by_cases symbol : charAt text s ∈ symbols
      · have separates : Separates text s := ⟨List.mem_append_right _ symbol, skipped.outside⟩
        obtain ⟨line', stored, holds'⟩ := holds.store inside
          (scanned_separator (Nat.lt_succ_self s) separates)
        have going : s + 1 < text.length → ¬ Quoted text (s + 1) ∧ StartsWord text (s + 1) :=
          fun _ => ⟨fun quoted => skipped.outside
            ((quoted_succ_of_ne within' (symbols_plain _ symbol).1).mp quoted),
            Or.inr (Or.inl separates)⟩
        obtain ⟨next, resumes, ready'⟩ := @resumeAt_eq text (s + 1) line' (some s) noZero holds'
          within' going
        refine Or.inr ⟨.symbol s, s + 1, _, ?_, rfl, first_symbol skipped separates symbol,
          ready'⟩
        simp only [gettoken, p1, ran, load, bind, Except.bind, if_neg zero, ne_eq,
          strchr_eq_none, not_not, if_pos symbol, stored, resumes]
        rfl
      · have plain : ¬ Separates text s := fun separates =>
          (List.mem_append.mp separates.1).elim skipped.noBlank symbol
        obtain ⟨line', stop, ran', word⟩ :=
          scanWord_eq noZero holds inside (show _ < fuel + s by omega)
        have some' : s < stop := by
          have after := word.after
          by_contra none
          have same : stop = s := by omega
          subst same
          rcases word.ends with atEnd | separates
          · omega
          · exact plain separates
        have going : stop < text.length → ¬ Quoted text stop ∧ StartsWord text stop := by
          intro more
          have separates := word.ends.resolve_left (Nat.ne_of_lt more)
          exact ⟨separates.2, Or.inr (Or.inr separates)⟩
        obtain ⟨next, resumes, ready'⟩ := @resumeAt_eq text stop line' (some s) noZero
          word.scanned word.inside going
        refine Or.inr ⟨.word s stop, stop, _, ?_, rfl,
          first_word skipped starts some' word, ready'⟩
        have unquoted : decide (Quoted text s) = false := decide_eq_false skipped.outside
        rw [unquoted] at ran'
        simp only [gettoken, p1, ran, load, bind, Except.bind, if_neg zero, ne_eq,
          strchr_eq_none, not_not, if_neg symbol, ran', resumes]
        rfl
  · refine Or.inl ⟨cursor, gettoken_ended ready enough, ready, fun piece isPiece ahead => ?_⟩
    cases piece with
    | symbol start => exact absurd isPiece.1.inside (Nat.not_lt.mpr ahead)
    | word start stop => exact absurd (Nat.lt_of_lt_of_le isPiece.1 isPiece.2.1) (Nat.not_lt.mpr ahead)

end

/-! ## All calls -/

/-- The pieces of the line that start at the position or later, in their order. -/
structure PiecesFrom (text : List UInt8) (position : Nat) (pieces : List Piece) : Prop where
  ordered : pieces.Pairwise fun left right => left.start < right.start
  exactly : ∀ piece : Piece, piece ∈ pieces ↔ piece.Of text ∧ position ≤ piece.start

/-- What so many calls answer: the pieces one after another, and then that the line has ended. -/
structure Answers (text : List UInt8) (pieces : List Piece) (calls : Nat)
    (answers : List (UInt8 × Option Nat)) : Prop where
  count : answers.length = calls
  found : ∀ index piece, index < calls → pieces[index]? = some piece →
    answers[index]? = some (Piece.token text piece, some piece.start)
  ended : ∀ index, index < calls → pieces.length ≤ index →
    ∃ p2, answers[index]? = some (0, p2)

section

variable {text : List UInt8} {cursor : Cursor} {position next fuel : Nat} {piece : Piece}
  {pieces : List Piece}

theorem First.cons (first : First text position piece next) (rest : PiecesFrom text next pieces) :
    PiecesFrom text position (piece :: pieces) := by
  constructor
  · refine List.pairwise_cons.mpr ⟨fun other member => ?_, rest.ordered⟩
    exact Nat.lt_of_lt_of_le first.passed ((rest.exactly other).mp member).2
  · intro other
    rw [List.mem_cons, rest.exactly]
    constructor
    · rintro (rfl | ⟨isPiece, beyond⟩)
      · exact ⟨first.isPiece, first.ahead⟩
      · have := first.ahead
        have := first.passed
        exact ⟨isPiece, by omega⟩
    · rintro ⟨isPiece, ahead⟩
      exact (first.others other isPiece ahead).imp_right fun beyond => ⟨isPiece, beyond⟩

/-- The first piece comes first. -/
theorem First.of_pieces (first : First text position piece next)
    (all : PiecesFrom text position pieces) :
    ∃ rest, pieces = piece :: rest ∧ PiecesFrom text next rest := by
  have member := (all.exactly piece).mpr ⟨first.isPiece, first.ahead⟩
  cases pieces with
  | nil => cases member
  | cons head rest =>
      obtain ⟨above, ordered⟩ := List.pairwise_cons.mp all.ordered
      have isHead : head = piece := by
        rcases List.mem_cons.mp member with same | later
        · exact same.symm
        · obtain ⟨isPiece, ahead⟩ := (all.exactly head).mp List.mem_cons_self
          refine (first.others head isPiece ahead).resolve_right fun beyond => ?_
          have := above piece later
          have := first.passed
          omega
      subst isHead
      refine ⟨rest, rfl, ordered, fun other => ⟨fun later => ?_, fun ⟨isPiece, beyond⟩ => ?_⟩⟩
      · obtain ⟨isPiece, ahead⟩ := (all.exactly other).mp (List.mem_cons_of_mem _ later)
        refine ⟨isPiece, (first.others other isPiece ahead).resolve_left fun same => ?_⟩
        exact Nat.lt_irrefl _ (same ▸ above other later)
      · have passed := first.passed
        have ahead := first.ahead
        refine (List.mem_cons.mp ((all.exactly other).mpr ⟨isPiece, by omega⟩)).resolve_left ?_
        rintro rfl
        omega

/-- The line has its pieces, as the calls themselves show. -/
theorem exists_pieces (noZero : 0 ∉ text) (ready : Ready text position cursor) :
    ∃ pieces, PiecesFrom text position pieces := by
  induction left : text.length - position using Nat.strongRecOn generalizing position cursor with
  | _ left inductionHypothesis =>
      rcases gettoken_next noZero ready (Nat.lt_succ_self _) with
        ⟨_, _, _, none⟩ | ⟨piece, next, final, _, _, first, ready'⟩
      · refine ⟨[], List.Pairwise.nil, fun piece => iff_of_false List.not_mem_nil ?_⟩
        exact fun ⟨isPiece, ahead⟩ => none piece isPiece ahead
      · have := ready'.inside
        have := first.ahead
        have := first.passed
        obtain ⟨pieces, rest⟩ := inductionHypothesis (text.length - next) (by omega) ready' rfl
        exact ⟨piece :: pieces, first.cons rest⟩

/-- The calls never stop, answer the pieces, and go past every word but the last one answered. -/
theorem gettokens_run (noZero : 0 ∉ text) (enough : text.length < fuel) (calls : Nat)
    (ready : Ready text position cursor) (all : PiecesFrom text position pieces) :
    ∃ answers final last, gettokens fuel calls cursor = .ok (answers, final) ∧
      Answers text pieces calls answers ∧ Ready text last final ∧ position ≤ last ∧
      (0 < calls → position < last ∨ last = text.length) ∧
      ∀ index start stop, index + 1 < calls → pieces[index]? = some (.word start stop) →
        stop ≤ last ∧ (stop < last ∨ last = text.length) := by
  induction calls generalizing position cursor pieces with
  | zero =>
      refine ⟨[], cursor, position, rfl, ⟨rfl, ?_, ?_⟩, ready, Nat.le_refl _, ?_, ?_⟩
      · exact fun _ _ impossible => absurd impossible (Nat.not_lt_zero _)
      · exact fun _ impossible => absurd impossible (Nat.not_lt_zero _)
      · exact fun impossible => absurd impossible (Nat.lt_irrefl _)
      · exact fun _ _ _ impossible => absurd impossible (Nat.not_lt_zero _)
  | succ calls inductionHypothesis =>
      rcases gettoken_next noZero ready enough with
        ⟨middle, ran, ready', none⟩ | ⟨piece, next, middle, ran, p2, first, ready'⟩
      · have empty : pieces = [] := List.eq_nil_iff_forall_not_mem.mpr fun piece member =>
          none piece ((all.exactly piece).mp member).1 ((all.exactly piece).mp member).2
        subst empty
        have all' : PiecesFrom text text.length [] := by
          refine ⟨List.Pairwise.nil, fun piece => iff_of_false List.not_mem_nil ?_⟩
          exact fun ⟨isPiece, ahead⟩ => none piece isPiece (Nat.le_trans ready.inside ahead)
        obtain ⟨answers, final, last, rest, answered, ready'', later, _, _⟩ :=
          inductionHypothesis ready' all'
        have atEnd : last = text.length := Nat.le_antisymm ready''.inside later
        refine ⟨(0, middle.p2) :: answers, final, last, ?_, ⟨?_, ?_, ?_⟩, ready'',
          Nat.le_trans ready.inside later, fun _ => Or.inr atEnd, ?_⟩
        · simp only [gettokens, ran, rest, bind, Except.bind]
          rfl
        · rw [List.length_cons, answered.count]
        · intro index piece _ isPiece
          cases isPiece
        · intro index inside _
          cases index with
          | zero => exact ⟨_, rfl⟩
          | succ index => exact answered.ended index (by omega) (Nat.zero_le _)
        · intro index start stop _ isPiece
          cases isPiece
      · obtain ⟨others, rfl, all'⟩ := first.of_pieces all
        obtain ⟨answers, final, last, rest, answered, ready'', later, moved, words⟩ :=
          inductionHypothesis ready' all'
        have ahead := first.ahead
        have passed := first.passed
        refine ⟨(Piece.token text piece, middle.p2) :: answers, final, last, ?_, ⟨?_, ?_, ?_⟩,
          ready'', by omega, fun _ => Or.inl (by omega), ?_⟩
        · simp only [gettokens, ran, rest, bind, Except.bind]
          rfl
        · rw [List.length_cons, answered.count]
        · intro index other inside isOther
          cases index with
          | zero =>
              cases isOther
              rw [p2]
              rfl
          | succ index => exact answered.found index other (by omega) isOther
        · intro index inside beyond
          cases index with
          | zero => cases beyond
          | succ index => exact answered.ended index (by omega) (Nat.le_of_succ_le_succ beyond)
        · intro index start stop inside isWord
          cases index with
          | zero =>
              have stops := first.complete start stop (Option.some.inj isWord)
              have := moved (by omega)
              omega
          | succ index => exact words index start stop (by omega) isWord

/-- A word that the calls have gone past stands in memory. -/
theorem Scanned.word {line : Line} {start stop : Nat} (noZero : 0 ∉ text)
    (holds : Scanned text position line) (reached : position ≤ text.length)
    (isPiece : Piece.Of text (.word start stop)) (done : stop ≤ position)
    (terminated : stop < position ∨ position = text.length) :
    StringAt line.bytes start (wordText text start stop) := by
  obtain ⟨nonempty, inside, plain, _, ends⟩ := isPiece
  have length : (wordText text start stop).length = stop - start := by
    rw [wordText, List.length_map, List.length_take, List.length_drop]
    omega
  refine ⟨fun index within => ?_, ?_, fun member => ?_⟩
  · rw [length] at within
    have here : start + index < text.length := by omega
    rw [holds.bytes _ (Nat.le_of_lt here), scanned_word (by omega) (plain _ (by omega) (by omega)),
      charAt_inside here]
    simp only [wordText, List.getElem_map, List.getElem_take, List.getElem_drop]
  · rw [length, Nat.add_sub_cancel' (Nat.le_of_lt nonempty), holds.bytes stop inside]
    by_cases atEnd : stop = text.length
    · rw [scanned_ahead (by omega), atEnd, charAt_end]
    · exact scanned_separator (by omega) (ends.resolve_left atEnd)
  · obtain ⟨ch, isChar, zero⟩ := List.mem_map.mp member
    have listed : ch ∈ text := List.mem_of_mem_drop (List.mem_of_mem_take isChar)
    unfold unquote at zero
    split_ifs at zero with quote
    · exact absurd zero (by decide)
    · exact noZero (zero ▸ listed)

end

theorem ready_start {text : List UInt8} {memory : Nat → UInt8} {p2 : Option Nat}
    (holds : StringAt memory 0 text) : Ready text 0 ⟨⟨memory, text.length⟩, some 0, p2⟩ := by
  have bytes : ∀ index, index ≤ text.length → memory index = charAt text index := by
    intro index inside
    have chars := holds.chars index
    have ends := holds.ends
    rw [Nat.zero_add] at chars ends
    rcases Nat.lt_or_eq_of_le inside with within | rfl
    · rw [charAt_inside within]
      exact chars within
    · rw [charAt_end]
      exact ends
  refine ⟨⟨rfl, fun index inside => ?_⟩, ?_⟩
  · rw [scanned_ahead (Nat.zero_le _)]
    exact bytes index inside
  · by_cases empty : text.length = 0
    · refine Or.inr ⟨empty.symm, ?_⟩
      rintro _ ⟨⟩
      refine ⟨Nat.zero_le _, (bytes 0 (Nat.zero_le _)).trans ?_⟩
      exact empty ▸ charAt_end
    · refine Or.inl ⟨Nat.pos_of_ne_zero empty, rfl, ?_, Or.inl rfl⟩
      rw [Quoted, List.take_zero]
      decide

/-- However often it is called, `gettoken` returns, and no call goes past the end of the line. The
calls answer the special symbols and the maximal words of the line in their order, and then that
the line has ended; a word stands in memory with its terminating zero after each later call. -/
theorem gettoken_tokenizes (text : List UInt8) (memory : Nat → UInt8) (p2 : Option Nat)
    (holds : StringAt memory 0 text) :
    ∃ pieces : List Piece,
      (pieces.Pairwise fun left right => left.start < right.start) ∧
      (∀ piece : Piece, piece ∈ pieces ↔ piece.Of text) ∧
      ∃ enough, ∀ fuel, enough ≤ fuel → ∀ calls, ∃ answers final,
        gettokens fuel calls ⟨⟨memory, text.length⟩, some 0, p2⟩ = .ok (answers, final) ∧
        Answers text pieces calls answers ∧
        ∀ index start stop, index + 1 < calls → pieces[index]? = some (.word start stop) →
          StringAt final.line.bytes start (wordText text start stop) := by
  have noZero := holds.noZero
  have ready := @ready_start text memory p2 holds
  obtain ⟨pieces, all⟩ := exists_pieces noZero ready
  refine ⟨pieces, all.ordered, fun piece => ?_, text.length + 1, fun fuel enough calls => ?_⟩
  · rw [all.exactly, and_iff_left (Nat.zero_le _)]
  · obtain ⟨answers, final, last, ran, answered, ready', _, _, words⟩ :=
      gettokens_run noZero enough calls ready all
    refine ⟨answers, final, ran, answered, fun index start stop inside isWord => ?_⟩
    obtain ⟨done, terminated⟩ := words index start stop inside isWord
    have isPiece := ((all.exactly _).mp (List.mem_of_getElem? isWord)).1
    exact ready'.line.word noZero ready'.inside isPiece done terminated

/-- The line `ls "a b"c>f; ` -/
def commandLine : List UInt8 := [108, 115, 32, 34, 97, 32, 98, 34, 99, 62, 102, 59, 32]

theorem stringAt_charAt {text : List UInt8} (noZero : 0 ∉ text) :
    StringAt (charAt text) 0 text := by
  refine ⟨fun index inside => ?_, ?_, noZero⟩
  · rw [Nat.zero_add, charAt_inside inside]
  · rw [Nat.zero_add, charAt_end]

theorem gettoken_tokenizes_commandLine :
    ∃ pieces : List Piece,
      (pieces.Pairwise fun left right => left.start < right.start) ∧
      (∀ piece : Piece, piece ∈ pieces ↔ piece.Of commandLine) ∧
      ∃ enough, ∀ fuel, enough ≤ fuel → ∀ calls, ∃ answers final,
        gettokens fuel calls ⟨⟨charAt commandLine, 13⟩, some 0, none⟩ = .ok (answers, final) ∧
        Answers commandLine pieces calls answers ∧
        ∀ index start stop, index + 1 < calls → pieces[index]? = some (.word start stop) →
          StringAt final.line.bytes start (wordText commandLine start stop) :=
  gettoken_tokenizes commandLine (charAt commandLine) none (stringAt_charAt (by decide))

/-- The words are `ls`, ` a b c` and `f`. -/
example : (gettokens 14 6 ⟨⟨charAt commandLine, 13⟩, some 0, none⟩).map Prod.fst =
    .ok [(119, some 0), (119, some 3), (62, some 9), (119, some 10), (59, some 11),
      (0, some 11)] := by
  rfl

end UCore.User
