import Mathlib.Data.Nat.Basic
import Mathlib.Tactic.Ring

/-!
Contract: byte-addressed contents and little-endian numbers in them.

Owns:
- `overlay`, contents with a range replaced;
- numbers of a given width at an offset, and what replacing a range does to them.

Does not own: any layout of fields.
-/

set_option autoImplicit false

namespace UCore.Lib

/-- The byte at each offset. -/
abbrev Bytes : Type := Nat → UInt8

namespace Bytes

def zeros : Bytes := fun _ => 0

/-- `length` bytes of `source` put at `offset`. -/
def overlay (bytes : Bytes) (offset length : Nat) (source : Bytes) : Bytes :=
  fun position =>
    if offset ≤ position ∧ position < offset + length then source (position - offset)
    else bytes position

/-- The bytes from `offset` on. -/
def drop (bytes : Bytes) (offset : Nat) : Bytes := fun position => bytes (offset + position)

/-- The first `length` bytes of `first`, and `rest` after them. -/
def append (first : Bytes) (length : Nat) (rest : Bytes) : Bytes :=
  fun position => if position < length then first position else rest (position - length)

/-- The number of `width` bytes at `offset`. -/
def number (bytes : Bytes) (offset : Nat) : Nat → Nat
  | 0 => 0
  | width + 1 => (bytes offset).toNat + 256 * number bytes (offset + 1) width

/-- The bytes of a number. -/
def ofNumber (value : Nat) : Bytes := fun position => UInt8.ofNat (value / 256 ^ position)

variable {bytes source : Bytes} {offset length : Nat}

theorem overlay_inside {position : Nat} (low : offset ≤ position) (high : position < offset + length) :
    overlay bytes offset length source position = source (position - offset) :=
  if_pos ⟨low, high⟩

theorem overlay_outside {position : Nat} (outside : position < offset ∨ offset + length ≤ position) :
    overlay bytes offset length source position = bytes position := by
  apply if_neg
  omega

theorem overlay_idem {other : Bytes} :
    overlay (overlay bytes offset length other) offset length source =
      overlay bytes offset length source := by
  funext position
  unfold overlay
  split_ifs with inside
  · rfl
  · rfl

/-- Two ranges, one right after the other. -/
theorem overlay_append {more : Nat} {rest : Bytes} :
    overlay (overlay bytes offset length source) (offset + length) more rest =
      overlay bytes offset (length + more) (append source length rest) := by
  funext position
  by_cases low : offset ≤ position
  · by_cases first : position < offset + length
    · rw [overlay_outside (Or.inl first), overlay_inside low first, overlay_inside low (by omega),
        append, if_pos (by omega)]
    · by_cases second : position < offset + length + more
      · rw [overlay_inside (by omega) second, overlay_inside low (by omega), append,
          if_neg (by omega), Nat.sub_sub]
      · rw [overlay_outside (Or.inr (by omega)), overlay_outside (Or.inr (by omega)),
          overlay_outside (Or.inr (by omega))]
  · rw [overlay_outside (Or.inl (by omega)), overlay_outside (Or.inl (by omega)),
      overlay_outside (Or.inl (by omega))]

theorem overlay_nothing : overlay bytes offset 0 source = bytes := by
  funext position
  exact overlay_outside (by omega)

theorem number_congr {other : Bytes} {width : Nat}
    (same : ∀ position, offset ≤ position → position < offset + width →
      bytes position = other position) : bytes.number offset width = other.number offset width := by
  induction width generalizing offset with
  | zero => rfl
  | succ width inductionHypothesis =>
      simp only [number]
      rw [same offset (Nat.le_refl _) (by omega),
        inductionHypothesis fun position low high => same position (by omega) (by omega)]

theorem number_drop (bytes : Bytes) (start width : Nat) :
    (bytes.drop start).number 0 width = bytes.number start width := by
  have general : ∀ offset, (bytes.drop start).number offset width =
      bytes.number (start + offset) width := by
    induction width with
    | zero => exact fun _ => rfl
    | succ width inductionHypothesis =>
        intro offset
        simp only [number]
        rw [inductionHypothesis, Nat.add_assoc]
        rfl
  exact general 0

theorem number_zeros (offset width : Nat) : zeros.number offset width = 0 := by
  induction width generalizing offset with
  | zero => rfl
  | succ width inductionHypothesis => simp [number, inductionHypothesis, zeros]

theorem number_lt (bytes : Bytes) (offset width : Nat) : bytes.number offset width < 256 ^ width := by
  induction width generalizing offset with
  | zero => simp [number]
  | succ width inductionHypothesis =>
      have rest := inductionHypothesis (offset + 1)
      have byte : (bytes offset).toNat < 256 := (bytes offset).toNat_lt
      simp only [number, Nat.pow_succ]
      omega

/-- Reading back the bytes of a number. -/
theorem number_of_bytes {value width : Nat}
    (holds : ∀ position, position < width →
      bytes (offset + position) = UInt8.ofNat (value / 256 ^ position)) :
    bytes.number offset width = value % 256 ^ width := by
  induction width generalizing offset value with
  | zero => simp [number, Nat.mod_one]
  | succ width inductionHypothesis =>
      have rest : bytes.number (offset + 1) width = value / 256 % 256 ^ width := by
        apply inductionHypothesis
        intro position inside
        rw [Nat.add_assoc, Nat.add_comm 1, holds (position + 1) (by omega), Nat.pow_succ',
          Nat.div_div_eq_div_mul]
      have first : (bytes offset).toNat = value % 256 := by
        have byte := holds 0 (by omega)
        rw [Nat.add_zero, Nat.pow_zero, Nat.div_one] at byte
        rw [byte, UInt8.toNat_ofNat']
      simp only [number]
      rw [first, rest, Nat.pow_succ', Nat.mod_mul]

theorem number_overlay_same {value width : Nat} (fits : value < 256 ^ width) :
    (overlay bytes offset width (ofNumber value)).number offset width = value := by
  rw [@number_of_bytes _ _ value, Nat.mod_eq_of_lt fits]
  intro position inside
  rw [overlay_inside (by omega) (by omega), Nat.add_sub_cancel_left]
  rfl

theorem number_overlay_apart {position width : Nat}
    (apart : position + width ≤ offset ∨ offset + length ≤ position) :
    (overlay bytes offset length source).number position width = bytes.number position width := by
  apply number_congr
  intro place low high
  apply overlay_outside
  omega

/-- The bytes of a number that was read. -/
theorem ofNumber_number {width position : Nat} (inside : position < width) :
    ofNumber (bytes.number offset width) position = bytes (offset + position) := by
  have byte : (bytes offset).toNat < 256 := (bytes offset).toNat_lt
  induction width generalizing offset position with
  | zero => omega
  | succ width inductionHypothesis =>
      simp only [ofNumber, number]
      cases position with
      | zero =>
          apply UInt8.toNat_inj.mp
          rw [UInt8.toNat_ofNat', Nat.pow_zero, Nat.div_one]
          show _ = (bytes offset).toNat
          omega
      | succ position =>
          have rest := @inductionHypothesis (offset + 1) position (by omega)
            (bytes (offset + 1)).toNat_lt
          have shift : ((bytes offset).toNat + 256 * bytes.number (offset + 1) width) / 256 =
              bytes.number (offset + 1) width := by omega
          rw [Nat.pow_succ', ← Nat.div_div_eq_div_mul, shift, ← Nat.add_assoc,
            Nat.add_right_comm]
          exact rest

/-- A number that stays is put in its place. -/
theorem overlay_number {width : Nat} :
    overlay bytes offset width (ofNumber (bytes.number offset width)) = bytes := by
  funext position
  by_cases inside : offset ≤ position ∧ position < offset + width
  · rw [overlay_inside inside.1 inside.2, ofNumber_number (by omega),
      Nat.add_sub_cancel' inside.1]
  · exact overlay_outside (by omega)

end Bytes

end UCore.Lib
