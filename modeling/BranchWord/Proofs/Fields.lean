/-
# `BranchWord.Proofs.Fields` — the fields of a word as numbers.

A field is a digit of its word: `w / 2 ^ low % 2 ^ width` (`toNat_field`). Everything else about fields as numbers is
division with remainder. A wide field is its lower part plus its upper part times the weight of that
(`toNat_field_add`), so fields that follow each other without a gap make up the field that spans them, however many
they are and however wide each one is (`assemble_eq_field`, by induction over the widths). A word is therefore the sum
of the fields of any layout that covers it, and no two words have the same ones.

The machine cuts a field out of a word by two shifts and a mask. What it gets is the same number at every position
and at every width, from the field of no bits to the whole word.
-/
import Mathlib.Algebra.Order.Ring.Int
import BranchWord.Proofs.Checked.Decoder

namespace BranchWord

open Layout

namespace Word

variable (w : Word) (low a b : Nat)

/-! ## Fields as digits -/

/-- **A field is a digit of the word.** -/
theorem toNat_field (width : Nat) : (w.field low width).toNat = w.toNat / 2 ^ low % 2 ^ width := by
  rw [field, BitVec.extractLsb'_toNat, Nat.shiftRight_eq_div_pow]

/-- Two adjacent fields are the two digits of the field that spans them. -/
theorem toNat_field_add :
    (w.field low (a + b)).toNat = (w.field low a).toNat + 2 ^ a * (w.field (low + a) b).toNat := by
  simp only [toNat_field]
  rw [Nat.pow_add 2 a b, Nat.mod_mul, Nat.div_div_eq_div_mul, ← Nat.pow_add]

/-- The field of all bits is the word. -/
theorem toNat_field_all : (w.field 0 32).toNat = w.toNat := by
  rw [toNat_field, Nat.pow_zero, Nat.div_one, Nat.mod_eq_of_lt w.isLt]

/-- A bit is set exactly when the field of that one bit is 1. -/
theorem toNat_field_one (n : Nat) : (w.field n 1).toNat = 1 ↔ w.bit n = true := by
  rw [field_one, BitVec.toNat_ofBool, Bool.toNat_eq_one]

/-! ## Fields that follow each other -/

/-- The number made of consecutive fields from bit `low` upwards, given by their widths, lowest field first. -/
def assemble (w : Word) (low : Nat) : List Nat → Nat
  | [] => 0
  | width :: widths => (w.field low width).toNat + 2 ^ width * w.assemble (low + width) widths

/-- **Nothing is lost and nothing is counted twice**: consecutive fields make up the field that spans them. -/
theorem assemble_eq_field (widths : List Nat) :
    w.assemble low widths = (w.field low widths.sum).toNat := by
  induction widths generalizing low with
  | nil => rw [assemble, List.sum_nil, toNat_field, Nat.pow_zero, Nat.mod_one]
  | cons width widths ih => rw [assemble, ih, List.sum_cons, toNat_field_add]

/-- A word is made up of any consecutive fields that cover its 32 bits. -/
theorem assemble_eq_self {widths : List Nat} (h : widths.sum = 32) : w.assemble 0 widths = w.toNat := by
  rw [assemble_eq_field, h, toNat_field_all]

/-! ## Fields of fields -/

/-- A field of a field that was cut out into a word is a field of the first word. -/
theorem field_setWidth_field {start len : Nat} (ha : a ≤ 32) (h : start + len ≤ a) :
    field ((w.field low a).setWidth 32) start len = w.field (low + start) len := by
  apply BitVec.eq_of_toNat_eq
  rw [toNat_field, BitVec.toNat_setWidth_of_le ha, ← extractLsb'_field w low h,
    BitVec.extractLsb'_toNat, Nat.shiftRight_eq_div_pow]

end Word

/-! ## The fields of the register group -/

namespace Layout.Indirect

/-- **A word is the sum of its fields** as the register group cuts them, each with the weight of its lowest bit. -/
theorem toNat_eq_sum (w : Word) :
    w.toNat = (w.field 25 7).toNat * 2 ^ 25 + (ofWord w).opc.toNat * 2 ^ 21 +
      (ofWord w).op2.toNat * 2 ^ 16 + (ofWord w).op3.toNat * 2 ^ 10 + (ofWord w).rn.toNat * 2 ^ 5 +
      (ofWord w).op4.toNat := by
  have hcover := w.assemble_eq_self (show [5, 5, 6, 5, 4, 7].sum = 32 from rfl)
  simp only [Word.assemble, Nat.zero_add, Nat.mul_zero, Nat.add_zero, Nat.reduceAdd] at hcover
  show w.toNat = (w.field 25 7).toNat * 2 ^ 25 + (w.field 21 4).toNat * 2 ^ 21 +
    (w.field 16 5).toNat * 2 ^ 16 + (w.field 10 6).toNat * 2 ^ 10 + (w.field 5 5).toNat * 2 ^ 5 +
    (w.field 0 5).toNat
  omega

/-- Words with the same fields and the same bits above them are equal, members of the group or not. -/
theorem eq_of_ofWord_of_top {u w : Word} (htop : u.field 25 7 = w.field 25 7) (h : ofWord u = ofWord w) :
    u = w := by
  apply BitVec.eq_of_toNat_eq
  rw [toNat_eq_sum u, toNat_eq_sum w, htop, h]

end Layout.Indirect

/-! ## Fields in machine words -/

namespace Checked

/-- Wherever a field fits into the word, the machine reads its number. -/
theorem exists_field (w : Word) {low width : Nat} (h : low + width ≤ 32) :
    ∃ x, field w low width = .ok x ∧ x.toNat = (w.field low width).toNat :=
  ⟨_, field_of_le w h, BitVec.toNat_setWidth_of_le (by omega)⟩

/-- **Fields are exact and lossless.** For every word,

* the machine reads a field that fits into the word without a fault, at every position and width, and the number it
  reads is the digit `w / 2 ^ low % 2 ^ width`; this is also the field of the plain decoders;
* a field is its lower part plus its upper part times the weight of that;
* a field of a field that was read is the field of the word at the sum of the positions;
* a bit is set exactly when the field of that one bit is 1;
* the word is the sum of its top seven bits and the five fields of the register group, each with its weight, so two
  words that agree on these are equal. -/
theorem fields_exact_and_lossless :
    (∀ (w : Word) (low a : Nat), low + a ≤ 32 →
      ∃ x, field w low a = .ok x ∧ x.toNat = w.toNat / 2 ^ low % 2 ^ a ∧ x = (w.field low a).setWidth 32) ∧
    (∀ (w : Word) (low a b : Nat), low + a + b ≤ 32 →
      ∃ whole lower upper, field w low (a + b) = .ok whole ∧ field w low a = .ok lower ∧
        field w (low + a) b = .ok upper ∧ whole.toNat = lower.toNat + 2 ^ a * upper.toNat) ∧
    (∀ (w : Word) (low a start len : Nat), low + a ≤ 32 → start + len ≤ a →
      ∃ outer inner, field w low a = .ok outer ∧ field outer start len = .ok inner ∧
        field w (low + start) len = .ok inner) ∧
    (∀ (w : Word) (n : Nat), n < 32 →
      ∃ set x, bit w n = .ok set ∧ field w n 1 = .ok x ∧ (set = true ↔ x = 1)) ∧
    (∀ w : Word, w.toNat = (w.field 25 7).toNat * 2 ^ 25 + (Indirect.ofWord w).opc.toNat * 2 ^ 21 +
      (Indirect.ofWord w).op2.toNat * 2 ^ 16 + (Indirect.ofWord w).op3.toNat * 2 ^ 10 +
      (Indirect.ofWord w).rn.toNat * 2 ^ 5 + (Indirect.ofWord w).op4.toNat) ∧
    (∀ u w : Word, u.field 25 7 = w.field 25 7 → Indirect.ofWord u = Indirect.ofWord w → u = w) := by
  refine ⟨?_, ?_, ?_, ?_, Indirect.toNat_eq_sum, fun u w => Indirect.eq_of_ofWord_of_top⟩
  · intro w low a h
    refine ⟨_, field_of_le w h, ?_, rfl⟩
    rw [BitVec.toNat_setWidth_of_le (by omega), Word.toNat_field]
  · intro w low a b h
    obtain ⟨whole, hwhole, whole_eq⟩ := exists_field w (show low + (a + b) ≤ 32 by omega)
    obtain ⟨lower, hlower, lower_eq⟩ := exists_field w (show low + a ≤ 32 by omega)
    obtain ⟨upper, hupper, upper_eq⟩ := exists_field w h
    refine ⟨whole, lower, upper, hwhole, hlower, hupper, ?_⟩
    rw [whole_eq, lower_eq, upper_eq, Word.toNat_field_add]
  · intro w low a start len ha hinner
    have hnested := w.field_setWidth_field low a (show a ≤ 32 by omega) hinner
    refine ⟨_, _, field_of_le w ha, field_of_le _ (show start + len ≤ 32 by omega), ?_⟩
    rw [field_of_le w (show low + start + len ≤ 32 by omega), hnested]
  · intro w n h
    obtain ⟨x, hx, x_eq⟩ := exists_field w (show n + 1 ≤ 32 by omega)
    refine ⟨w.bit n, x, bit_of_lt w h, hx, ?_⟩
    rw [← Word.toNat_field_one, ← x_eq, ← BitVec.toNat_inj]
    rfl

/-- The word of `ret` from end to end: its 32 bits as one field, the field of no bits behind the last of them, `Rn`
below `op3`, `Rn` again inside the lower half, and bit 31. -/
theorem fields_of_ret :
    (∃ x, field 0xd65f03c0#32 0 32 = .ok x ∧ x.toNat = 0xd65f03c0) ∧
      (∃ x, field 0xd65f03c0#32 32 0 = .ok x ∧ x.toNat = 0) ∧
      (∃ whole lower upper, field 0xd65f03c0#32 5 (5 + 6) = .ok whole ∧ field 0xd65f03c0#32 5 5 = .ok lower ∧
        field 0xd65f03c0#32 (5 + 5) 6 = .ok upper ∧ whole.toNat = lower.toNat + 2 ^ 5 * upper.toNat) ∧
      (∃ outer inner, field 0xd65f03c0#32 0 16 = .ok outer ∧ field outer 5 5 = .ok inner ∧
        field 0xd65f03c0#32 (0 + 5) 5 = .ok inner) ∧
      ∃ set x, bit 0xd65f03c0#32 31 = .ok set ∧ field 0xd65f03c0#32 31 1 = .ok x ∧ (set = true ↔ x = 1) := by
  obtain ⟨hexact, hsplit, hnested, hbit, _, _⟩ := fields_exact_and_lossless
  obtain ⟨all, hall, all_eq, _⟩ := hexact 0xd65f03c0#32 0 32 (by decide)
  obtain ⟨none, hnone, none_eq, _⟩ := hexact 0xd65f03c0#32 32 0 (by decide)
  exact ⟨⟨all, hall, all_eq⟩, ⟨none, hnone, none_eq⟩, hsplit _ 5 5 6 (by decide),
    hnested _ 0 16 5 5 (by decide) (by decide), hbit _ 31 (by decide)⟩

end Checked

end BranchWord
