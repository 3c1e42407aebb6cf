/-
# `BranchWord.Proofs.Checked.Composition` — extending twice is extending from the narrower width.

What an extension with the sign computes has a description without any shifts: it is the one number in the signed
range of its width that is the value modulo two to that width (`represents_iff`). All else here follows from that.

The range of a width contains the range of every narrower one, so the width that the result is meant to fit into has
no influence on it. Equality modulo `2 ^ width` implies equality modulo every smaller power of two, and a register
agrees with the signed number in it modulo all of them (`toInt_modEq`). So a second extension finds the low bits that
the first one left alone, if it is the narrower one, and otherwise a number that is in its range already
(`lowSigned_extended`).
-/
import Mathlib.Data.Int.ModEq
import BranchWord.Proofs.Checked.Extension

namespace BranchWord.Checked

variable (v : BitVec 64) {width : Nat} {x : Int}

/-! ## The number that low bits stand for, without the bits -/

/-- A signed number of `width` bits that is the value modulo `2 ^ width`. -/
structure Represents (v : BitVec 64) (width : Nat) (x : Int) : Prop where
  lower : -2 ^ (width - 1) ≤ x
  upper : x ≤ 2 ^ (width - 1) - 1
  modEq : x ≡ v.toNat [ZMOD 2 ^ width]

theorem lowSigned_modEq (width : Nat) : lowSigned v width ≡ v.toNat [ZMOD 2 ^ width] := by
  have hremainder : lowSigned v width % ((2 ^ width : Nat) : Int) = v.toNat % ((2 ^ width : Nat) : Int) :=
    Int.bmod_emod
  rwa [Int.natCast_pow] at hremainder

theorem represents_lowSigned (width : Nat) : Represents v width (lowSigned v width) :=
  ⟨le_lowSigned v width, lowSigned_le v width, lowSigned_modEq v width⟩

variable {v}

/-- **Range and remainder determine the number** that the low bits of a value stand for. -/
theorem represents_iff (hpos : 0 < width) : Represents v width x ↔ x = lowSigned v width := by
  constructor
  · rintro ⟨hlower, hupper, hmod⟩
    have hremainder : x % ((2 ^ width : Nat) : Int) = v.toNat % ((2 ^ width : Nat) : Int) := by
      rw [Int.natCast_pow]
      exact hmod
    calc x
      _ = x.bmod (2 ^ width) := (bmod_of_bounds hpos hlower hupper).symm
      _ = Int.bmod v.toNat (2 ^ width) := by rw [← Int.emod_bmod, hremainder, Int.emod_bmod]
  · rintro rfl
    exact represents_lowSigned v width

/-! ## Extending twice -/

/-- A value and its number agree modulo two to every width of the register. -/
theorem toInt_modEq (u : BitVec 64) (h : width ≤ 64) : u.toInt ≡ u.toNat [ZMOD 2 ^ width] := by
  have hregister : lowSigned u 64 = u.toInt := by rw [← toInt_setWidth, BitVec.setWidth_eq]
  rw [← hregister]
  exact (lowSigned_modEq u 64).of_dvd (pow_dvd_pow 2 h)

/-- **The low bits of an extension** stand for the number of the narrower width. -/
theorem lowSigned_extended {a b : Nat} {e : Int64} (hpos : 0 < b) (hb : b ≤ 64)
    (he : e.toInt = lowSigned v a) : lowSigned e.toBitVec b = lowSigned v (min a b) := by
  have hregister : lowSigned v a ≡ e.toBitVec.toNat [ZMOD 2 ^ b] := by
    rw [← he]
    exact toInt_modEq e.toBitVec hb
  suffices hrep : Represents e.toBitVec b (lowSigned v (min a b)) from
    ((represents_iff hpos).mp hrep).symm
  obtain ⟨hlower, hupper⟩ := lowSigned_bounds v (Nat.min_le_right a b)
  refine ⟨hlower, hupper, ?_⟩
  rcases Nat.le_total a b with hab | hba
  · -- the first extension has left a number that is in the range of the second
    rw [Nat.min_eq_left hab]
    exact hregister
  · -- the second extension looks at bits that the first has not changed
    rw [Nat.min_eq_right hba]
    have hwider : lowSigned v a ≡ v.toNat [ZMOD 2 ^ b] := (lowSigned_modEq v a).of_dvd (pow_dvd_pow 2 hba)
    exact (lowSigned_modEq v b).trans (hwider.symm.trans hregister)

/-- The machine's second extension gives what the narrower one of the two would have given at once. -/
theorem signed_signed (v : BitVec 64) {a b : Nat} (ha : 0 < a) (ha' : a ≤ 64) (hb : 0 < b) (hb' : b ≤ 64) :
    ∃ inner outer, signed v a = .ok inner ∧ signed inner.toBitVec b = .ok outer ∧
      signed v (min a b) = .ok outer := by
  obtain ⟨inner, hinner, inner_eq⟩ := signed_toInt v ha ha'
  obtain ⟨outer, houter, outer_eq⟩ := signed_toInt inner.toBitVec hb hb'
  obtain ⟨direct, hdirect, direct_eq⟩ :=
    signed_toInt v (show 0 < min a b by omega) (show min a b ≤ 64 by omega)
  have hsame : outer.toInt = direct.toInt := by
    rw [outer_eq, direct_eq, lowSigned_extended hb hb' inner_eq]
  obtain rfl : outer = direct := Int64.toInt_inj.mp hsame
  exact ⟨inner, outer, hinner, houter, hdirect⟩

/-! ## Composition and representatives -/

/-- **Extensions compose to the narrower width, and each is a unique representative.**

* An extension of an extension gives what the extension from the narrower of the two widths gives at once, so an
  extension that is repeated changes nothing.
* An extension that is meant to fit into a target gives one number for every target that is not too narrow. It is the
  extension without a target, lies in the signed range of every such target and is the value modulo two to the width,
  and it is the only number with that remainder in the signed range of the width. -/
theorem extensions_compose :
    (∀ (v : BitVec 64) (a b : Nat), 1 ≤ a → a ≤ 64 → 1 ≤ b → b ≤ 64 →
      ∃ inner outer, signed v a = .ok inner ∧ signed inner.toBitVec b = .ok outer ∧
        signed v (min a b) = .ok outer) ∧
    (∀ (v : BitVec 64) (width : Nat), 1 ≤ width → width ≤ 64 →
      ∃ e, signed v width = .ok e ∧ signed e.toBitVec width = .ok e) ∧
    (∀ (v : BitVec 64) (width : Nat), 1 ≤ width → width ≤ 64 →
      ∃ e, signed v width = .ok e ∧
        (∀ target, width ≤ target → target ≤ 64 → signedWithin v width target = .ok e ∧
          -2 ^ (target - 1) ≤ e.toInt ∧ e.toInt ≤ 2 ^ (target - 1) - 1) ∧
        e.toInt ≡ v.toNat [ZMOD 2 ^ width] ∧
        ∀ x : Int, -2 ^ (width - 1) ≤ x → x ≤ 2 ^ (width - 1) - 1 → x ≡ v.toNat [ZMOD 2 ^ width] →
          e.toInt = x) := by
  refine ⟨?_, ?_, ?_⟩
  · intro v a b ha ha' hb hb'
    exact signed_signed v ha ha' hb hb'
  · intro v width hpos hle
    obtain ⟨inner, outer, hinner, houter, hdirect⟩ := signed_signed v hpos hle hpos hle
    rw [Nat.min_self, hinner] at hdirect
    obtain rfl : inner = outer := Except.ok.inj hdirect
    exact ⟨inner, hinner, houter⟩
  · intro v width hpos hle
    obtain ⟨e, he, e_eq⟩ := signed_toInt v hpos hle
    refine ⟨e, he, ?_, ?_, ?_⟩
    · intro target hwidth htarget
      rw [signedWithin_eq_signed v hpos hwidth htarget, e_eq]
      exact ⟨he, lowSigned_bounds v hwidth⟩
    · rw [e_eq]
      exact lowSigned_modEq v width
    · intro x hlower hupper hmod
      rw [e_eq]
      exact ((represents_iff hpos).mp ⟨hlower, hupper, hmod⟩).symm

/-- A value whose low eight bits are -127: extended from them and then from the lowest bit it is -1. One bit is -1 in
every target, from that one bit to the register, and the lowest number of the register is extended to itself. -/
theorem lone_bit_and_lowest_number :
    (∃ inner outer, signed 0xdeadbeef00000081#64 8 = .ok inner ∧ signed inner.toBitVec 1 = .ok outer ∧
        signed 0xdeadbeef00000081#64 (min 8 1) = .ok outer) ∧
      (∃ e, signed 0x8000000000000000#64 64 = .ok e ∧ signed e.toBitVec 64 = .ok e) ∧
      (∃ e, signedWithin 0xdeadbeef00000081#64 1 1 = .ok e ∧ signedWithin 0xdeadbeef00000081#64 1 64 = .ok e ∧
        e.toInt = -1) ∧
      ∃ e, signedWithin 0x8000000000000000#64 64 64 = .ok e ∧ e.toInt = -2 ^ 63 := by
  obtain ⟨hcompose, hrepeat, hwithin⟩ := extensions_compose
  obtain ⟨bit, _, hbit, _, hbit'⟩ := hwithin 0xdeadbeef00000081#64 1 (by decide) (by decide)
  obtain ⟨lowest, _, hlowest, _, hlowest'⟩ := hwithin 0x8000000000000000#64 64 (by decide) (by decide)
  exact ⟨hcompose _ 8 1 (by decide) (by decide) (by decide) (by decide), hrepeat _ 64 (by decide) (by decide),
    ⟨bit, (hbit 1 (by decide) (by decide)).1, (hbit 64 (by decide) (by decide)).1,
      hbit' (-1) (by decide) (by decide) (by decide)⟩,
    ⟨lowest, (hlowest 64 (by decide) (by decide)).1, hlowest' (-2 ^ 63) (by decide) (by decide) (by decide)⟩⟩

end BranchWord.Checked
