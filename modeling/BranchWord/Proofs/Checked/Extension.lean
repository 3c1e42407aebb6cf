/-
# `BranchWord.Proofs.Checked.Extension` — extending with the sign and scaling commute.

An offset is a field that is extended with its sign and scaled by a power of two. The machine has two ways to do both:
scale the value and extend the longer field, or extend the field and multiply. They agree wherever the scaled field
fits into the register, for every width and scale and whatever stands above the field.

Both are measured against the same number, the one that the low bits of the value stand for (`lowSigned`):

* `lowSigned_shiftLeft` — shifting a value to the left multiplies the number of its low bits;
* `signedScaled_toInt` — the machine's extension is that number, its product reduced to 64 signed bits;
* `lowSigned_mul_bounds` — nothing is reduced away as long as the scaled field fits.

Where the scaled field does not fit, only the second holds.
-/
import Mathlib.Algebra.Order.Ring.Int
import BranchWord.Proofs.Checked.Decoder

namespace BranchWord.Checked

/-! ## The number that low bits stand for -/

/-- The signed number that the low `width` bits of a value stand for: the remainder modulo `2 ^ width` that lies
around zero. -/
def lowSigned (v : BitVec 64) (width : Nat) : Int := Int.bmod v.toNat (2 ^ width)

variable (v : BitVec 64) {width scale : Nat}

theorem toInt_setWidth (width : Nat) : (v.setWidth width).toInt = lowSigned v width :=
  BitVec.toInt_setWidth v

theorem le_lowSigned (width : Nat) : -2 ^ (width - 1) ≤ lowSigned v width := by
  rw [← toInt_setWidth]
  exact (v.setWidth width).le_toInt

theorem lowSigned_le (width : Nat) : lowSigned v width ≤ 2 ^ (width - 1) - 1 := by
  rw [← toInt_setWidth]
  exact Int.le_sub_one_of_lt (v.setWidth width).toInt_lt

/-- A number of some bits is a number of more bits. -/
theorem lowSigned_bounds {target : Nat} (h : width ≤ target) :
    -2 ^ (target - 1) ≤ lowSigned v width ∧ lowSigned v width ≤ 2 ^ (target - 1) - 1 := by
  have hpow : (2 : Int) ^ (width - 1) ≤ 2 ^ (target - 1) := by
    exact_mod_cast Nat.pow_le_pow_right (show 0 < 2 by decide) (Nat.sub_le_sub_right h 1)
  have hlower := le_lowSigned v width
  have hupper := lowSigned_le v width
  constructor
  · omega
  · omega

/-! ## Scaling -/

/-- **Shifting a value scales the number of its low bits.** Zeros come in below the field, and what leaves at the top
of the register was above it. -/
theorem lowSigned_shiftLeft (hpos : 0 < width) (hfit : width + scale ≤ 64) :
    lowSigned (v <<< scale) (width + scale) = lowSigned v width * 2 ^ scale := by
  have hregister : ((2 ^ (width + scale) : Nat) : Int) ∣ ((2 ^ 64 : Nat) : Int) :=
    Int.natCast_dvd_natCast.mpr (Nat.pow_dvd_pow 2 hfit)
  have hweight : 2 ^ (width + scale) = 2 ^ scale * 2 ^ width := by rw [Nat.pow_add, Nat.mul_comm]
  have heven : 2 ∣ 2 ^ width := dvd_pow_self 2 (by omega)
  calc lowSigned (v <<< scale) (width + scale)
    _ = Int.bmod (((v.toNat * 2 ^ scale : Nat) : Int) % ((2 ^ 64 : Nat) : Int)) (2 ^ (width + scale)) := by
      rw [lowSigned, BitVec.toNat_shiftLeft, Nat.shiftLeft_eq, Int.natCast_emod]
    _ = Int.bmod ((v.toNat * 2 ^ scale : Nat) : Int) (2 ^ (width + scale)) := by
      -- the register is a whole number of times the modulus, so reducing to it first changes nothing
      rw [← Int.emod_bmod, Int.emod_emod_of_dvd _ hregister, Int.emod_bmod]
    _ = Int.bmod (((2 ^ scale : Nat) : Int) * v.toNat) (2 ^ scale * 2 ^ width) := by
      rw [hweight, Nat.mul_comm, Int.natCast_mul]
    _ = lowSigned v width * 2 ^ scale := by
      rw [Int.mod_bmod_mul_of_pos _ _ (Nat.two_pow_pos scale) heven, Int.mul_comm, lowSigned,
        Int.natCast_pow]
      rfl

/-- The product fits into the register if the scaled field does. -/
theorem lowSigned_mul_bounds (hpos : 0 < width) (hfit : width + scale ≤ 64) :
    -2 ^ 63 ≤ lowSigned v width * 2 ^ scale ∧ lowSigned v width * 2 ^ scale ≤ 2 ^ 63 - 1 := by
  rw [← lowSigned_shiftLeft v hpos hfit]
  exact lowSigned_bounds _ hfit

/-! ## What the machine computes -/

/-- **The machine's extension is the number of the low bits.** -/
theorem signed_toInt (hpos : 0 < width) (hle : width ≤ 64) :
    ∃ e, signed v width = .ok e ∧ e.toInt = lowSigned v width := by
  refine ⟨_, (signed_eq v width).trans (if_pos ⟨hpos, hle⟩), ?_⟩
  rw [Int64.toInt_ofBitVec, BitVec.toInt_signExtend_of_le hle, toInt_setWidth]

/-- With a target that is not too narrow, the machine computes the same number. -/
theorem signedWithin_toInt {target : Nat} (hpos : 0 < width) (hle : width ≤ target) (htarget : target ≤ 64) :
    ∃ r, signedWithin v width target = .ok r ∧ r.toInt = lowSigned v width := by
  rw [signedWithin_eq_signed v hpos hle htarget]
  exact signed_toInt v hpos (Nat.le_trans hle htarget)

/-- **With a scale, the machine computes the product**, reduced to 64 signed bits. -/
theorem signedScaled_toInt (hpos : 0 < width) (hle : width ≤ 64) (hscale : scale < 64) :
    ∃ r, signedScaled v width scale = .ok r ∧
      r.toInt = Int.bmod (lowSigned v width * 2 ^ scale) (2 ^ 64) := by
  refine ⟨_, by rw [signedScaled_eq, if_pos ⟨hpos, hle⟩, if_pos hscale], ?_⟩
  rw [Int64.toInt_ofBitVec, BitVec.toInt_shiftLeft, Nat.shiftLeft_eq, Int.natCast_mul, ← Int.bmod_mul_bmod,
    ← BitVec.toInt_eq_toNat_bmod, BitVec.toInt_signExtend_of_le hle, toInt_setWidth, Int.natCast_pow]
  rfl

/-- **Scaling first and extending afterwards is extending first and scaling afterwards**, as long as the scaled field
fits into the register. -/
theorem scaled_then_extended (hpos : 0 < width) (hfit : width + scale ≤ 64) :
    ∃ r, signedWithin (v <<< scale) (width + scale) 64 = .ok r ∧ signedScaled v width scale = .ok r ∧
      r.toInt = lowSigned v width * 2 ^ scale := by
  obtain ⟨r, hr, r_eq⟩ :=
    signedWithin_toInt (v <<< scale) (show 0 < width + scale by omega) hfit (Nat.le_refl 64)
  obtain ⟨r', hr', r'_eq⟩ :=
    signedScaled_toInt v hpos (show width ≤ 64 by omega) (show scale < 64 by omega)
  obtain ⟨hlower, hupper⟩ := lowSigned_mul_bounds v hpos hfit
  rw [lowSigned_shiftLeft v hpos hfit] at r_eq
  rw [bmod_of_bounds (show 0 < 64 by decide) hlower hupper] at r'_eq
  obtain rfl : r = r' := Int64.toInt_inj.mp (r_eq.trans r'_eq.symm)
  exact ⟨r, hr, hr', r_eq⟩

/-! ## The two groups with nineteen bits of offset -/

/-- The machine decodes the offset of a conditional branch and that of a compare and branch to the displacement of
bits 5 to 23, in the one group by scaling first and in the other by extending first. -/
theorem pcOffset_of_field (w : Word) :
    (w.bit 24 = false → ∃ i, conditional w = .ok (.ok i) ∧ Group.conditional.decode w = .ok i ∧
      i.operands.pcOffset? = some (displacement (w.field 5 19))) ∧
    ∃ i, compare w = .ok (.ok i) ∧ Group.compare.decode w = .ok i ∧
      i.operands.pcOffset? = some (displacement (w.field 5 19)) := by
  refine ⟨?_, ?_⟩
  · intro ho1
    have hdecode := Group.conditional_decode_eq_ok_iff.mpr ⟨ho1, rfl⟩
    exact ⟨_, (conditional_eq w).trans (congrArg Except.ok hdecode), hdecode, rfl⟩
  · exact ⟨_, compare_eq w, rfl, rfl⟩

/-- **The two ways to extend and scale agree.**

* Wherever the scaled field fits into the register, scaling the value and extending, extending and multiplying, and the
  extension with a scale give one number without a fault: the number of the low bits times the power of two, which is
  within the range of the field and fits into 64 signed bits.
* Wherever it does not fit, the extension with a scale is that product reduced to 64 signed bits.
* So a conditional branch with `o1` zero and a compare and branch with the same bits 5 to 23 have the same
  displacement. -/
theorem extension_orders_agree :
    (∀ (v : BitVec 64) (width scale : Nat), 1 ≤ width → width + scale ≤ 64 →
      ∃ extended scaled, signed v width = .ok extended ∧
        signedWithin (v <<< scale) (width + scale) 64 = .ok scaled ∧
        signedScaled v width scale = .ok scaled ∧
        scaled.toInt = extended.toInt * 2 ^ scale ∧
        (-2 ^ 63 ≤ extended.toInt * 2 ^ scale ∧ extended.toInt * 2 ^ scale ≤ 2 ^ 63 - 1) ∧
        extended.toInt = Int.bmod v.toNat (2 ^ width) ∧
        -2 ^ (width - 1) ≤ extended.toInt ∧ extended.toInt ≤ 2 ^ (width - 1) - 1) ∧
    (∀ (v : BitVec 64) (width scale : Nat), 64 < width + scale → width ≤ 64 → scale < 64 →
      ∃ scaled, signedScaled v width scale = .ok scaled ∧
        scaled.toInt = Int.bmod (Int.bmod v.toNat (2 ^ width) * 2 ^ scale) (2 ^ 64)) ∧
    (∀ u w : Word, u.bit 24 = false → u.field 5 19 = w.field 5 19 →
      ∃ i j d, conditional u = .ok (.ok i) ∧ Group.conditional.decode u = .ok i ∧
        compare w = .ok (.ok j) ∧ Group.compare.decode w = .ok j ∧
        i.operands.pcOffset? = some d ∧ j.operands.pcOffset? = some d) := by
  refine ⟨?_, ?_, ?_⟩
  · intro v width scale hpos hfit
    obtain ⟨extended, hextended, extended_eq⟩ := signed_toInt v hpos (show width ≤ 64 by omega)
    obtain ⟨scaled, hwithin, hscaled, scaled_eq⟩ := scaled_then_extended v hpos hfit
    refine ⟨extended, scaled, hextended, hwithin, hscaled, ?_, ?_, extended_eq, ?_, ?_⟩
    · rw [scaled_eq, extended_eq]
    · rw [extended_eq]
      exact lowSigned_mul_bounds v hpos hfit
    · rw [extended_eq]
      exact le_lowSigned v width
    · rw [extended_eq]
      exact lowSigned_le v width
  · intro v width scale hover hle hscale
    exact signedScaled_toInt v (show 0 < width by omega) hle hscale
  · intro u w ho1 hfield
    obtain ⟨i, hi, hi', hd⟩ := (pcOffset_of_field u).1 ho1
    obtain ⟨j, hj, hj', hd'⟩ := (pcOffset_of_field w).2
    rw [hfield] at hd
    exact ⟨i, j, _, hi, hi', hj, hj', hd, hd'⟩

/-- A value with bits set above its field of 19 bits, which holds the lowest number that it can; a product of 65 bits
that is reduced to the lowest number of the register; and the offset of eight bytes in a word of each group. -/
theorem garbage_above_field :
    (∃ extended scaled, signed 0xdeadbeef00040000#64 19 = .ok extended ∧
        signedWithin (0xdeadbeef00040000#64 <<< 2) (19 + 2) 64 = .ok scaled ∧
        signedScaled 0xdeadbeef00040000#64 19 2 = .ok scaled ∧
        scaled.toInt = extended.toInt * 2 ^ 2 ∧ extended.toInt = -2 ^ 18) ∧
      (∃ scaled, signedScaled 3#64 64 63 = .ok scaled ∧ scaled.toInt = -2 ^ 63) ∧
      ∃ i j d, conditional 0x54000040#32 = .ok (.ok i) ∧ Group.conditional.decode 0x54000040#32 = .ok i ∧
        compare 0xb5000041#32 = .ok (.ok j) ∧ Group.compare.decode 0xb5000041#32 = .ok j ∧
        i.operands.pcOffset? = some d ∧ j.operands.pcOffset? = some d := by
  obtain ⟨hfits, hreduced, hoffsets⟩ := extension_orders_agree
  obtain ⟨extended, scaled, hextended, hwithin, hscaled, hproduct, _, hvalue, _, _⟩ :=
    hfits 0xdeadbeef00040000#64 19 2 (by decide) (by decide)
  obtain ⟨product, hproduct', product_eq⟩ := hreduced 3#64 64 63 (by decide) (by decide) (by decide)
  have hlowest : Int.bmod (BitVec.toNat 0xdeadbeef00040000#64) (2 ^ 19) = -2 ^ 18 := by decide
  have hwrapped : Int.bmod (Int.bmod (BitVec.toNat 3#64) (2 ^ 64) * 2 ^ 63) (2 ^ 64) = -2 ^ 63 := by decide
  exact ⟨⟨extended, scaled, hextended, hwithin, hscaled, hproduct, hvalue.trans hlowest⟩,
    ⟨product, hproduct', product_eq.trans hwrapped⟩, hoffsets _ _ (by decide) (by decide)⟩

end BranchWord.Checked
