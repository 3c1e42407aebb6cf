/-
# `BranchWord.Proofs.Checked.Arithmetic` — the checked helpers fault on their own conditions only.

A helper of `BranchWord.Checked.Arithmetic` opens with the conditions that its caller must meet and goes on
through shifts and a subtraction, each of which could fault as well: the amounts `32 - width` and `64 - width`
reach the width of the shifted value as soon as the field has no bits. One equation for each helper says that
they never do. It is the result where the opening conditions hold, and the fault of the first one that does not
hold everywhere else:

* `field_eq`, `bit_eq` — what `Word.field` and `Word.bit` read;
* `signedScaled_eq`, `signed_eq`, `signedWithin_eq` — the low bits of the value, extended with their sign.

An offset is scaled first and extended afterwards, or the other way round. Both ways give the displacement of the
offset field without a fault (`scale_then_extend`, `extend_then_scale`).
-/
import BranchWord.Checked.Arithmetic
import BranchWord.Proofs.Displacement

namespace BranchWord.Checked

/-! ## Primitives whose condition holds -/

theorem sub_of_le {a b : Nat} (h : b ≤ a) : sub a b = .ok (a - b) := if_pos h

variable {n amount : Nat} (v : BitVec n)

theorem shiftLeft_of_lt (h : amount < n) : shiftLeft v amount = .ok (v <<< amount) := if_pos h

theorem shiftRight_of_lt (h : amount < n) : shiftRight v amount = .ok (v >>> amount) := if_pos h

theorem signedShiftRight_of_lt (h : amount < n) :
    signedShiftRight v amount = .ok (v.sshiftRight amount) := if_pos h

/-- A product is what it should be if that fits into 64 bits. -/
theorem mul_of_toInt {a b d : Int64} (h : d.toInt = a.toInt * b.toInt) : mul a b = .ok d := by
  have hd : a * b = d := by
    apply Int64.toInt_inj.mp
    rw [Int64.toInt_mul, ← h]
    exact d.toInt_bmod
  rw [mul, hd, if_pos h]

/-! ## Fields -/

/-- Shifted down to bit 0 and masked to its width, a field is what `Word.field` reads. -/
theorem shift_and_mask (w : Word) {low width : Nat} (h : low + width ≤ 32) :
    w >>> low &&& BitVec.allOnes 32 >>> (32 - width) = (w.field low width).setWidth 32 := by
  apply BitVec.eq_of_getLsbD_eq
  intro i hi
  have hmask : 32 - width + i < 32 ↔ i < width := by omega
  simp only [BitVec.getLsbD_and, BitVec.getLsbD_ushiftRight, BitVec.getLsbD_allOnes,
    BitVec.getLsbD_setWidth, Word.getLsbD_field, hmask, hi, decide_true, Bool.true_and]
  rw [Bool.and_comm]

/-- **A field is read wherever it fits into the word**, the field of no bits and the whole word among them. -/
theorem field_eq (w : Word) (low width : Nat) :
    field w low width =
      if low + width ≤ 32 then .ok ((w.field low width).setWidth 32)
      else .error .fieldOutsideWord := by
  unfold field
  by_cases h : low + width ≤ 32
  · rw [if_pos h, require_bind (by simpa using h)]
    by_cases hzero : width = 0
    · subst hzero
      simp [BitVec.of_length_zero]
    · -- from one bit on, both amounts stay below 32
      have hlow : low < 32 := by omega
      have hmask : 32 - width < 32 := by omega
      rw [if_neg hzero, shiftRight_of_lt w hlow, sub_of_le (by omega)]
      simp only [ok_bind]
      rw [shiftRight_of_lt _ hmask, ok_bind, shift_and_mask w h]
      rfl
  · rw [if_neg h, require_bind_fault (by simpa using h)]

/-- **A bit is read wherever the word has one.** -/
theorem bit_eq (w : Word) (n : Nat) :
    bit w n = if n < 32 then .ok (w.bit n) else .error .bitOutsideWord := by
  unfold bit
  by_cases h : n < 32
  · have hone : decide (w >>> n &&& 1#32 = 1#32) = w.bit n := by
      rw [BitVec.and_one_eq_setWidth_ofBool_getLsbD, BitVec.getLsbD_ushiftRight, Nat.add_zero]
      show _ = w.getLsbD n
      cases w.getLsbD n <;> decide
    rw [if_pos h, require_bind (by simpa using h), shiftRight_of_lt w h, ok_bind]
    exact congrArg Except.ok hone
  · rw [if_neg h, require_bind_fault (by simpa using h)]

/-! ## Sign extension -/

/-- Shifted to the top of the register and back with the sign, the low bits of a value are extended. -/
theorem extend_by_shifts (v : BitVec 64) {width : Nat} (hpos : 0 < width) (h : width ≤ 64) :
    (v <<< (64 - width)).sshiftRight (64 - width) = (v.setWidth width).signExtend 64 := by
  have hsign : (v <<< (64 - width)).msb = (v.setWidth width).msb := by
    have htop : 64 - 1 - (64 - width) = width - 1 := by omega
    have hout : ¬ 64 - 1 < 64 - width := by omega
    rw [BitVec.msb_eq_getLsbD_last, BitVec.getLsbD_shiftLeft, BitVec.msb_setWidth]
    simp [hpos, htop, hout]
  apply BitVec.eq_of_getLsbD_eq
  intro i hi
  have hin : ¬ 64 ≤ i := by omega
  have hfield : 64 - width + i < 64 ↔ i < width := by omega
  rw [BitVec.getLsbD_sshiftRight, BitVec.getLsbD_signExtend, hsign]
  by_cases hiw : i < width
  · have hback : 64 - width + i - (64 - width) = i := by omega
    have hout : ¬ 64 - width + i < 64 - width := by omega
    rw [if_pos (hfield.mpr hiw), if_pos hiw, BitVec.getLsbD_shiftLeft, BitVec.getLsbD_setWidth, hback]
    simp only [hi, hin, hiw, hout, hfield, decide_true, decide_false, Bool.not_false, Bool.true_and]
  · simp [hi, hin, hiw, hfield]

/-- **The low bits of a value are extended and scaled** for every width of the register and every scale below
it. -/
theorem signedScaled_eq (v : BitVec 64) (width scale : Nat) :
    signedScaled v width scale =
      if 0 < width ∧ width ≤ 64 then
        if scale < 64 then .ok (Int64.ofBitVec ((v.setWidth width).signExtend 64 <<< scale))
        else .error .scaleOutOfRange
      else .error .widthOutOfRange := by
  unfold signedScaled
  by_cases hwidth : 0 < width ∧ width ≤ 64
  · rw [if_pos hwidth, require_bind (by simpa using hwidth)]
    obtain ⟨hpos, hle⟩ := hwidth
    by_cases hscale : scale < 64
    · have hunused : 64 - width < 64 := by omega
      rw [if_pos hscale, require_bind (by simpa using hscale), sub_of_le hle, ok_bind,
        shiftLeft_of_lt v hunused, ok_bind, signedShiftRight_of_lt _ hunused, ok_bind,
        extend_by_shifts v hpos hle]
      rfl
    · rw [if_neg hscale, require_bind_fault (by simpa using hscale)]
  · rw [if_neg hwidth, require_bind_fault (by simpa using hwidth)]

/-- Without a scale, only the width matters. -/
theorem signed_eq (v : BitVec 64) (width : Nat) :
    signed v width =
      if 0 < width ∧ width ≤ 64 then .ok (Int64.ofBitVec ((v.setWidth width).signExtend 64))
      else .error .widthOutOfRange := by
  unfold signed
  rw [signedScaled_eq, if_pos (show 0 < 64 by decide), BitVec.shiftLeft_zero]

/-- The order of the two widths is looked at first, and a width of no bits afterwards. -/
theorem signedWithin_eq (v : BitVec 64) (width target : Nat) :
    signedWithin v width target =
      if width ≤ target ∧ target ≤ 64 then
        if 0 < width then .ok (Int64.ofBitVec ((v.setWidth width).signExtend 64))
        else .error .widthOutOfRange
      else .error .widthsOutOfOrder := by
  unfold signedWithin
  by_cases horder : width ≤ target ∧ target ≤ 64
  · have hle : width ≤ 64 := Nat.le_trans horder.1 horder.2
    rw [if_pos horder, require_bind (by simpa using horder)]
    show signed v width = _
    simp [signed_eq, hle]
  · rw [if_neg horder, require_bind_fault (by simpa using horder)]

/-- A target that is not too narrow changes nothing. -/
theorem signedWithin_eq_signed (v : BitVec 64) {width target : Nat} (hpos : 0 < width) (hle : width ≤ target)
    (htarget : target ≤ 64) : signedWithin v width target = signed v width := by
  have hwidth : width ≤ 64 := Nat.le_trans hle htarget
  rw [signedWithin_eq, if_pos ⟨hle, htarget⟩, if_pos hpos, signed_eq, if_pos ⟨hpos, hwidth⟩]

/-! ## Offsets -/

/-- A field read into a word and then into a register is the field in the register. -/
theorem setWidth_register (imm : BitVec n) (h : n ≤ 32) :
    (imm.setWidth 32).setWidth 64 = imm.setWidth 64 :=
  BitVec.setWidth_setWidth (by omega)

/-- **Scaled first and extended afterwards**, an offset field is its displacement. -/
theorem scale_then_extend (imm : BitVec n) (h : n ≤ 32) :
    signedWithin ((imm.setWidth 32).setWidth 64 <<< 2) (n + 2) 64 = .ok (displacement imm) := by
  have hfield : (imm.setWidth 64 <<< 2).setWidth (n + 2) = imm ++ 0b00#2 := by
    apply BitVec.eq_of_getLsbD_eq
    intro i hi
    have hreg : i < 64 := by omega
    have hoff : i - 2 < 64 := by omega
    rw [BitVec.getLsbD_setWidth, BitVec.getLsbD_shiftLeft, BitVec.getLsbD_setWidth,
      BitVec.getLsbD_append]
    by_cases hlow : i < 2
    · simp [hi, hlow]
    · simp [hi, hreg, hoff, hlow]
  have horder : n + 2 ≤ 64 ∧ 64 ≤ 64 := by omega
  rw [setWidth_register imm h, signedWithin_eq, if_pos horder, if_pos (Nat.succ_pos _), hfield]
  rfl

/-- **Extended first and scaled afterwards**, it is the same: the product fits into the register. -/
theorem extend_then_scale (imm : BitVec n) (hpos : 0 < n) (h : n ≤ 32) :
    ∃ extended, signed ((imm.setWidth 32).setWidth 64) n = .ok extended ∧
      mul extended 4 = .ok (displacement imm) := by
  have hle : n ≤ 64 := by omega
  refine ⟨Int64.ofBitVec (imm.signExtend 64), ?_, ?_⟩
  · rw [setWidth_register imm h, signed_eq, if_pos ⟨hpos, hle⟩, BitVec.setWidth_setWidth_of_le _ hle,
      BitVec.setWidth_eq]
  · apply mul_of_toInt
    rw [toInt_displacement imm (by omega), Int64.toInt_ofBitVec, BitVec.toInt_signExtend_of_le hle]
    show 4 * imm.toInt = imm.toInt * 4
    omega

end BranchWord.Checked
