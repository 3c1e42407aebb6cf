/-
# `BranchWord.Proofs.Displacement` — the displacements that an offset field encodes.

An offset field of `n` bits is a signed number of instructions. Its displacement is four times that number
(`toInt_displacement`), computed in 64 bits without overflow as long as the field leaves two bits for the
scale. So it is a multiple of four between `-2 ^ (n + 1)` and `2 ^ (n + 1) - 4` (`reaches_displacement`),
and fields and such displacements are in bijection (`displacement_eq_iff`): dividing by four gives the field of a
displacement (`ofInt_displacement`), and the displacement of a field (`displacement_ofInt`). The last needs that a
number in the signed range of a field is the remainder that stands for it (`bmod_of_bounds`).
-/
import Mathlib.Algebra.Group.Int.Defs
import Mathlib.Algebra.Group.Nat.Defs
import BranchWord.Word

namespace BranchWord

/-- A displacement within the reach of an offset field of `n` bits. -/
structure Reaches (n : Nat) (d : Int64) : Prop where
  lower : -2 ^ (n + 1) ≤ d.toInt
  upper : d.toInt ≤ 2 ^ (n + 1) - 4
  aligned : 4 ∣ d.toInt

/-- A signed number of `n` bits is the remainder that stands for it. -/
theorem bmod_of_bounds {n : Nat} {x : Int} (hpos : 0 < n) (hlower : -2 ^ (n - 1) ≤ x)
    (hupper : x ≤ 2 ^ (n - 1) - 1) : x.bmod (2 ^ n) = x := by
  -- one of the bits is the sign
  obtain ⟨k, rfl⟩ : ∃ k, n = k + 1 := ⟨n - 1, by omega⟩
  rw [Nat.add_sub_cancel] at hlower hupper
  apply Int.bmod_eq_of_le_mul_two
  · rw [Nat.pow_succ]
    push_cast
    omega
  · rw [Nat.pow_succ]
    push_cast
    omega

/-- **A displacement is four times its field**, read as a signed number. -/
theorem toInt_displacement {n : Nat} (imm : BitVec n) (h : n + 2 ≤ 64) :
    (displacement imm).toInt = 4 * imm.toInt := by
  show ((imm ++ 0b00#2).signExtend 64).toInt = 4 * imm.toInt
  rw [BitVec.toInt_signExtend_of_le h, BitVec.toInt_append_zero]
  rfl

theorem reaches_displacement {n : Nat} (imm : BitVec n) (hpos : 0 < n) (h : n + 2 ≤ 64) :
    Reaches n (displacement imm) := by
  -- one bit of the field is its sign
  obtain ⟨k, rfl⟩ : ∃ k, n = k + 1 := ⟨n - 1, by omega⟩
  have hlower : -2 ^ k ≤ imm.toInt := imm.le_toInt
  have hupper : imm.toInt < 2 ^ k := imm.toInt_lt
  have hpow : (2 : Int) ^ (k + 1 + 1) = 4 * 2 ^ k := by
    rw [Int.pow_succ, Int.pow_succ]
    omega
  have hvalue := toInt_displacement imm h
  refine ⟨?_, ?_, ?_⟩
  · rw [hvalue, hpow]
    omega
  · rw [hvalue, hpow]
    omega
  · rw [hvalue]
    exact Int.dvd_mul_right 4 imm.toInt

/-- The field of a displacement is its number of instructions. -/
theorem ofInt_displacement {n : Nat} (imm : BitVec n) (h : n + 2 ≤ 64) :
    BitVec.ofInt n ((displacement imm).toInt / 4) = imm := by
  rw [toInt_displacement imm h, Int.mul_ediv_cancel_left _ (by decide), BitVec.ofInt_toInt]

/-- **Every displacement within reach has a field**: its number of instructions, cut to the field. -/
theorem displacement_ofInt {n : Nat} {d : Int64} (hpos : 0 < n) (h : n + 2 ≤ 64) (hd : Reaches n d) :
    displacement (BitVec.ofInt n (d.toInt / 4)) = d := by
  obtain ⟨k, rfl⟩ : ∃ k, n = k + 1 := ⟨n - 1, by omega⟩
  obtain ⟨q, hq⟩ : 4 ∣ d.toInt := hd.aligned
  have hlower := hd.lower
  have hupper := hd.upper
  have hpow : (2 : Int) ^ (k + 1 + 1) = 4 * 2 ^ k := by
    rw [Int.pow_succ, Int.pow_succ]
    omega
  have hquot : d.toInt / 4 = q := by omega
  -- within reach the field is wide enough, so cutting the number to it changes nothing
  have hfield : (BitVec.ofInt (k + 1) q).toInt = q := by
    rw [BitVec.toInt_ofInt]
    apply bmod_of_bounds hpos
    · rw [Nat.add_sub_cancel]
      omega
    · rw [Nat.add_sub_cancel]
      omega
  apply Int64.toInt_inj.mp
  rw [hquot, toInt_displacement _ h, hfield, hq]

/-- A field has a given displacement exactly when that is within reach and the field is its number of
instructions. -/
theorem displacement_eq_iff {n : Nat} {imm : BitVec n} {d : Int64} (hpos : 0 < n) (h : n + 2 ≤ 64) :
    displacement imm = d ↔ Reaches n d ∧ imm = BitVec.ofInt n (d.toInt / 4) := by
  constructor
  · rintro rfl
    exact ⟨reaches_displacement imm hpos h, (ofInt_displacement imm h).symm⟩
  · rintro ⟨hreach, rfl⟩
    exact displacement_ofInt hpos h hreach

end BranchWord
