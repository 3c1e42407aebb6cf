/-
# `BranchWord.Proofs.Target` — which addresses a branch can go to.

Four groups have an offset field (`Group.offset?`). Fix an address, a target and every bit of a word outside that
field. Some value of the field gives a branch to the target exactly when the distance from the address, taken as a
signed number of 64 bits, is within the reach of the field, and then one value only.

The distance is a difference in 64 bits, so a target near one end of the address space is within reach of an
address near the other. Nothing about the two ends is special in the proof: adding the displacement to the address
gives the target just when the displacement is the distance (`add_eq_iff`), and fields and displacements within
reach are in bijection (`displacement_eq_iff`).

* `branchTarget_of_decode` — the target of a record is read off the offset field of its word;
* `full_decode_overwrite` — a word keeps its group when its offset field is replaced;
* `branchesTo_iff` — the field that reaches a target, and when there is one;
* `branchTarget_register` — a branch through a register has no target that is known beforehand.
-/
import BranchWord.Proofs.Displacement
import BranchWord.Proofs.Normalization

namespace BranchWord

open Layout

/-! ## Distances -/

/-- The displacement that leads from an address to a target is their distance. -/
theorem add_eq_iff {a t : Address} {d : Int64} : a + d.toBitVec = t ↔ d = Int64.ofBitVec (t - a) := by
  rw [← Int64.toBitVec_inj, Int64.toBitVec_ofBitVec, BitVec.eq_sub_iff_add_eq, BitVec.add_comm]

/-! ## Offset fields -/

/-- The place of an offset field. It lies inside the word. -/
structure OffsetField where
  low : Nat
  width : Nat
  width_pos : 0 < width := by decide
  le_word : low + width ≤ 32 := by decide

/-- The offset field of a group, if it has one. -/
def Group.offset? : Group → Option OffsetField
  | unconditional => some { low := 0, width := 26 }
  | conditional => some { low := 5, width := 19 }
  | compare => some { low := 5, width := 19 }
  | test => some { low := 5, width := 14 }
  | register => none

/-- The full decoder makes of the word a branch from `a` to `t`. -/
def Word.BranchesTo (w : Word) (a t : Address) : Prop :=
  ∃ i, Decoder.full.decode w = .ok i ∧ i.branchTarget a = some t

variable {g : Group} {f : OffsetField} {w : Word} {i : Instruction}

namespace Group

/-- The offset field lies below the bits that the group fixes. -/
theorem offset_le_pattern (hf : g.offset? = some f) : f.low + f.width ≤ g.pattern.low := by
  cases g with
  | conditional | unconditional | compare | test =>
    cases hf
    decide
  | register => cases hf

/-- In the conditional group it lies below `o1`. -/
theorem conditional_offset_le (hf : conditional.offset? = some f) : f.low + f.width ≤ 24 := by
  cases hf
  decide

/-- **Where a branch goes** is read off the offset field. -/
theorem branchTarget_of_decode (hf : g.offset? = some f) (h : g.decode w = .ok i) (a : Address) :
    i.branchTarget a = some (a + (displacement (w.field f.low f.width)).toBitVec) := by
  cases g with
  | conditional =>
    obtain ⟨_, rfl⟩ := conditional_decode_eq_ok_iff.mp h
    cases hf
    rfl
  | unconditional | compare | test =>
    cases h
    cases hf
    rfl
  | register => cases hf

/-- A group with an offset field refuses a word for a set bit `o1` only. -/
theorem exists_decode_of_offset (hf : g.offset? = some f) (ho1 : g = .conditional → w.bit 24 = false) :
    ∃ i, g.decode w = .ok i := by
  cases g with
  | conditional => exact ⟨_, conditional_decode_eq_ok_iff.mpr ⟨ho1 rfl, rfl⟩⟩
  | unconditional | compare | test => exact ⟨_, rfl⟩
  | register => cases hf

/-! ### Replacing the offset field -/

/-- A word stays in its group when its offset field is replaced. -/
theorem matches_overwrite (hf : g.offset? = some f) (hg : g.pattern.Matches w) (imm : BitVec f.width) :
    g.pattern.Matches (w.overwrite f.low imm) :=
  (Word.field_overwrite_of_disjoint imm w (.inr (offset_le_pattern hf))).trans hg

theorem o1_overwrite (hf : g.offset? = some f) (ho1 : g = .conditional → w.bit 24 = false)
    (imm : BitVec f.width) : g = .conditional → (w.overwrite f.low imm).bit 24 = false := by
  rintro rfl
  have hbelow := conditional_offset_le hf
  rw [Word.bit_overwrite_of_not_mem imm w (by omega)]
  exact ho1 rfl

/-- With any value in its offset field a word is a branch, over the displacement of the value. -/
theorem full_decode_overwrite (hf : g.offset? = some f) (hg : g.pattern.Matches w)
    (ho1 : g = .conditional → w.bit 24 = false) (imm : BitVec f.width) :
    ∃ i, Decoder.full.decode (w.overwrite f.low imm) = .ok i ∧
      ∀ a, i.branchTarget a = some (a + (displacement imm).toBitVec) := by
  obtain ⟨i, hi⟩ := exists_decode_of_offset hf (o1_overwrite hf ho1 imm)
  refine ⟨i, ?_, ?_⟩
  · rw [Decoder.full_decode_of_matches (matches_overwrite hf hg imm), hi]
  · intro a
    rw [branchTarget_of_decode hf hi a, Word.field_overwrite_self imm w f.le_word]

/-- **The field that reaches a target** is the distance in instructions, if that is within reach. -/
theorem branchesTo_iff (hf : g.offset? = some f) (hg : g.pattern.Matches w)
    (ho1 : g = .conditional → w.bit 24 = false) (a t : Address) (imm : BitVec f.width) :
    (w.overwrite f.low imm).BranchesTo a t ↔
      Reaches f.width (Int64.ofBitVec (t - a)) ∧ imm = BitVec.ofInt f.width ((t - a).toInt / 4) := by
  have hwidth : f.width + 2 ≤ 64 := by
    have := f.le_word
    omega
  obtain ⟨i, hi, htarget⟩ := full_decode_overwrite hf hg ho1 imm
  calc (w.overwrite f.low imm).BranchesTo a t
    _ ↔ a + (displacement imm).toBitVec = t := by
      simp only [Word.BranchesTo, hi, Except.ok.injEq, exists_eq_left', htarget, Option.some.injEq]
    _ ↔ displacement imm = Int64.ofBitVec (t - a) := add_eq_iff
    _ ↔ _ := displacement_eq_iff f.width_pos hwidth

/-! ## The register group -/

/-- A row of the register group has no relative operand. -/
theorem branchTarget_shape (shape : Indirect.Shape) (rn op4 : BitVec 5) (a : Address) :
    (shape.instruction rn op4).branchTarget a = none := by
  cases shape with
  | jump m | jumpModified m | impliedReturn m | restore => rfl
  | jumpEither zero modified =>
    show Instruction.branchTarget (if op4 = 31#5 then _ else _) a = none
    split
    · rfl
    · rfl
  | returnTo m =>
    show (if rn = 30#5 then {} else Indirect.target rn : Operands).pcOffset?.map _ = none
    split
    · rfl
    · rfl

/-- **A branch through a register has no target that is known beforehand.** -/
theorem branchTarget_register (h : register.decode w = .ok i) (a : Address) : i.branchTarget a = none := by
  obtain ⟨_, form, _, _, rfl⟩ := Indirect.decode_eq_ok_iff.mp h
  exact branchTarget_shape form.shape _ _ a

end Group

/-! ## Reachable targets -/

namespace Decoder

/-- **Which targets a branch can reach.** Take a word of a group with an offset field of `n` bits, in the
conditional group with `o1` zero, and any address and target.

* Some value of the field makes the word a branch from the address to the target exactly when their distance modulo
  2 ^ 64, as a signed number, is a multiple of four between `-2 ^ (n + 1)` and `2 ^ (n + 1) - 4`.
* It is the only one that does.

An accepted word of the register group has no target, wherever it stands. -/
theorem reachable_targets :
    (∀ (g : Group) (f : OffsetField) (w : Word), g.offset? = some f → g.pattern.Matches w →
      (g = .conditional → w.bit 24 = false) → ∀ a t : Address,
        ((∃ imm : BitVec f.width, (w.overwrite f.low imm).BranchesTo a t) ↔
          -2 ^ (f.width + 1) ≤ (t - a).toInt ∧ (t - a).toInt ≤ 2 ^ (f.width + 1) - 4 ∧
            4 ∣ (t - a).toInt) ∧
        ∀ imm imm' : BitVec f.width, (w.overwrite f.low imm).BranchesTo a t →
          (w.overwrite f.low imm').BranchesTo a t → imm = imm') ∧
    ∀ (w : Word) (i : Instruction), Group.register.pattern.Matches w → full.decode w = .ok i →
      ∀ a, i.branchTarget a = none := by
  refine ⟨?_, ?_⟩
  · intro g f w hf hg ho1 a t
    have hiff := Group.branchesTo_iff hf hg ho1 a t
    refine ⟨⟨?_, ?_⟩, ?_⟩
    · rintro ⟨imm, himm⟩
      have hreach := ((hiff imm).mp himm).1
      exact ⟨hreach.lower, hreach.upper, hreach.aligned⟩
    · rintro ⟨hlower, hupper, haligned⟩
      exact ⟨_, (hiff _).mpr ⟨⟨hlower, hupper, haligned⟩, rfl⟩⟩
    · intro imm imm' himm himm'
      rw [((hiff imm).mp himm).2, ((hiff imm').mp himm').2]
  · intro w i hg h
    rw [full_decode_of_matches hg] at h
    exact Group.branchTarget_register h

/-- A test and branch at address 0 reaches back over the end of the address space, and 32768 bytes is as far as it
gets. -/
theorem tbz_reaches_below_zero :
    (∃ imm : BitVec 14, (Word.overwrite 5 imm 0x36000000#32).BranchesTo 0#64 (-32768#64)) ∧
      ¬ ∃ imm : BitVec 14, (Word.overwrite 5 imm 0x36000000#32).BranchesTo 0#64 32768#64 := by
  have hreach := reachable_targets.1 .test _ 0x36000000#32 rfl (by decide) (fun h => nomatch h) 0#64
  refine ⟨(hreach (-32768#64)).1.mpr (by decide), ?_⟩
  intro hforward
  exact absurd ((hreach 32768#64).1.mp hforward) (by decide)

end Decoder

end BranchWord
