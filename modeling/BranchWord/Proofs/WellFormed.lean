/-
# `BranchWord.Proofs.WellFormed` — the shape of a decoded record.

A record has room for many combinations that no instruction has: a condition on a call, a return with an
offset, a 32-bit register as the target of a branch. `Instruction.WellFormed` lists the combinations that
instructions do have, one constructor for each row of the instruction set: the mnemonics of the row, the
category, whether there is a condition, and what is in the operand slots, which are filled from the first
on and empty after the last operand.

Every place that builds a record is shown to build one of the rows (`Group.decode_wellFormed`); a feature
that is switched off only takes records away, so the same holds of every decoder.
-/
import BranchWord.Proofs.Decoding
import BranchWord.Proofs.Displacement

namespace BranchWord

open Layout

/-! ## The rows of the instruction set -/

/-- **The records that stand for an instruction**, by row. Slots that a row does not name are empty. -/
inductive Instruction.WellFormed : Instruction → Prop
  /-- `b` and `bl` with 26 bits of offset -/
  | unconditional {m : Mnemonic} {d : Int64} : m ∈ [Mnemonic.b, .bl] → Reaches 26 d →
      WellFormed { mnemonic := m, operands := { first := .pcOffset d }, category := .branch }
  /-- `b` and `bc` under a condition -/
  | conditional {m : Mnemonic} {d : Int64} (c : Condition) : m ∈ [Mnemonic.b, .bc] → Reaches 19 d →
      WellFormed {
        mnemonic := m
        condition := some c
        operands := { first := .pcOffset d }
        category := .conditionalBranch }
  /-- `cbz` and `cbnz`, on any register but the stack pointer -/
  | compare {m : Mnemonic} {r : Register} {d : Int64} : m ∈ [Mnemonic.cbz, .cbnz] → r ≠ .sp →
      Reaches 19 d →
      WellFormed {
        mnemonic := m
        operands := { first := .register r, second := .pcOffset d }
        category := .conditionalBranch }
  /-- `tbz` and `tbnz`: bits 0 to 31 of a 32-bit register, bits 32 to 63 of a 64-bit one -/
  | test {m : Mnemonic} {r : Register} {bit d : Int64} : m ∈ [Mnemonic.tbz, .tbnz] → r ≠ .sp →
      0 ≤ bit.toInt → bit.toInt ≤ 63 → (32 ≤ bit.toInt ↔ r.is64Bit = true) → Reaches 14 d →
      WellFormed {
        mnemonic := m
        operands := { first := .register r, second := .immediate bit, third := .pcOffset d }
        category := .conditionalBranch }
  /-- branches to a 64-bit register, the zero register included -/
  | jump {m : Mnemonic} (n : RegisterNumber) :
      m ∈ [Mnemonic.br, .blr, .braaz, .brabz, .blraaz, .blrabz] →
      WellFormed { mnemonic := m, operands := { first := .register (.x n) }, category := .branch }
  /-- branches with a modifier, which may be the stack pointer and is never the zero register -/
  | jumpModified {m : Mnemonic} (n : RegisterNumber) {r : Register} :
      m ∈ [Mnemonic.braa, .brab, .blraa, .blrab] → (r = .sp ∨ ∃ k, k ≠ 31#5 ∧ r = .x k) →
      WellFormed {
        mnemonic := m
        operands := { first := .register (.x n), second := .register r }
        category := .branch }
  /-- `ret` to register 30, which stays implied -/
  | returnImplied : WellFormed { mnemonic := .ret, category := .ret }
  /-- `ret` to any other 64-bit register, the zero register included -/
  | returnTo {n : RegisterNumber} : n ≠ 30#5 →
      WellFormed { mnemonic := .ret, operands := { first := .register (.x n) }, category := .ret }
  /-- the returns that take no operand -/
  | returnBare {m : Mnemonic} : m ∈ [Mnemonic.retaa, .retab, .eret, .eretaa, .eretab] →
      WellFormed { mnemonic := m, category := .ret }
  /-- the debug restore -/
  | drps : WellFormed { mnemonic := .drps, category := .unspecified }

/-! ## Operand slots are filled from the first on -/

namespace Instruction.WellFormed

variable {i : Instruction}

/-- There are no gaps: counting up to the first empty slot counts every operand. -/
theorem count_eq (h : i.WellFormed) :
    i.operands.count = (i.operands.toList.filter (fun op => op ≠ .nothing)).length := by
  cases h <;> rfl

/-- A displacement is the last operand. -/
theorem pcOffset_last (h : i.WellFormed) {k : Nat} {d : Int64}
    (hk : i.operands.toList[k]? = some (.pcOffset d)) : k + 1 = i.operands.count := by
  have hlt : k < 3 := (List.getElem?_eq_some_iff.mp hk).1
  have hslot : k = 0 ∨ k = 1 ∨ k = 2 := by omega
  -- slot by slot and row by row, either the slot holds something else or it is the last one
  rcases hslot with rfl | rfl | rfl <;> cases h <;> first | rfl | cases hk

end Instruction.WellFormed

/-! ## Every group builds well-formed records -/

/-- A sized register is never the stack pointer. -/
theorem Register.sized_ne_sp (is64Bit : Bool) (n : RegisterNumber) :
    Register.sized is64Bit n ≠ .sp := by
  cases is64Bit <;> exact fun h => Register.noConfusion h

/-- What a modifier field can name. -/
theorem Register.modifier_cases (n : RegisterNumber) :
    Register.modifier n = .sp ∨ ∃ k, k ≠ 31#5 ∧ Register.modifier n = .x k := by
  unfold modifier
  split
  · exact .inl rfl
  next h => exact .inr ⟨n, h, rfl⟩

/-- The tested bit as a number: bit 5 of it is `b5`. -/
theorem Layout.Test.toNat_testedBit (l : Test) :
    l.testedBit.toNat = l.b5.toNat * 32 + l.b40.toNat := by
  unfold testedBit
  rw [BitVec.toNat_append, Nat.shiftLeft_eq, ← Nat.shiftLeft_eq, ← Nat.shiftLeft_add_eq_or_of_lt l.b40.isLt,
    Nat.shiftLeft_eq, BitVec.toNat_ofBool]

/-- The tested bit as an operand is the same number. -/
theorem Layout.Test.toInt_testedBit (l : Test) :
    (Int64.ofBitVec (l.testedBit.setWidth 64)).toInt = l.testedBit.toNat := by
  have hlt : l.testedBit.toNat < 64 := l.testedBit.isLt
  rw [Int64.toInt_ofBitVec, BitVec.toInt_eq_toNat_of_lt, BitVec.toNat_setWidth_of_le (by decide)]
  rw [BitVec.toNat_setWidth_of_le (by decide)]
  omega

/-- The tested bit exists in the register that is tested: bits from 32 on are those of `b5`. -/
theorem Layout.Test.testedBit_bounds (l : Test) {bit : Int64}
    (hbit : bit = Int64.ofBitVec (l.testedBit.setWidth 64)) :
    0 ≤ bit.toInt ∧ bit.toInt ≤ 63 ∧
      (32 ≤ bit.toInt ↔ (Register.sized l.b5 l.rt).is64Bit = true) := by
  have hlow : l.b40.toNat < 32 := l.b40.isLt
  rw [hbit, l.toInt_testedBit, l.toNat_testedBit, Register.is64Bit_sized]
  cases l.b5 with
  | false =>
    rw [Bool.toNat_false]
    refine ⟨by omega, by omega, ?_⟩
    simp only [Bool.false_eq_true, iff_false]
    omega
  | true =>
    rw [Bool.toNat_true]
    refine ⟨by omega, by omega, ?_⟩
    simp only [iff_true]
    omega

namespace Group

theorem conditionalRecord_wellFormed (w : Word) : (conditionalRecord w).WellFormed :=
  .conditional _ (ite_mem_pair ..) (reaches_displacement _ (by decide) (by decide))

theorem unconditional_wellFormed (l : Unconditional) : l.decode.WellFormed :=
  .unconditional (ite_mem_pair ..) (reaches_displacement _ (by decide) (by decide))

theorem compare_wellFormed (l : Compare) : l.decode.WellFormed :=
  .compare (ite_mem_pair ..) (Register.sized_ne_sp _ _)
    (reaches_displacement _ (by decide) (by decide))

theorem test_wellFormed (l : Test) : l.decode.WellFormed := by
  obtain ⟨hlower, hupper, hsize⟩ := l.testedBit_bounds rfl
  exact .test (ite_mem_pair ..) (Register.sized_ne_sp _ _) hlower hupper hsize
    (reaches_displacement _ (by decide) (by decide))

/-- **Every row of the register group builds a well-formed record**, whatever the last two fields hold. -/
theorem row_wellFormed {opc : BitVec 4} {op3 : BitVec 6} {form : Indirect.Form}
    (hrow : Indirect.Row opc op3 form) (rn op4 : BitVec 5) :
    (form.shape.instruction rn op4).WellFormed := by
  cases hrow with
  | br | braaz | brabz | blr => exact .jump rn (by decide)
  | braa | brab => exact .jumpModified rn (by decide) (Register.modifier_cases op4)
  | blraa | blrab =>
    -- one row holds two instructions: a modifier of zero is written as 31 in `op4`
    show (if op4 = 31#5 then _ else _ : Instruction).WellFormed
    split
    · exact .jump rn (by decide)
    · exact .jumpModified rn (by decide) (Register.modifier_cases op4)
  | ret =>
    by_cases hrn : rn = 30#5
    · subst hrn
      exact .returnImplied
    · rw [Indirect.Shape.instruction, if_neg hrn]
      exact .returnTo hrn
  | retaa | retab | eret | eretaa | eretab => exact .returnBare (by decide)
  | drps => exact .drps

/-- **Every group builds well-formed records.** -/
theorem decode_wellFormed {g : Group} {w : Word} {i : Instruction} (h : g.decode w = .ok i) :
    i.WellFormed := by
  cases g with
  | conditional =>
    obtain ⟨_, rfl⟩ := conditional_decode_eq_ok_iff.mp h
    exact conditionalRecord_wellFormed w
  | unconditional =>
    cases h
    exact unconditional_wellFormed _
  | compare =>
    cases h
    exact compare_wellFormed _
  | test =>
    cases h
    exact test_wellFormed _
  | register =>
    obtain ⟨_, form, hrow, _, rfl⟩ := Indirect.decode_eq_ok_iff.mp h
    exact row_wellFormed hrow _ _

end Group

/-! ## Every decoder -/

/-- **The shape of a decoded record.** Whatever the decoder and the word, an accepted word gives a record
of one of the rows; its operands stand in the first slots without a gap, and a displacement is the last of
them. -/
theorem decoded_wellFormed (d : Decoder) (w : Word) (i : Instruction) (h : d.decode w = .ok i) :
    i.WellFormed ∧
      i.operands.count = (i.operands.toList.filter (fun op => op ≠ .nothing)).length ∧
      ∀ (k : Nat) (offset : Int64),
        i.operands.toList[k]? = some (.pcOffset offset) → k + 1 = i.operands.count := by
  obtain ⟨g, _, _, hg, _⟩ := Decoder.decode_eq_ok_iff.mp h
  have hi : i.WellFormed := Group.decode_wellFormed hg
  exact ⟨hi, hi.count_eq, fun k offset hk => hi.pcOffset_last hk⟩

/-- Testing bit 37 of register 3 uses all three slots; the decoder without features has it too. -/
theorem baseline_tbz_wellFormed :
    Decoder.baseline.decode 0xb6280043#32 = .ok {
        mnemonic := .tbz
        operands := { first := .register (.x 3#5), second := .immediate 37, third := .pcOffset 8 }
        category := .conditionalBranch } ∧
      Instruction.WellFormed {
        mnemonic := .tbz
        operands := { first := .register (.x 3#5), second := .immediate 37, third := .pcOffset 8 }
        category := .conditionalBranch } :=
  ⟨rfl, (decoded_wellFormed Decoder.baseline 0xb6280043#32 _ rfl).1⟩

end BranchWord
