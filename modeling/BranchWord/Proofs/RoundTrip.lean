/-
# `BranchWord.Proofs.RoundTrip` — decoding undoes encoding.

Every record that stands for an instruction has a word, and the full decoder reads that word back as the
record it was encoded from (`full_decode_encode`). There is one exception. The encoder gives the modifier of
`blraa` and `blrab` its register number, and the stack pointer has the number 31 that also stands for a
modifier of zero; the decoder looks at that number before it looks at `opc`, so such a call comes back as
`blraaz` or `blrabz` on the same target (`stack_pointer_modifier_lost`).

The proof does not compute words. The full decoder reaches every well-formed record but that exception
(`exists_full_decode`), row by row; what the encoder writes for a decoded record is the canonical form of its
word (`encode?_of_full_decode`), and canonical words decode as the words they stand for.
-/
import BranchWord.Proofs.Encoding
import BranchWord.Proofs.WellFormed

namespace BranchWord

open Layout
open Instruction (indirectWord)

/-! ## The decoder reads what a layout writes -/

namespace Decoder

theorem full_decode_conditional (l : Conditional) : full.decode l.toWord = l.decode := by
  rw [full_decode_of_matches l.matches_toWord]
  show (Conditional.ofWord l.toWord).decode = l.decode
  rw [Conditional.ofWord_toWord]

theorem full_decode_unconditional (l : Unconditional) : full.decode l.toWord = .ok l.decode := by
  rw [full_decode_of_matches l.matches_toWord]
  show Except.ok (Unconditional.ofWord l.toWord).decode = .ok l.decode
  rw [Unconditional.ofWord_toWord]

theorem full_decode_compare (l : Compare) : full.decode l.toWord = .ok l.decode := by
  rw [full_decode_of_matches l.matches_toWord]
  show Except.ok (Compare.ofWord l.toWord).decode = .ok l.decode
  rw [Compare.ofWord_toWord]

theorem full_decode_test (l : Test) : full.decode l.toWord = .ok l.decode := by
  rw [full_decode_of_matches l.matches_toWord]
  show Except.ok (Test.ofWord l.toWord).decode = .ok l.decode
  rw [Test.ofWord_toWord]

theorem full_decode_indirect (l : Indirect) : full.decode l.toWord = l.decode := by
  rw [full_decode_of_matches l.matches_toWord]
  show (Indirect.ofWord l.toWord).decode = l.decode
  rw [Indirect.ofWord_toWord]

/-- Under a row, the word of its fields is the instruction of the row. -/
theorem full_decode_of_row {opc : BitVec 4} {op3 : BitVec 6} {form : Indirect.Form}
    {rn op4 : BitVec 5} (hrow : Indirect.Row opc op3 form) (hadmits : form.Admits rn op4) :
    full.decode (indirectWord opc op3 rn op4) = .ok (form.shape.instruction rn op4) := by
  rw [indirectWord, full_decode_indirect]
  exact Indirect.decode_eq_ok_iff.mpr ⟨rfl, form, hrow, hadmits, rfl⟩

end Decoder

/-! ## The decoder reaches every row -/

/-- A mnemonic out of two is chosen by a flag. -/
theorem exists_flag_of_mem_pair {m no yes : Mnemonic} (h : m ∈ [no, yes]) :
    ∃ flag : Bool, m = if flag then yes else no := by
  simp only [List.mem_cons, List.not_mem_nil, or_false] at h
  rcases h with rfl | rfl
  · exact ⟨false, rfl⟩
  · exact ⟨true, rfl⟩

/-- A displacement within reach has a field. -/
theorem exists_displacement {n : Nat} {d : Int64} (hpos : 0 < n) (h : n + 2 ≤ 64) (hd : Reaches n d) :
    ∃ imm : BitVec n, displacement imm = d :=
  ⟨_, displacement_ofInt hpos h hd⟩

/-- A register that is not the stack pointer is a sized register. -/
theorem Register.sized_is64Bit_number {r : Register} (h : r ≠ .sp) :
    sized r.is64Bit r.number = r := by
  cases r with
  | x n | w n => rfl
  | sp => exact absurd rfl h

/-- What can stand as a modifier has a number, and only the stack pointer has the number 31. -/
theorem Register.exists_modifier {r : Register} (h : r = .sp ∨ ∃ k, k ≠ 31#5 ∧ r = .x k) :
    ∃ n, modifier n = r ∧ (r ≠ .sp → n ≠ 31#5) := by
  rcases h with rfl | ⟨k, hk, rfl⟩
  · exact ⟨31#5, rfl, fun h => absurd rfl h⟩
  · exact ⟨k, if_neg hk, fun _ => hk⟩

/-- A bit number is split into `b5`, which is the size of the tested register, and `b40`. -/
theorem Layout.Test.exists_testedBit {bit : Int64} (is64Bit : Bool) (hlower : 0 ≤ bit.toInt)
    (hupper : bit.toInt ≤ 63) (hsize : 32 ≤ bit.toInt ↔ is64Bit = true) (op : Bool)
    (imm14 : BitVec 14) (rt : RegisterNumber) :
    ∃ b40 : BitVec 5, Int64.ofBitVec
      ((testedBit { b5 := is64Bit, op, b40, imm14, rt }).setWidth 64) = bit := by
  obtain ⟨n, hn⟩ : ∃ n : Nat, bit.toInt = n := ⟨bit.toInt.toNat, by omega⟩
  refine ⟨BitVec.ofNat 5 n, ?_⟩
  apply Int64.toInt_inj.mp
  rw [toInt_testedBit, toNat_testedBit, hn, BitVec.toNat_ofNat]
  cases is64Bit with
  | false =>
    have hsmall : ¬ 32 ≤ bit.toInt := fun h => Bool.noConfusion (hsize.mp h)
    rw [Bool.toNat_false]
    omega
  | true =>
    have hlarge : 32 ≤ bit.toInt := hsize.mpr rfl
    rw [Bool.toNat_true]
    omega

namespace Decoder

/-- A branch to a register, under the row of its mnemonic. -/
theorem exists_full_decode_jump {m : Mnemonic} (n : RegisterNumber)
    (hm : m ∈ [Mnemonic.br, .blr, .braaz, .brabz, .blraaz, .blrabz]) :
    ∃ w, full.decode w =
      .ok { mnemonic := m, operands := { first := .register (.x n) }, category := .branch } := by
  simp only [List.mem_cons, List.not_mem_nil, or_false] at hm
  rcases hm with rfl | rfl | rfl | rfl | rfl | rfl
  · exact ⟨_, full_decode_of_row .br (Indirect.Form.admits_op4 _ n _)⟩
  · exact ⟨_, full_decode_of_row (.blr (.inl rfl)) (Indirect.Form.admits_op4 _ n _)⟩
  · exact ⟨_, full_decode_of_row .braaz (Indirect.Form.admits_op4 _ n _)⟩
  · exact ⟨_, full_decode_of_row .brabz (Indirect.Form.admits_op4 _ n _)⟩
  -- the calls with a modifier of zero share their row with the modified ones
  · exact ⟨_, full_decode_of_row (.blraa (.inl rfl)) (Indirect.Form.admits_none _ n 31#5)⟩
  · exact ⟨_, full_decode_of_row (.blrab (.inl rfl)) (Indirect.Form.admits_none _ n 31#5)⟩

/-- A call with a modifier, as long as the modifier does not have the number 31. -/
theorem full_decode_modifiedCall {op3 : BitVec 6} {zero modified : Mnemonic} {n op4 : RegisterNumber}
    (hrow : Indirect.Row 0b1001#4 op3 { shape := .jumpEither zero modified }) (hop4 : op4 ≠ 31#5) :
    full.decode (indirectWord 0b1001#4 op3 n op4) = .ok {
      mnemonic := modified
      operands := Indirect.targetAndModifier n op4
      category := .branch } := by
  rw [full_decode_of_row hrow (Indirect.Form.admits_none _ n op4)]
  exact congrArg Except.ok (if_neg hop4)

end Decoder

/-! ## The exception -/

/-- The calls whose word stands for another instruction: the modifier is the stack pointer. -/
def Instruction.CallsWithStackPointer (i : Instruction) : Prop :=
  (i.mnemonic = .blraa ∨ i.mnemonic = .blrab) ∧ i.operands.second = .register .sp

instance (i : Instruction) : Decidable i.CallsWithStackPointer :=
  inferInstanceAs (Decidable ((_ ∨ _) ∧ _))

/-- The call on the same target with a modifier of zero. -/
def Instruction.withZeroModifier (i : Instruction) : Instruction :=
  { i with
    mnemonic := match i.mnemonic with
      | .blraa => .blraaz
      | .blrab => .blrabz
      | m => m
    operands := { first := i.operands.first } }

namespace Decoder

theorem exists_full_decode_jumpModified {m : Mnemonic} (n : RegisterNumber) {r : Register}
    (hm : m ∈ [Mnemonic.braa, .brab, .blraa, .blrab]) (hr : r = .sp ∨ ∃ k, k ≠ 31#5 ∧ r = .x k)
    (hsp : ¬ ((m = .blraa ∨ m = .blrab) ∧ r = .sp)) :
    ∃ w, full.decode w = .ok {
      mnemonic := m
      operands := { first := .register (.x n), second := .register r }
      category := .branch } := by
  obtain ⟨op4, rfl, hop4⟩ := Register.exists_modifier hr
  simp only [List.mem_cons, List.not_mem_nil, or_false] at hm
  rcases hm with rfl | rfl | rfl | rfl
  · exact ⟨_, full_decode_of_row .braa (Indirect.Form.admits_none _ n op4)⟩
  · exact ⟨_, full_decode_of_row .brab (Indirect.Form.admits_none _ n op4)⟩
  · have hne : op4 ≠ 31#5 := hop4 fun h => hsp ⟨.inl rfl, h⟩
    exact ⟨_, full_decode_modifiedCall (.blraa (.inr rfl)) hne⟩
  · have hne : op4 ≠ 31#5 := hop4 fun h => hsp ⟨.inr rfl, h⟩
    exact ⟨_, full_decode_modifiedCall (.blrab (.inr rfl)) hne⟩

/-- **The full decoder reaches every instruction** but the calls modified by the stack pointer. -/
theorem exists_full_decode {i : Instruction} (h : i.WellFormed) (hsp : ¬ i.CallsWithStackPointer) :
    ∃ w, full.decode w = .ok i := by
  cases h with
  | unconditional hm hd =>
    obtain ⟨op, rfl⟩ := exists_flag_of_mem_pair hm
    obtain ⟨imm26, rfl⟩ := exists_displacement (by decide) (by decide) hd
    exact ⟨_, full_decode_unconditional { op, imm26 }⟩
  | conditional c hm hd =>
    obtain ⟨o0, rfl⟩ := exists_flag_of_mem_pair hm
    obtain ⟨imm19, rfl⟩ := exists_displacement (by decide) (by decide) hd
    refine ⟨_, (full_decode_conditional { o1 := false, imm19, o0, cond := c.bits }).trans ?_⟩
    simp [Conditional.decode, Condition.ofBits_bits]
  | @compare m r d hm hr hd =>
    obtain ⟨op, rfl⟩ := exists_flag_of_mem_pair hm
    obtain ⟨imm19, rfl⟩ := exists_displacement (by decide) (by decide) hd
    refine ⟨_, (full_decode_compare { sf := r.is64Bit, op, imm19, rt := r.number }).trans ?_⟩
    simp [Compare.decode, Register.sized_is64Bit_number hr]
  | @test m r bit d hm hr hlower hupper hsize hd =>
    obtain ⟨op, rfl⟩ := exists_flag_of_mem_pair hm
    obtain ⟨imm14, rfl⟩ := exists_displacement (by decide) (by decide) hd
    obtain ⟨b40, rfl⟩ := Test.exists_testedBit r.is64Bit hlower hupper hsize op imm14 r.number
    refine ⟨_, (full_decode_test { b5 := r.is64Bit, op, b40, imm14, rt := r.number }).trans ?_⟩
    simp [Test.decode, Register.sized_is64Bit_number hr]
  | jump n hm => exact exists_full_decode_jump n hm
  | jumpModified n hm hr =>
    refine exists_full_decode_jumpModified n hm hr ?_
    rintro ⟨hcall, rfl⟩
    exact hsp ⟨hcall, rfl⟩
  | returnImplied => exact ⟨_, full_decode_of_row .ret (Indirect.Form.admits_op4 _ 30#5 _)⟩
  | @returnTo n hn =>
    refine ⟨_, (full_decode_of_row .ret (Indirect.Form.admits_op4 _ n _)).trans ?_⟩
    simp [Indirect.Shape.instruction, Indirect.target, hn]
  | returnBare hm =>
    simp only [List.mem_cons, List.not_mem_nil, or_false] at hm
    rcases hm with rfl | rfl | rfl | rfl | rfl
    · exact ⟨_, full_decode_of_row .retaa (Indirect.Form.admits_rn_op4 ..)⟩
    · exact ⟨_, full_decode_of_row .retab (Indirect.Form.admits_rn_op4 ..)⟩
    · exact ⟨_, full_decode_of_row .eret (Indirect.Form.admits_rn_op4 ..)⟩
    · exact ⟨_, full_decode_of_row .eretaa (Indirect.Form.admits_rn_op4 ..)⟩
    · exact ⟨_, full_decode_of_row .eretab (Indirect.Form.admits_rn_op4 ..)⟩
  | drps => exact ⟨_, full_decode_of_row (.drps 0#6) (Indirect.Form.admits_none _ 31#5 0#5)⟩

/-! ## Every instruction -/

/-- A well-formed record with the stack pointer as the modifier of a call. -/
theorem eq_of_callsWithStackPointer {i : Instruction} (h : i.WellFormed)
    (hsp : i.CallsWithStackPointer) :
    ∃ (m : Mnemonic) (n : RegisterNumber), (m = .blraa ∨ m = .blrab) ∧ i = {
      mnemonic := m
      operands := { first := .register (.x n), second := .register .sp }
      category := .branch } := by
  obtain ⟨hcall, hsecond⟩ := hsp
  -- only one row has a register in the second slot
  cases h with
  | @jumpModified m n r _ _ =>
    cases hsecond
    exact ⟨m, n, hcall, rfl⟩
  | unconditional | conditional | compare | test | jump | returnImplied | returnTo | returnBare | drps =>
    cases hsecond

/-- **Decoding undoes encoding.** Every well-formed record has a word, with its displacement, registers,
bit number and condition in the fields of its row, and the full decoder reads the record back from it. Only
a call modified by the stack pointer comes back as the call with a modifier of zero. -/
theorem full_decode_encode (i : Instruction) (h : i.WellFormed) :
    ∃ w, i.encode? = some w ∧
      full.decode w = .ok (if i.CallsWithStackPointer then i.withZeroModifier else i) := by
  by_cases hsp : i.CallsWithStackPointer
  · rw [if_pos hsp]
    obtain ⟨m, n, rfl | rfl, rfl⟩ := eq_of_callsWithStackPointer h hsp
    · exact ⟨indirectWord 9 2 n 31, rfl,
        full_decode_of_row (.blraa (.inr rfl)) (Indirect.Form.admits_none _ n 31#5)⟩
    · exact ⟨indirectWord 9 3 n 31, rfl,
        full_decode_of_row (.blrab (.inr rfl)) (Indirect.Form.admits_none _ n 31#5)⟩
  · rw [if_neg hsp]
    obtain ⟨w, hw⟩ := exists_full_decode h hsp
    exact ⟨w.canonical, encode?_of_full_decode hw, (full_decode_canonical w).trans hw⟩

/-- Testing bit 37 of register 3 and branching back as far as the field reaches. -/
theorem farthest_tbnz_decodes_back :
    Instruction.WellFormed {
        mnemonic := .tbnz
        operands := { first := .register (.x 3), second := .immediate 37, third := .pcOffset (-32768) }
        category := .conditionalBranch } ∧
      ∃ w, Instruction.encode? {
          mnemonic := .tbnz
          operands := { first := .register (.x 3), second := .immediate 37, third := .pcOffset (-32768) }
          category := .conditionalBranch } = some w ∧
        full.decode w = .ok {
          mnemonic := .tbnz
          operands := { first := .register (.x 3), second := .immediate 37, third := .pcOffset (-32768) }
          category := .conditionalBranch } := by
  have hreach : Reaches 14 (-32768) := ⟨by decide, by decide, by decide⟩
  have hformed := @Instruction.WellFormed.test .tbnz (.x 3) 37 (-32768) (by decide) (by decide)
    (by decide) (by decide) (by decide) hreach
  exact ⟨hformed, full_decode_encode _ hformed⟩

/-- Decoding does not undo encoding on all rows: `blraa x0, sp` has the word of `blraaz x0` under the
other `opc`, and that is what it is read as. -/
theorem stack_pointer_modifier_lost :
    ¬ ∀ i : Instruction, i.WellFormed → ∃ w, i.encode? = some w ∧ full.decode w = .ok i := by
  intro hback
  let i : Instruction := {
    mnemonic := .blraa
    operands := { first := .register (.x 0), second := .register .sp }
    category := .branch }
  have hencode : i.encode? = some 0xd73f081f#32 := by decide
  have hdecode : full.decode 0xd73f081f#32 = .ok i.withZeroModifier := rfl
  obtain ⟨w, hw, hi⟩ := hback i (.jumpModified 0 (by decide) (.inl rfl))
  rw [hencode] at hw
  cases hw
  rw [hdecode] at hi
  exact absurd (Except.ok.inj hi) (by decide)

end Decoder

end BranchWord
