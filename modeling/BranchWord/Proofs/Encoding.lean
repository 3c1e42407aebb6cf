/-
# `BranchWord.Proofs.Encoding` — encoding undoes decoding, up to the bits that decoding ignores.

Decoding reads almost every bit of an accepted word into the record. Two rows of the register group do not:
`drps` takes any `op3`, `Rn` and `op4`, and the calls have one table under two values of `opc`. So an accepted
word is not determined by its record, but its canonical form is: the word with the ignored bits put to the
values that the encoder writes (`Word.canonical`). Encoding a decoded record gives that form
(`encode?_of_full_decode`).

The proof goes row by row. A group with an offset has one lemma, `encode?_decode`, about its layout; in the
register group `encode?_instruction` has a case for each row. None of this depends on where the fields lie; the words
as numbers are in `toWord_eq` of each layout and, for the register group, in `Instruction.indirectWord_eq`.
-/
import BranchWord.Encoder
import BranchWord.Proofs.Decoding
import BranchWord.Proofs.Displacement
import BranchWord.Proofs.Layouts

namespace BranchWord

open Layout

/-! ## Words by their base -/

/-- The words that the rows of the register group are written to. -/
theorem Instruction.indirectWord_eq (opc : BitVec 4) (op3 : BitVec 6) (rn op4 : BitVec 5) :
    indirectWord opc op3 rn op4 = 0xd61f0000#32 ||| opc.setWidth 32 <<< 21 ||| op3.setWidth 32 <<< 10 |||
      rn.setWidth 32 <<< 5 ||| op4.setWidth 32 :=
  Indirect.toWord_eq rfl

/-! ## Operands give back their fields -/

theorem offsetField?_displacement {n : Nat} (imm : BitVec n) (h : n + 2 ≤ 64) :
    offsetField? n (displacement imm) = some imm := by
  unfold offsetField?
  rw [ofInt_displacement imm h]
  exact if_pos rfl

theorem Register.modifierNumber?_modifier (n : RegisterNumber) :
    (modifier n).modifierNumber? = some n := by
  unfold modifier
  split
  next h =>
    rw [h]
    rfl
  next h => exact if_neg h

/-- A bit number has `b40` in its lower five bits. -/
theorem extractLsb'_bitNumber (b5 : Bool) (b40 : BitVec 5) :
    ((BitVec.ofBool b5 ++ b40).setWidth 64).extractLsb' 0 5 = b40 := by
  apply BitVec.eq_of_getLsbD_eq
  intro i hi
  have hin : i < 64 := by omega
  rw [BitVec.getLsbD_extractLsb', BitVec.getLsbD_setWidth, BitVec.getLsbD_append, Nat.zero_add, if_pos hi]
  simp only [hi, hin, decide_true, Bool.true_and]

/-! ## The groups with an offset -/

namespace Layout

theorem Conditional.encode?_decode {l : Conditional} {i : Instruction} (h : l.decode = .ok i) :
    i.encode? = some l.toWord := by
  obtain ⟨o1, imm19, o0, cond⟩ := l
  unfold decode at h
  split at h
  · cases h
  next ho1 =>
    cases h
    have hfield := offsetField?_displacement imm19 (by decide)
    have ho1 : o1 = false := Bool.eq_false_iff.mpr ho1
    subst ho1
    cases o0 <;>
      simp [Instruction.encode?, Instruction.conditionalWord?, hfield, Condition.bits_ofBits]

theorem Unconditional.encode?_decode (l : Unconditional) : l.decode.encode? = some l.toWord := by
  obtain ⟨op, imm26⟩ := l
  have hfield := offsetField?_displacement imm26 (by decide)
  cases op <;> simp [Instruction.encode?, Instruction.unconditionalWord?, decode, hfield]

theorem Compare.encode?_decode (l : Compare) : l.decode.encode? = some l.toWord := by
  obtain ⟨sf, op, imm19, rt⟩ := l
  have hfield := offsetField?_displacement imm19 (by decide)
  have hsp : Register.sized sf rt ≠ .sp := by cases sf <;> exact fun h => Register.noConfusion h
  cases op <;>
    simp [Instruction.encode?, Instruction.compareWord?, decode, hfield, hsp, Register.is64Bit_sized,
      Register.number_sized]

theorem Test.encode?_decode (l : Test) : l.decode.encode? = some l.toWord := by
  obtain ⟨b5, op, b40, imm14, rt⟩ := l
  have hfield := offsetField?_displacement imm14 (by decide)
  have hsp : Register.sized b5 rt ≠ .sp := by cases b5 <;> exact fun h => Register.noConfusion h
  have hbit := extractLsb'_bitNumber b5 b40
  cases op <;>
    simp [Instruction.encode?, Instruction.testWord?, decode, hfield, hsp, hbit, Register.is64Bit_sized,
      Register.number_sized, testedBit]

end Layout

/-! ## The register group -/

namespace Layout.Indirect

instance (opc : BitVec 4) : Decidable (IsCall opc) := inferInstanceAs (Decidable (_ ∨ _))

/-- The `opc` that the encoder writes for a call: the upper one if there is a modifier register. -/
def callOpc (op3 : BitVec 6) (op4 : BitVec 5) : BitVec 4 :=
  if op3 = 0#6 ∨ op4 = 31#5 then 0b0001#4 else 0b1001#4

theorem isCall_callOpc (op3 : BitVec 6) (op4 : BitVec 5) : IsCall (callOpc op3 op4) := by
  unfold callOpc
  split
  · exact .inl rfl
  · exact .inr rfl

/-- The fields with those that decoding ignores put to what the encoder writes. -/
def canonical (l : Indirect) : Indirect :=
  if l.opc = 0b0101#4 then
    { l with op3 := 0#6, rn := 31#5, op4 := 0#5 }
  else if IsCall l.opc then
    { l with opc := callOpc l.op3 l.op4 }
  else l

/-- Outside the debug restore and the calls, no field is ignored. -/
theorem canonical_eq_self {l : Indirect} (hrestore : l.opc ≠ 0b0101#4) (hcall : ¬ IsCall l.opc) :
    l.canonical = l := by
  rw [canonical, if_neg hrestore, if_neg hcall]

theorem canonical_of_restore {l : Indirect} (h : l.opc = 0b0101#4) :
    l.canonical = { l with op3 := 0#6, rn := 31#5, op4 := 0#5 } := by
  rw [canonical, if_pos h]

theorem canonical_of_isCall {l : Indirect} (h : IsCall l.opc) :
    l.canonical = { l with opc := callOpc l.op3 l.op4 } := by
  have hrestore : l.opc ≠ 0b0101#4 := by
    rcases h with h | h <;> rw [h] <;> decide
  rw [canonical, if_neg hrestore, if_pos h]

/-- **Encoding the instruction of a row** gives the canonical fields. -/
theorem encode?_instruction {l : Indirect} {form : Form} (hop2 : l.op2 = 31#5)
    (hrow : Row l.opc l.op3 form) (hadmits : form.Admits l.rn l.op4) :
    (form.shape.instruction l.rn l.op4).encode? = some l.canonical.toWord := by
  obtain ⟨opc, op2, op3, rn, op4⟩ := l
  subst hop2
  cases hrow with
  | br | braaz | brabz =>
    obtain rfl := hadmits.op4 _ rfl
    rfl
  | braa | brab =>
    have hop4 := Register.modifierNumber?_modifier op4
    simp only [Instruction.encode?, Instruction.modifiedWord?, Shape.instruction, targetAndModifier, hop4]
    rfl
  | blr hopc =>
    obtain rfl := hadmits.op4 _ rfl
    rw [canonical_of_isCall hopc]
    rfl
  | blraa hopc | blrab hopc =>
    rw [canonical_of_isCall hopc]
    by_cases h : op4 = 31#5
    · subst h
      rfl
    · have hop4 := Register.modifierNumber?_modifier op4
      simp [Instruction.encode?, Instruction.modifiedWord?, Shape.instruction, targetAndModifier, hop4, h,
        callOpc, Instruction.indirectWord]
  | ret =>
    obtain rfl := hadmits.op4 _ rfl
    by_cases h : rn = 30#5
    · subst h
      rfl
    · rw [Shape.instruction, if_neg h]
      exact if_neg h
  | retaa | retab | eret | eretaa | eretab =>
    obtain rfl := hadmits.rn _ rfl
    obtain rfl := hadmits.op4 _ rfl
    rfl
  | drps => rfl

/-- **The ignored fields are ignored**: fields and their canonical form decode alike, errors included. -/
theorem decode_canonical (l : Indirect) : l.canonical.decode = l.decode := by
  by_cases hrestore : l.opc = 0b0101#4
  · rw [canonical_of_restore hrestore]
    rw [decode_eq_tables, decode_eq_tables]
    simp only [hrestore]
    rfl
  by_cases hcall : IsCall l.opc
  · have hwritten := isCall_callOpc l.op3 l.op4
    rw [canonical_of_isCall hcall]
    rw [decode_eq_tables, decode_eq_tables]
    simp only [table?_of_isCall hcall, table?_of_isCall hwritten]
    rfl
  · rw [canonical_eq_self hrestore hcall]

end Layout.Indirect

/-! ## Accepted words -/

/-- The word that the encoder writes for what an accepted word decodes to: the word itself, unless it is a
register branch with fields that decoding ignores. -/
def Word.canonical (w : Word) : Word :=
  if Group.register.pattern.Matches w then (Indirect.ofWord w).canonical.toWord else w

theorem Word.canonical_of_register {w : Word} (h : Group.register.pattern.Matches w) :
    w.canonical = (Indirect.ofWord w).canonical.toWord :=
  if_pos h

theorem Word.canonical_of_ne_register {g : Group} {w : Word} (hg : g.pattern.Matches w)
    (hne : g ≠ .register) : w.canonical = w :=
  if_neg fun h => hne (Group.eq_of_matches hg h)

/-- A word and its canonical form decode alike. -/
theorem Decoder.full_decode_canonical (w : Word) : full.decode w.canonical = full.decode w := by
  by_cases hg : Group.register.pattern.Matches w
  · rw [Word.canonical_of_register hg, full_decode_of_matches (Indirect.matches_toWord _),
      full_decode_of_matches hg]
    show (Indirect.ofWord _).decode = (Indirect.ofWord w).decode
    rw [Indirect.ofWord_toWord, Indirect.decode_canonical]
  · rw [Word.canonical, if_neg hg]

/-- **Encoding undoes decoding**, up to the fields that decoding ignores. -/
theorem encode?_of_full_decode {w : Word} {i : Instruction} (h : Decoder.full.decode w = .ok i) :
    i.encode? = some w.canonical := by
  obtain ⟨g, hg, hi⟩ := Decoder.full_decode_eq_ok_iff.mp h
  cases g with
  | conditional =>
    rw [Word.canonical_of_ne_register hg (by decide), Conditional.encode?_decode hi,
      Conditional.toWord_ofWord hg]
  | unconditional =>
    cases hi
    rw [Word.canonical_of_ne_register hg (by decide), Unconditional.encode?_decode,
      Unconditional.toWord_ofWord hg]
  | compare =>
    cases hi
    rw [Word.canonical_of_ne_register hg (by decide), Compare.encode?_decode, Compare.toWord_ofWord hg]
  | test =>
    cases hi
    rw [Word.canonical_of_ne_register hg (by decide), Test.encode?_decode, Test.toWord_ofWord hg]
  | register =>
    obtain ⟨hop2, form, hrow, hadmits, rfl⟩ := Indirect.decode_eq_ok_iff.mp hi
    rw [Word.canonical_of_register hg, Indirect.encode?_instruction hop2 hrow hadmits]

end BranchWord
