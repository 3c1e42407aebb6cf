/-
# `BranchWord.Proofs.Checked.Decoder` — decoding never asks its machine for something impossible.

The decoders of `BranchWord.Checked.Decoder` take about thirty fields out of a word, look up conditions, registers
and families in tables, scale offsets in 64 bits and fill operand slots, and each of these steps could fault. None
does, and what comes out is what the plain decoder makes of the word. So every step has one equation here,
`… = .ok …`, with the plain definition on the right:

* tables and slots, where a field of the right width keeps the index inside the table (`lookup_map_range`);
* the five groups (`conditional_eq` to `indirect_eq`), whether the word is a member of the group or not;
* the group of a word, the words that pointer authentication adds, the decoder, a fetch from a stream.

A branch through a register looks up its target before anything else of its family, also where the word is then
refused. The equations of the rows (`shape_eq`, `form_eq`, `row_eq`) take the look-up as made, and `family_eq` is
where the register table answers for it.

Machine words are wider than the fields that they hold. Fields of `n` bits enter the equations as `v.setWidth 32`,
and a comparison of the machine is one of the fields (`Word.setWidth_eq_iff`).
-/
import BranchWord.Checked.Decoder
import BranchWord.Proofs.Checked.Arithmetic
import BranchWord.Proofs.Decoding

namespace BranchWord.Checked

open Layout (Indirect)

/-! ## Fields in machine words -/

/-- A field inside the word is read without a fault. -/
theorem field_of_le (w : Word) {low width : Nat} (h : low + width ≤ 32) :
    field w low width = .ok ((w.field low width).setWidth 32) := by
  rw [field_eq, if_pos h]

/-- A bit of the word is read without a fault. -/
theorem bit_of_lt (w : Word) {n : Nat} (h : n < 32) : bit w n = .ok (w.bit n) := by
  rw [bit_eq, if_pos h]

/-- Masking a field to its own width changes nothing. -/
theorem toNat_and_mask {n : Nat} (h : n ≤ 32) (v : BitVec n) :
    (v.setWidth 32 &&& (BitVec.allOnes n).setWidth 32).toNat = v.toNat := by
  have hmask : v.setWidth 32 &&& (BitVec.allOnes n).setWidth 32 = v.setWidth 32 := by
    rw [← BitVec.setWidth_and, BitVec.and_allOnes]
  rw [hmask, BitVec.toNat_setWidth_of_le h]

/-! ## Tables and slots -/

/-- An index below the size of a table has an entry. -/
theorem lookup_map_range {α : Type} (entry : Nat → α) {size i : Nat} (h : i < size) :
    lookup ((List.range size).map entry) i = .ok (entry i) := by
  unfold lookup
  simp [h]

theorem condition_eq (code : BitVec 4) :
    condition (code.setWidth 32) = .ok (Condition.ofBits code) := by
  have hentry : ∀ code : BitVec 4,
      Condition.all[(code.setWidth 32 &&& 0xf).toNat]? = some (Condition.ofBits code) := by decide
  unfold condition lookup
  rw [hentry]

theorem register_eq (is64Bit : Bool) (number : RegisterNumber) :
    register is64Bit (number.setWidth 32) = .ok (Register.sized is64Bit number) := by
  have hindex : (number.setWidth 32 &&& 0x1f).toNat = number.toNat := toNat_and_mask (by decide) number
  unfold register
  rw [hindex, lookup_map_range _ number.isLt, BitVec.ofNat_toNat, BitVec.setWidth_eq]

theorem modifier_eq (number : RegisterNumber) :
    modifier (number.setWidth 32) = .ok (Register.modifier number) := by
  have hmask : number.setWidth 32 &&& 0x1f = number.setWidth 32 := by
    apply BitVec.eq_of_toNat_eq
    exact (toNat_and_mask (by decide) number).trans (BitVec.toNat_setWidth_of_le (by decide)).symm
  have hsp : number.setWidth 32 = 31 ↔ number = 31#5 := Word.setWidth_eq_iff (by decide) number 31#5
  unfold modifier Register.modifier
  rw [hmask, register_eq]
  simp only [hsp]
  split <;> rfl

/-- Up to three operands have their slots. -/
theorem slots_of_le {ops : List Operand} (h : ops.length ≤ 3) : slots ops = .ok (Operands.ofList ops) := by
  unfold slots
  rw [require_bind (by simpa using h)]
  rfl

theorem families_eq (opc : BitVec 4) :
    lookup families (opc.setWidth 32 &&& 0xf).toNat = .ok (Indirect.family? opc) := by
  have hentry : ∀ opc : BitVec 4,
      families[(opc.setWidth 32 &&& 0xf).toNat]? = some (Indirect.family? opc) := by decide
  unfold lookup
  rw [hentry]

/-! ## Groups with an offset -/

theorem conditional_eq (w : Word) : conditional w = .ok (Group.conditional.decode w) := by
  unfold conditional
  rw [bit_of_lt w (by decide), ok_bind, Group.conditional_decode]
  cases w.bit 24 with
  | true => rfl
  | false =>
    have hoffset := scale_then_extend (w.field 5 19) (by decide)
    simp only [Bool.false_eq_true, if_false]
    rw [field_of_le w (by decide), ok_bind, shiftLeft_of_lt _ (by decide), ok_bind, hoffset, ok_bind,
      field_of_le w (by decide), ok_bind, condition_eq, ok_bind, bit_of_lt w (by decide), ok_bind,
      slots_of_le (by simp), ok_bind]
    rfl

theorem unconditional_eq (w : Word) : unconditional w = .ok (Group.unconditional.decode w) := by
  have hoffset := scale_then_extend (w.field 0 26) (by decide)
  unfold unconditional
  rw [field_of_le w (by decide), ok_bind, shiftLeft_of_lt _ (by decide), ok_bind, hoffset, ok_bind,
    bit_of_lt w (by decide), ok_bind, slots_of_le (by simp), ok_bind]
  rfl

theorem compare_eq (w : Word) : compare w = .ok (Group.compare.decode w) := by
  obtain ⟨extended, hextended, hoffset⟩ := extend_then_scale (w.field 5 19) (by decide) (by decide)
  unfold compare
  rw [bit_of_lt w (by decide), ok_bind, field_of_le w (by decide), ok_bind, field_of_le w (by decide),
    ok_bind, hextended, ok_bind, hoffset, ok_bind, bit_of_lt w (by decide), ok_bind, register_eq, ok_bind,
    slots_of_le (by simp), ok_bind]
  rfl

/-- Setting bit 5 of `b40` writes `b5` above it. -/
theorem testedBit_eq (b5 : Bool) (b40 : BitVec 5) :
    (if b5 then b40.setWidth 32 ||| 0x20 else b40.setWidth 32 : Word).setWidth 64 =
      (BitVec.ofBool b5 ++ b40).setWidth 64 := by
  revert b40
  cases b5 <;> decide

theorem test_eq (w : Word) : test w = .ok (Group.test.decode w) := by
  obtain ⟨extended, hextended, hoffset⟩ := extend_then_scale (w.field 5 14) (by decide) (by decide)
  unfold test
  rw [bit_of_lt w (by decide), ok_bind, field_of_le w (by decide), ok_bind, field_of_le w (by decide),
    ok_bind, field_of_le w (by decide), ok_bind, hextended, ok_bind, hoffset, ok_bind,
    bit_of_lt w (by decide), ok_bind, register_eq, ok_bind, slots_of_le (by simp), ok_bind, testedBit_eq]
  rfl

/-! ## Branches through a register -/

/-- The instruction of a row, once the target register is known. -/
theorem shape_eq (rn op4 : BitVec 5) (s : Indirect.Shape) :
    shape (.ok (.x rn)) (rn.setWidth 32) (op4.setWidth 32) s = .ok (s.instruction rn op4) := by
  have hzero : op4.setWidth 32 = 31 ↔ op4 = 31#5 := Word.setWidth_eq_iff (by decide) op4 31#5
  have hlink : rn.setWidth 32 = 30 ↔ rn = 30#5 := Word.setWidth_eq_iff (by decide) rn 30#5
  cases s with
  | jump m =>
    simp only [shape, ok_bind]
    rw [slots_of_le (by simp)]
    rfl
  | jumpModified m =>
    simp only [shape, modifier_eq, ok_bind]
    rw [slots_of_le (by simp)]
    rfl
  | jumpEither zero modified =>
    simp only [shape, modifier_eq, ok_bind, hzero, Indirect.Shape.instruction]
    split
    · rw [slots_of_le (by simp)]
      rfl
    · rw [slots_of_le (by simp)]
      rfl
  | impliedReturn m => rfl
  | returnTo m =>
    simp only [shape, ok_bind, hlink, Indirect.Shape.instruction]
    split
    · rfl
    · rw [slots_of_le (by simp)]
      rfl
  | restore => rfl

/-- A constant that a field misses is missed in machine words as well. -/
theorem missed_constant (constant? : Option (BitVec 5)) (value : BitVec 5) :
    (constant?.map (·.setWidth 32)).filter (· ≠ value.setWidth 32) =
      (constant?.filter (· ≠ value)).map (·.setWidth 32) := by
  have hsame : ∀ expected : BitVec 5, expected.setWidth 32 = value.setWidth 32 ↔ expected = value :=
    fun expected => Word.setWidth_eq_iff (by decide) expected value
  rw [Option.filter_map]
  simp [Function.comp_def, hsame]

theorem form_eq (rn op4 : BitVec 5) (f : Indirect.Form) :
    form (.ok (.x rn)) (rn.setWidth 32) (op4.setWidth 32) f = .ok (f.decode rn op4) := by
  unfold form Indirect.Form.decode
  simp only [missed_constant, shape_eq, ok_bind]
  cases f.rn?.filter (· ≠ rn) with
  | some expected => rfl
  | none =>
    cases f.op4?.filter (· ≠ op4) with
    | some expected => rfl
    | none => rfl

theorem row_eq (l : Indirect) (table : Indirect.Table) :
    row table (.ok (.x l.rn)) (l.op3.setWidth 32) (l.rn.setWidth 32) (l.op4.setWidth 32) =
      .ok (l.decodeIn table) := by
  unfold row Indirect.decodeIn
  rw [Word.setWidth_back _ (by decide)]
  cases table l.op3 with
  | none => rfl
  | some f => exact form_eq l.rn l.op4 f

/-- **The target register is there for every `Rn`**, whether it is looked up in front of the row or in it. -/
theorem family_eq (l : Indirect) (f : Indirect.Family) :
    family f (l.op2.setWidth 32) (l.op3.setWidth 32) (l.rn.setWidth 32) (l.op4.setWidth 32) =
      .ok (f.decode l) := by
  have hop2 : l.op2.setWidth 32 = 31 ↔ l.op2 = 31#5 := Word.setWidth_eq_iff (by decide) l.op2 31#5
  have htarget : register true (l.rn.setWidth 32) = .ok (.x l.rn) := register_eq true l.rn
  cases f with
  | branch | modifiedBranch | call | ret | restore =>
    simp only [family, htarget, ok_bind, pure_eq_ok, row_eq]
    rfl
  | exceptionReturn =>
    simp only [family, htarget, row_eq, ne_eq, hop2, Indirect.Family.decode, Indirect.decodeExceptionReturn]
    split <;> rfl

theorem indirect_eq (w : Word) : indirect w = .ok (Group.register.decode w) := by
  have hopc : field w 21 4 = .ok ((Indirect.ofWord w).opc.setWidth 32) := field_of_le w (by decide)
  have hop2 : field w 16 5 = .ok ((Indirect.ofWord w).op2.setWidth 32) := field_of_le w (by decide)
  have hop3 : field w 10 6 = .ok ((Indirect.ofWord w).op3.setWidth 32) := field_of_le w (by decide)
  have hrn : field w 5 5 = .ok ((Indirect.ofWord w).rn.setWidth 32) := field_of_le w (by decide)
  have hop4 : field w 0 5 = .ok ((Indirect.ofWord w).op4.setWidth 32) := field_of_le w (by decide)
  show indirect w = .ok (Indirect.ofWord w).decode
  generalize Indirect.ofWord w = l at *
  have hones : l.op2.setWidth 32 = 31 ↔ l.op2 = 31#5 := Word.setWidth_eq_iff (by decide) l.op2 31#5
  unfold indirect Indirect.decode
  simp only [hopc, hop2, hop3, hrn, hop4, ok_bind, ne_eq, hones, families_eq]
  by_cases h : l.op2 = 31#5
  · rw [if_neg (not_not_intro h), if_neg (not_not_intro h)]
    cases Indirect.family? l.opc with
    | none => rfl
    | some f => exact family_eq l f
  · rw [if_pos h, if_pos h]
    rfl

/-! ## Words -/

/-- The group of a word: the test that succeeds is a match, and a word that fails all five has no group. -/
theorem group?_eq (w : Word) : group? w = .ok (Group.ofWord? w) := by
  have hconditional : (w.field 25 7).setWidth 32 = 0b0101010 ↔ Group.conditional.pattern.Matches w :=
    Word.setWidth_eq_iff (by decide) _ 0b0101010#7
  have hregister : (w.field 25 7).setWidth 32 = 0b1101011 ↔ Group.register.pattern.Matches w :=
    Word.setWidth_eq_iff (by decide) _ 0b1101011#7
  have hunconditional : (w.field 26 5).setWidth 32 = 0b00101 ↔ Group.unconditional.pattern.Matches w :=
    Word.setWidth_eq_iff (by decide) _ 0b00101#5
  have hcompare : (w.field 25 6).setWidth 32 = 0b011010 ↔ Group.compare.pattern.Matches w :=
    Word.setWidth_eq_iff (by decide) _ 0b011010#6
  have htest : (w.field 25 6).setWidth 32 = 0b011011 ↔ Group.test.pattern.Matches w :=
    Word.setWidth_eq_iff (by decide) _ 0b011011#6
  have hsome : ∀ {g : Group}, g.pattern.Matches w → some g = Group.ofWord? w :=
    fun h => (Group.ofWord?_eq_some_iff.mpr h).symm
  unfold group?
  simp only [field_of_le w (show 25 + 7 ≤ 32 by decide), field_of_le w (show 26 + 5 ≤ 32 by decide),
    field_of_le w (show 25 + 6 ≤ 32 by decide), ok_bind, pure_eq_ok, hconditional, hregister,
    hunconditional, hcompare, htest]
  split
  next h => rw [hsome h]
  split
  next h => rw [hsome h]
  split
  next h => rw [hsome h]
  split
  next h => rw [hsome h]
  split
  next h => rw [hsome h]
  next h₁ h₂ h₃ h₄ h₅ =>
    have hnone : ∀ g : Group, ¬ g.pattern.Matches w := by
      intro g
      cases g <;> assumption
    rw [Group.ofWord?_eq_none_iff.mpr hnone]

/-- Whether a word is one that pointer authentication adds. -/
theorem isAuthenticated_eq (g : Group) (w : Word) :
    isAuthenticated g w = .ok (g = .register && (Indirect.ofWord w).isAuthenticated) := by
  have hop2 : (w.field 16 5).setWidth 32 = 31 ↔ w.field 16 5 = 31#5 := Word.setWidth_eq_iff (by decide) _ 31#5
  have hopc : ((w.field 21 4).setWidth 32).toNat = (w.field 21 4).toNat :=
    BitVec.toNat_setWidth_of_le (by decide)
  have hop3 : ((w.field 10 6).setWidth 32).toNat = (w.field 10 6).toNat :=
    BitVec.toNat_setWidth_of_le (by decide)
  unfold isAuthenticated Indirect.isAuthenticated Indirect.ofWord
  by_cases hg : g = .register
  · rw [if_pos hg, field_of_le w (by decide), ok_bind, field_of_le w (by decide), ok_bind]
    simp only [hop2]
    split
    next h =>
      rw [field_of_le w (by decide), ok_bind]
      simp [hg, h, ← BitVec.toNat_inj, hopc, hop3, Bool.or_assoc]
    next h => simp [h]
  · rw [if_neg hg]
    simp [hg]

theorem decodeAs_eq (g : Group) (w : Word) : decodeAs g w = .ok (g.decode w) := by
  cases g with
  | conditional => exact conditional_eq w
  | unconditional => exact unconditional_eq w
  | compare => exact compare_eq w
  | test => exact test_eq w
  | register => exact indirect_eq w

theorem decode_eq (d : Decoder) (w : Word) : decode d w = .ok (d.decode w) := by
  unfold decode Decoder.decode
  rw [group?_eq, ok_bind]
  cases Group.ofWord? w with
  | none => rfl
  | some g =>
    simp only [isAuthenticated_eq, decodeAs_eq, field_of_le w (show 10 + 6 ≤ 32 by decide), ok_bind,
      pure_eq_ok, Decoder.lacksPointerAuth]
    by_cases hauth : d.pointerAuth = true
    · simp only [hauth, if_true, Bool.not_true, Bool.false_and, Bool.false_eq_true, if_false]
      cases g.decode w <;> rfl
    · by_cases hspace : (decide (g = .register) && (Indirect.ofWord w).isAuthenticated) = true
      · -- the space lies in the register group, so the error names the same group
        have hg : g = .register := of_decide_eq_true (Bool.and_eq_true_iff.mp hspace).1
        simp only [hauth, if_true, Bool.not_false, Bool.true_and, hspace]
        rw [hg]
        rfl
      · simp only [hauth, Bool.not_false, Bool.true_and, hspace]
        cases g.decode w <;> rfl

/-- A fetch from a stream. -/
theorem fetchInto_eq (d : Decoder) (record : Instruction) (s : Stream) :
    fetchInto d record s = .ok (d.fetchInto record s) := by
  unfold fetchInto Decoder.fetchInto
  cases s.readWord with
  | error e => rfl
  | ok read =>
    obtain ⟨w, rest⟩ := read
    simp only [decode_eq, ok_bind]
    cases d.decode w <;> rfl

/-! ## No faults -/

/-- **No input makes the machine fault.** Every word has a group or none and is decoded as a member of any group,
a member or not, by every decoder and from every stream, without a fault on the way; and the outcome is that of the
plain definitions. The helpers on their own fault for no other reason than the conditions they open with, whatever
the value, the position and the width:

* a field faults just where it reaches past bit 31, so neither the field of no bits behind bit 31 nor the whole
  word does, and a bit just where the word has none;
* a sign extension faults just for a width of no bits or of more than 64, for a scale of 64 or more, and, where it
  has a target, for one that is narrower than the field or wider than 64. -/
theorem no_input_faults :
    (∀ w : Word, group? w = .ok (Group.ofWord? w) ∧
      conditional w = .ok (Layout.Conditional.ofWord w).decode ∧
      unconditional w = .ok (.ok (Layout.Unconditional.ofWord w).decode) ∧
      compare w = .ok (.ok (Layout.Compare.ofWord w).decode) ∧
      test w = .ok (.ok (Layout.Test.ofWord w).decode) ∧
      indirect w = .ok (Indirect.ofWord w).decode) ∧
    (∀ (g : Group) (w : Word), decodeAs g w = .ok (g.decode w)) ∧
    (∀ (d : Decoder) (w : Word), decode d w = .ok (d.decode w)) ∧
    (∀ (d : Decoder) (record : Instruction) (s : Stream),
      fetchInto d record s = .ok (d.fetchInto record s)) ∧
    (∀ (w : Word) (low width : Nat), field w low width =
      if low + width ≤ 32 then .ok ((w.field low width).setWidth 32) else .error .fieldOutsideWord) ∧
    (∀ (w : Word) (n : Nat), bit w n = if n < 32 then .ok (w.bit n) else .error .bitOutsideWord) ∧
    (∀ (v : BitVec 64) (width scale : Nat), signedScaled v width scale =
      if 0 < width ∧ width ≤ 64 then
        if scale < 64 then .ok (Int64.ofBitVec ((v.setWidth width).signExtend 64 <<< scale))
        else .error .scaleOutOfRange
      else .error .widthOutOfRange) ∧
    (∀ (v : BitVec 64) (width target : Nat), signedWithin v width target =
      if width ≤ target ∧ target ≤ 64 then
        if 0 < width then .ok (Int64.ofBitVec ((v.setWidth width).signExtend 64))
        else .error .widthOutOfRange
      else .error .widthsOutOfOrder) ∧
    (∀ (v : BitVec 64) (width : Nat), signed v width =
      if 0 < width ∧ width ≤ 64 then .ok (Int64.ofBitVec ((v.setWidth width).signExtend 64))
      else .error .widthOutOfRange) := by
  refine ⟨?_, decodeAs_eq, decode_eq, fetchInto_eq, field_eq, bit_eq, signedScaled_eq, signedWithin_eq,
    signed_eq⟩
  intro w
  exact ⟨group?_eq w, conditional_eq w, unconditional_eq w, compare_eq w, test_eq w, indirect_eq w⟩

end BranchWord.Checked
