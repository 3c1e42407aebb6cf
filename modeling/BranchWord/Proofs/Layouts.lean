/-
# `BranchWord.Proofs.Layouts` — a member of a group is its fields.

A layout has every bit of a word but those that the group fixes, so between the members of a group and the
layouts of the group reading and writing are inverse to each other. One half, `ofWord_toWord`, stands beside
each layout: fields are read back as they were written. The other half is here:

* `matches_toWord` — what a layout writes is a member of its group;
* `eq_of_ofWord` — members of a group with the same fields are the same word;
* `toWord_ofWord` — so a member of a group is written back from its fields.

The second is a tiling argument. Each layout lists its fields from bit 0 upwards, the pattern of the group
among them, and every field starts where the one before it ends (`Word.field_add_congr`).

A layout writes its fields around the pattern that the group is recognised by. As a number that pattern is the base
of the group (`Group.pattern_word`), and `toWord_eq` gives the words of each layout as the manual does: the base
joined with the fields, each shifted to its lowest bit.
-/
import BranchWord.Layout.Immediate
import BranchWord.Layout.Indirect

namespace BranchWord

/-- Words that agree on a flag agree on its field of one bit. -/
theorem Word.field_one_congr {u w : Word} {n : Nat} (h : u.bit n = w.bit n) :
    u.field n 1 = w.field n 1 := by
  rw [field_one, field_one, h]

/-- Members of a group agree on the pattern of the group. -/
theorem Pattern.Matches.field_congr {p : Pattern} {u w : Word} (hu : p.Matches u)
    (hw : p.Matches w) : u.field p.low p.width = w.field p.low p.width :=
  hu.trans hw.symm

/-- The words of the five patterns. -/
theorem Group.pattern_word (g : Group) :
    g.pattern.word =
      match g with
      | conditional => 0x54000000#32
      | unconditional => 0x14000000#32
      | compare => 0x34000000#32
      | test => 0x36000000#32
      | register => 0xd6000000#32 := by
  cases g <;> decide

namespace Layout

/-! ## Conditional branch -/

namespace Conditional

/-- The word of a conditional branch, with `o1` at bit 24, `imm19` at bit 5, `o0` at bit 4 and `cond` at bit 0. -/
theorem toWord_eq (l : Conditional) :
    l.toWord = 0x54000000#32 ||| (BitVec.ofBool l.o1).setWidth 32 <<< 24 ||| l.imm19.setWidth 32 <<< 5 |||
      (BitVec.ofBool l.o0).setWidth 32 <<< 4 ||| l.cond.setWidth 32 := by
  rw [toWord, Group.pattern_word]
  simp only [Word.placeBit, Word.place, BitVec.shiftLeft_zero]

theorem matches_toWord (l : Conditional) : Group.conditional.pattern.Matches l.toWord := by
  simp [Pattern.Matches, toWord, Word.placeBit, Pattern.word, Group.pattern, Word.field_or,
    Word.field_place_of_le, Word.field_place_self]

theorem eq_of_ofWord {u w : Word} (hu : Group.conditional.pattern.Matches u)
    (hw : Group.conditional.pattern.Matches w) (h : ofWord u = ofWord w) : u = w := by
  obtain ⟨ho1, himm19, ho0, hcond⟩ := Conditional.mk.inj h
  apply Word.eq_of_field_all
  have f₀ := Word.field_add_congr hcond (Word.field_one_congr ho0)
  have f₁ := Word.field_add_congr f₀ himm19
  have f₂ := Word.field_add_congr f₁ (Word.field_one_congr ho1)
  exact Word.field_add_congr f₂ (hu.field_congr hw)

theorem toWord_ofWord {w : Word} (h : Group.conditional.pattern.Matches w) :
    (ofWord w).toWord = w :=
  eq_of_ofWord (matches_toWord _) h (ofWord_toWord _)

end Conditional

/-! ## Unconditional branch -/

namespace Unconditional

/-- The word of an unconditional branch, with `op` at bit 31 and `imm26` at bit 0. -/
theorem toWord_eq (l : Unconditional) :
    l.toWord = (BitVec.ofBool l.op).setWidth 32 <<< 31 ||| 0x14000000#32 ||| l.imm26.setWidth 32 := by
  rw [toWord, Group.pattern_word]
  simp only [Word.placeBit, Word.place, BitVec.shiftLeft_zero]

theorem matches_toWord (l : Unconditional) : Group.unconditional.pattern.Matches l.toWord := by
  simp [Pattern.Matches, toWord, Word.placeBit, Pattern.word, Group.pattern, Word.field_or,
    Word.field_place_of_le, Word.field_place_of_add_le, Word.field_place_self]

theorem eq_of_ofWord {u w : Word} (hu : Group.unconditional.pattern.Matches u)
    (hw : Group.unconditional.pattern.Matches w) (h : ofWord u = ofWord w) : u = w := by
  obtain ⟨hop, himm26⟩ := Unconditional.mk.inj h
  apply Word.eq_of_field_all
  have f₀ := Word.field_add_congr himm26 (hu.field_congr hw)
  exact Word.field_add_congr f₀ (Word.field_one_congr hop)

theorem toWord_ofWord {w : Word} (h : Group.unconditional.pattern.Matches w) :
    (ofWord w).toWord = w :=
  eq_of_ofWord (matches_toWord _) h (ofWord_toWord _)

end Unconditional

/-! ## Compare and branch -/

namespace Compare

/-- The word of compare and branch, with `sf` at bit 31, `op` at bit 24, `imm19` at bit 5 and `Rt` at bit 0. -/
theorem toWord_eq (l : Compare) :
    l.toWord = (BitVec.ofBool l.sf).setWidth 32 <<< 31 ||| 0x34000000#32 |||
      (BitVec.ofBool l.op).setWidth 32 <<< 24 ||| l.imm19.setWidth 32 <<< 5 ||| l.rt.setWidth 32 := by
  rw [toWord, Group.pattern_word]
  simp only [Word.placeBit, Word.place, BitVec.shiftLeft_zero]

theorem matches_toWord (l : Compare) : Group.compare.pattern.Matches l.toWord := by
  simp [Pattern.Matches, toWord, Word.placeBit, Pattern.word, Group.pattern, Word.field_or,
    Word.field_place_of_le, Word.field_place_of_add_le, Word.field_place_self]

theorem eq_of_ofWord {u w : Word} (hu : Group.compare.pattern.Matches u)
    (hw : Group.compare.pattern.Matches w) (h : ofWord u = ofWord w) : u = w := by
  obtain ⟨hsf, hop, himm19, hrt⟩ := Compare.mk.inj h
  apply Word.eq_of_field_all
  have f₀ := Word.field_add_congr hrt himm19
  have f₁ := Word.field_add_congr f₀ (Word.field_one_congr hop)
  have f₂ := Word.field_add_congr f₁ (hu.field_congr hw)
  exact Word.field_add_congr f₂ (Word.field_one_congr hsf)

theorem toWord_ofWord {w : Word} (h : Group.compare.pattern.Matches w) : (ofWord w).toWord = w :=
  eq_of_ofWord (matches_toWord _) h (ofWord_toWord _)

end Compare

/-! ## Test and branch -/

namespace Test

/-- The word of test and branch, with `b5` at bit 31, `op` at bit 24, `b40` at bit 19, `imm14` at bit 5 and `Rt` at
bit 0. -/
theorem toWord_eq (l : Test) :
    l.toWord = (BitVec.ofBool l.b5).setWidth 32 <<< 31 ||| 0x36000000#32 |||
      (BitVec.ofBool l.op).setWidth 32 <<< 24 ||| l.b40.setWidth 32 <<< 19 ||| l.imm14.setWidth 32 <<< 5 |||
      l.rt.setWidth 32 := by
  rw [toWord, Group.pattern_word]
  simp only [Word.placeBit, Word.place, BitVec.shiftLeft_zero]

theorem matches_toWord (l : Test) : Group.test.pattern.Matches l.toWord := by
  simp [Pattern.Matches, toWord, Word.placeBit, Pattern.word, Group.pattern, Word.field_or,
    Word.field_place_of_le, Word.field_place_of_add_le, Word.field_place_self]

theorem eq_of_ofWord {u w : Word} (hu : Group.test.pattern.Matches u)
    (hw : Group.test.pattern.Matches w) (h : ofWord u = ofWord w) : u = w := by
  obtain ⟨hb5, hop, hb40, himm14, hrt⟩ := Test.mk.inj h
  apply Word.eq_of_field_all
  have f₀ := Word.field_add_congr hrt himm14
  have f₁ := Word.field_add_congr f₀ hb40
  have f₂ := Word.field_add_congr f₁ (Word.field_one_congr hop)
  have f₃ := Word.field_add_congr f₂ (hu.field_congr hw)
  exact Word.field_add_congr f₃ (Word.field_one_congr hb5)

theorem toWord_ofWord {w : Word} (h : Group.test.pattern.Matches w) : (ofWord w).toWord = w :=
  eq_of_ofWord (matches_toWord _) h (ofWord_toWord _)

end Test

/-! ## Branch through a register -/

namespace Indirect

/-- The word of a branch through a register whose `op2` is in order, with `opc` at bit 21, `op3` at bit 10, `Rn` at
bit 5 and `op4` at bit 0. The ones of `op2` are in the base. -/
theorem toWord_eq {l : Indirect} (hop2 : l.op2 = 31#5) :
    l.toWord = 0xd61f0000#32 ||| l.opc.setWidth 32 <<< 21 ||| l.op3.setWidth 32 <<< 10 |||
      l.rn.setWidth 32 <<< 5 ||| l.op4.setWidth 32 := by
  have hbase : 0xd6000000#32 ||| Word.place 21 l.opc ||| Word.place 16 31#5 =
      0xd61f0000#32 ||| Word.place 21 l.opc := by
    rw [BitVec.or_assoc, BitVec.or_comm (Word.place 21 l.opc), ← BitVec.or_assoc]
    rfl
  rw [toWord, Group.pattern_word, hop2, hbase]
  simp only [Word.place, BitVec.shiftLeft_zero]

theorem matches_toWord (l : Indirect) : Group.register.pattern.Matches l.toWord := by
  simp [Pattern.Matches, toWord, Pattern.word, Group.pattern, Word.field_or,
    Word.field_place_of_le, Word.field_place_self]

theorem eq_of_ofWord {u w : Word} (hu : Group.register.pattern.Matches u)
    (hw : Group.register.pattern.Matches w) (h : ofWord u = ofWord w) : u = w := by
  obtain ⟨hopc, hop2, hop3, hrn, hop4⟩ := Indirect.mk.inj h
  apply Word.eq_of_field_all
  have f₀ := Word.field_add_congr hop4 hrn
  have f₁ := Word.field_add_congr f₀ hop3
  have f₂ := Word.field_add_congr f₁ hop2
  have f₃ := Word.field_add_congr f₂ hopc
  exact Word.field_add_congr f₃ (hu.field_congr hw)

end Indirect

end Layout

end BranchWord
