/-
# `BranchWord.Layout.Immediate` — the four groups with an offset in the word.

    0101010 o1 imm19 o0 cond          conditional branch
    op 00101 imm26                    unconditional branch
    sf 011010 op imm19 Rt             compare and branch
    b5 011011 op b40 imm14 Rt         test and branch

A layout is the fields of a word of its group, everything but the bits that the group fixes. `ofWord` reads
the fields of any word and `toWord` writes the member of the group that has them, so `ofWord_toWord` says
that the fields of one group do not touch each other or the pattern. `decode` gives the fields their
meaning. Only the conditional branch has a field that can make it fail: its bit `o1` is reserved.
-/
import BranchWord.Group
import BranchWord.DecodeError
import BranchWord.Instruction

namespace BranchWord.Layout

open Word (place placeBit)

/-! ## Conditional branch -/

/-- The fields `o1 imm19 o0 cond`. -/
structure Conditional where
  o1 : Bool
  imm19 : BitVec 19
  o0 : Bool
  cond : BitVec 4
  deriving DecidableEq, Repr

namespace Conditional

/-- The fields of a word read as a conditional branch. -/
def ofWord (w : Word) : Conditional where
  o1 := w.bit 24
  imm19 := w.field 5 19
  o0 := w.bit 4
  cond := w.field 0 4

/-- The conditional branch with given fields. -/
def toWord (l : Conditional) : Word :=
  Group.conditional.pattern.word ||| placeBit 24 l.o1 ||| place 5 l.imm19 ||| placeBit 4 l.o0 |||
    place 0 l.cond

/-- **Conditional branch.** The reserved bit `o1` must be zero; `o0` tells the hinted form `bc` from `b`. -/
def decode (l : Conditional) : Except DecodeError Instruction :=
  if l.o1 then
    .error (.reservedBit .conditional "o1")
  else
    .ok {
      mnemonic := if l.o0 then .bc else .b
      condition := some (Condition.ofBits l.cond)
      operands := { first := .pcOffset (displacement l.imm19) }
      category := .conditionalBranch }

end Conditional

/-! ## Unconditional branch -/

/-- The fields `op imm26`. -/
structure Unconditional where
  op : Bool
  imm26 : BitVec 26
  deriving DecidableEq, Repr

namespace Unconditional

/-- The fields of a word read as an unconditional branch. -/
def ofWord (w : Word) : Unconditional where
  op := w.bit 31
  imm26 := w.field 0 26

/-- The unconditional branch with given fields. -/
def toWord (l : Unconditional) : Word :=
  placeBit 31 l.op ||| Group.unconditional.pattern.word ||| place 0 l.imm26

/-- **Unconditional branch.** Every word of the group is an instruction; `op` asks for the link. -/
def decode (l : Unconditional) : Instruction where
  mnemonic := if l.op then .bl else .b
  operands := { first := .pcOffset (displacement l.imm26) }
  category := .branch

end Unconditional

/-! ## Compare and branch -/

/-- The fields `sf op imm19 Rt`. -/
structure Compare where
  sf : Bool
  op : Bool
  imm19 : BitVec 19
  rt : RegisterNumber
  deriving DecidableEq, Repr

namespace Compare

/-- The fields of a word read as compare and branch. -/
def ofWord (w : Word) : Compare where
  sf := w.bit 31
  op := w.bit 24
  imm19 := w.field 5 19
  rt := w.field 0 5

/-- The compare and branch with given fields. -/
def toWord (l : Compare) : Word :=
  placeBit 31 l.sf ||| Group.compare.pattern.word ||| placeBit 24 l.op ||| place 5 l.imm19 |||
    place 0 l.rt

/-- **Compare and branch.** `sf` is the size of the compared register, `op` the sense of the test. -/
def decode (l : Compare) : Instruction where
  mnemonic := if l.op then .cbnz else .cbz
  operands := {
    first := .register (Register.sized l.sf l.rt)
    second := .pcOffset (displacement l.imm19) }
  category := .conditionalBranch

end Compare

/-! ## Test and branch -/

/-- The fields `b5 op b40 imm14 Rt`. -/
structure Test where
  b5 : Bool
  op : Bool
  b40 : BitVec 5
  imm14 : BitVec 14
  rt : RegisterNumber
  deriving DecidableEq, Repr

namespace Test

/-- The fields of a word read as test and branch. -/
def ofWord (w : Word) : Test where
  b5 := w.bit 31
  op := w.bit 24
  b40 := w.field 19 5
  imm14 := w.field 5 14
  rt := w.field 0 5

/-- The test and branch with given fields. -/
def toWord (l : Test) : Word :=
  placeBit 31 l.b5 ||| Group.test.pattern.word ||| placeBit 24 l.op ||| place 19 l.b40 |||
    place 5 l.imm14 ||| place 0 l.rt

/-- The number of the tested bit: `b5` is its highest bit. -/
def testedBit (l : Test) : BitVec 6 := BitVec.ofBool l.b5 ++ l.b40

/-- **Test and branch.** `b5` is also the size of the tested register: bits 32 to 63 exist in 64-bit
registers only, and bits 0 to 31 are tested in 32-bit registers. -/
def decode (l : Test) : Instruction where
  mnemonic := if l.op then .tbnz else .tbz
  operands := {
    first := .register (Register.sized l.b5 l.rt)
    second := .immediate (Int64.ofBitVec (l.testedBit.setWidth 64))
    third := .pcOffset (displacement l.imm14) }
  category := .conditionalBranch

end Test

/-! ## Fields are read back as they were written -/

theorem Conditional.ofWord_toWord (l : Conditional) : Conditional.ofWord l.toWord = l := by
  cases l
  simp [ofWord, toWord, placeBit, Pattern.word, Group.pattern, Word.bit_or, Word.field_or,
    Word.bit_place_of_le, Word.bit_place_of_lt, Word.bit_place_ofBool_self, Word.field_place_of_le,
    Word.field_place_of_add_le, Word.field_place_self]

theorem Unconditional.ofWord_toWord (l : Unconditional) : Unconditional.ofWord l.toWord = l := by
  cases l
  simp [ofWord, toWord, placeBit, Pattern.word, Group.pattern, Word.bit_or, Word.field_or,
    Word.bit_place_of_le, Word.bit_place_ofBool_self, Word.field_place_of_add_le,
    Word.field_place_self]

theorem Compare.ofWord_toWord (l : Compare) : Compare.ofWord l.toWord = l := by
  cases l
  simp [ofWord, toWord, placeBit, Pattern.word, Group.pattern, Word.bit_or, Word.field_or,
    Word.bit_place_of_le, Word.bit_place_of_lt, Word.bit_place_ofBool_self, Word.field_place_of_le,
    Word.field_place_of_add_le, Word.field_place_self]

theorem Test.ofWord_toWord (l : Test) : Test.ofWord l.toWord = l := by
  cases l
  simp [ofWord, toWord, placeBit, Pattern.word, Group.pattern, Word.bit_or, Word.field_or,
    Word.bit_place_of_le, Word.bit_place_of_lt, Word.bit_place_ofBool_self, Word.field_place_of_le,
    Word.field_place_of_add_le, Word.field_place_self]

end BranchWord.Layout
