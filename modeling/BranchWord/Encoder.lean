/-
# `BranchWord.Encoder` — the word of an instruction.

The rows of the instruction set, read from the record to the word. A record has a word when it is one of
the rows as a whole: the right category, a condition exactly where the instruction tests one, the right
registers, and a displacement that the offset field can hold. Registers, bit numbers and conditions go into
their fields as they are; a displacement goes in as a number of instructions.

Two rows hide an operand. A return without operand goes to register 30. An authenticated call with a modifier
of zero has the modifier number 31, which is the number of the stack pointer as well, so a call whose
modifier is the stack pointer has the same word as the call with a modifier of zero.
-/
import BranchWord.Layout.Immediate
import BranchWord.Layout.Indirect

namespace BranchWord

/-- The offset field that holds a displacement: the displacement in instructions, if it is a whole number of
them and the field is wide enough. -/
def offsetField? (n : Nat) (d : Int64) : Option (BitVec n) :=
  let imm := BitVec.ofInt n (d.toInt / 4)
  if displacement imm = d then some imm else none

/-- The number of a modifier register: 31 is the stack pointer, so the zero register has none. -/
def Register.modifierNumber? : Register → Option RegisterNumber
  | .x n => if n = 31#5 then none else some n
  | .sp => some 31#5
  | .w _ => none

namespace Instruction

open Layout

/-! ## One function per kind of row -/

/-- The word of a conditional branch. -/
def conditionalWord? (o0 : Bool) : Instruction → Option Word
  | ⟨_, some c, ⟨.pcOffset d, .nothing, .nothing⟩, .conditionalBranch⟩ => do
    let imm19 ← offsetField? 19 d
    return Conditional.toWord { o1 := false, imm19, o0, cond := c.bits }
  | _ => none

/-- The word of an unconditional branch. -/
def unconditionalWord? (op : Bool) : Instruction → Option Word
  | ⟨_, none, ⟨.pcOffset d, .nothing, .nothing⟩, .branch⟩ => do
    let imm26 ← offsetField? 26 d
    return Unconditional.toWord { op, imm26 }
  | _ => none

/-- The word of a compare and branch; the stack pointer cannot be compared. -/
def compareWord? (op : Bool) : Instruction → Option Word
  | ⟨_, none, ⟨.register r, .pcOffset d, .nothing⟩, .conditionalBranch⟩ =>
    if r = .sp then none
    else do
      let imm19 ← offsetField? 19 d
      return Compare.toWord { sf := r.is64Bit, op, imm19, rt := r.number }
  | _ => none

/-- The word of a test and branch. The stack pointer cannot be tested; a 32-bit register is written for the
bits 0 to 31 and a 64-bit register for the bits 32 to 63. -/
def testWord? (op : Bool) : Instruction → Option Word
  | ⟨_, none, ⟨.register r, .immediate n, .pcOffset d⟩, .conditionalBranch⟩ =>
    let b40 := n.toBitVec.extractLsb' 0 5
    if r = .sp ∨ n ≠ Int64.ofBitVec ((BitVec.ofBool r.is64Bit ++ b40).setWidth 64) then none
    else do
      let imm14 ← offsetField? 14 d
      return Test.toWord { b5 := r.is64Bit, op, b40, imm14, rt := r.number }
  | _ => none

/-- The word of the register group with given fields. -/
def indirectWord (opc : BitVec 4) (op3 : BitVec 6) (rn op4 : BitVec 5) : Word :=
  Indirect.toWord { opc, op2 := 31#5, op3, rn, op4 }

/-- The word of a branch through a 64-bit register. -/
def jumpWord? (opc : BitVec 4) (op3 : BitVec 6) (op4 : BitVec 5) : Instruction → Option Word
  | ⟨_, none, ⟨.register (.x n), .nothing, .nothing⟩, .branch⟩ => some (indirectWord opc op3 n op4)
  | _ => none

/-- The word of a branch through a 64-bit register with a modifier register. -/
def modifiedWord? (opc : BitVec 4) (op3 : BitVec 6) : Instruction → Option Word
  | ⟨_, none, ⟨.register (.x n), .register m, .nothing⟩, .branch⟩ => do
    let op4 ← m.modifierNumber?
    return indirectWord opc op3 n op4
  | _ => none

/-- The word of a plain return: to a 64-bit register, or without operand to register 30. -/
def returnWord? : Instruction → Option Word
  | ⟨_, none, ⟨.nothing, .nothing, .nothing⟩, .ret⟩ => some (indirectWord 2 0 30 0)
  | ⟨_, none, ⟨.register (.x n), .nothing, .nothing⟩, .ret⟩ =>
    if n = 30#5 then none else some (indirectWord 2 0 n 0)
  | _ => none

/-- The word of an instruction without operands. -/
def bareWord? (category : Category) (opc : BitVec 4) (op3 : BitVec 6) (op4 : BitVec 5) :
    Instruction → Option Word
  | ⟨_, none, ⟨.nothing, .nothing, .nothing⟩, k⟩ =>
    if k = category then some (indirectWord opc op3 31 op4) else none
  | _ => none

/-! ## All rows -/

/-- **The word of an instruction**, if the record is one that a word stands for. -/
def encode? (i : Instruction) : Option Word :=
  match i.mnemonic with
  | .invalid => none
  | .b => if i.condition.isSome then i.conditionalWord? false else i.unconditionalWord? false
  | .bl => i.unconditionalWord? true
  | .bc => i.conditionalWord? true
  | .tbz => i.testWord? false
  | .tbnz => i.testWord? true
  | .cbz => i.compareWord? false
  | .cbnz => i.compareWord? true
  | .br => i.jumpWord? 0 0 0
  | .braa => i.modifiedWord? 8 2
  | .brab => i.modifiedWord? 8 3
  | .braaz => i.jumpWord? 0 2 31
  | .brabz => i.jumpWord? 0 3 31
  | .blr => i.jumpWord? 1 0 0
  | .blraa => i.modifiedWord? 9 2
  | .blrab => i.modifiedWord? 9 3
  | .blraaz => i.jumpWord? 1 2 31
  | .blrabz => i.jumpWord? 1 3 31
  | .ret => i.returnWord?
  | .retaa => i.bareWord? .ret 2 2 31
  | .retab => i.bareWord? .ret 2 3 31
  | .eret => i.bareWord? .ret 4 0 0
  | .eretaa => i.bareWord? .ret 4 2 31
  | .eretab => i.bareWord? .ret 4 3 31
  | .drps => i.bareWord? .unspecified 5 0 0

end Instruction

end BranchWord
