/-
# `BranchWord.Instruction` — the decoded instruction record.

A record has a mnemonic, a condition where the instruction tests the flags, three operand slots and a
category. Unused slots hold `Operand.nothing`. The blank record is the one a reader of instructions starts
with and falls back to.

A record says where its branch goes: `branchTarget` adds the first relative operand to the address of the
instruction. A branch through a register has no target that the record alone could tell.
-/
import BranchWord.Condition
import BranchWord.Register
import BranchWord.Mnemonic

namespace BranchWord

/-! ## Operands -/

/-- The content of an operand slot. -/
inductive Operand where
  | nothing
  | register (r : Register)
  | immediate (value : Int64)
  /-- a byte displacement from the address of the instruction itself -/
  | pcOffset (d : Int64)
  deriving DecidableEq, Repr

/-- The kinds of operand. -/
inductive OperandKind where
  | none | register | immediate | pcRelative
  deriving DecidableEq, Repr

/-- The kind of an operand. -/
def Operand.kind : Operand → OperandKind
  | .nothing => .none
  | .register _ => .register
  | .immediate _ => .immediate
  | .pcOffset _ => .pcRelative

/-- The register in a slot, if it holds one. -/
def Operand.register? : Operand → Option Register
  | .register r => some r
  | _ => none

/-- The displacement in a slot, if it holds one. -/
def Operand.pcOffset? : Operand → Option Int64
  | .pcOffset d => some d
  | _ => none

/-- The three operand slots of a record. -/
structure Operands where
  first : Operand := .nothing
  second : Operand := .nothing
  third : Operand := .nothing
  deriving DecidableEq, Repr

namespace Operands

/-- The slots in order. -/
def toList (ops : Operands) : List Operand := [ops.first, ops.second, ops.third]

/-- The slots filled from a list: missing operands leave their slots empty, and operands past the third
have no slot. -/
def ofList : List Operand → Operands
  | [] => {}
  | [a] => { first := a }
  | [a, b] => { first := a, second := b }
  | a :: b :: c :: _ => { first := a, second := b, third := c }

/-- How many slots are used before the first empty one. -/
def count (ops : Operands) : Nat := (ops.toList.takeWhile (· ≠ .nothing)).length

/-- The registers among the operands, in slot order. -/
def registers (ops : Operands) : List Register := ops.toList.filterMap Operand.register?

/-- The first displacement among the operands. -/
def pcOffset? (ops : Operands) : Option Int64 := ops.toList.findSome? Operand.pcOffset?

end Operands

/-! ## The record -/

/-- A decoded instruction. -/
structure Instruction where
  mnemonic : Mnemonic
  /-- the condition tested, by `b` and `bc` with a condition only -/
  condition : Option Condition := none
  operands : Operands := {}
  category : Category
  deriving DecidableEq, Repr

namespace Instruction

/-- The record that holds no instruction. -/
def blank : Instruction := { mnemonic := .invalid, category := .unspecified }

instance : Inhabited Instruction := ⟨blank⟩

/-- Whether the record holds an instruction. -/
def isWellDefined (i : Instruction) : Bool := i.mnemonic ≠ .invalid

/-- The size of an instruction in bytes. Every instruction has the same size. -/
def size : Nat := 4

/-- The address after an instruction at `address`; it wraps at the end of the address space. -/
def nextAddress (address : Address) : Address := address + BitVec.ofNat 64 size

/-- Where the branch of an instruction at `address` goes, if the record has a relative operand; the sum
wraps at both ends of the address space. -/
def branchTarget (i : Instruction) (address : Address) : Option Address :=
  i.operands.pcOffset?.map fun d => address + d.toBitVec

end Instruction

end BranchWord
