/-
# `BranchWord.Layout.Indirect` — branches through a register, returns, and `drps`.

    1101011 opc op2 op3 Rn op4

Most of this group is unallocated. The fields are looked at in the order `op2`, `opc`, `op3`, `Rn`, `op4`,
and a word is refused at the first field that leaves no instruction possible. That order is the shape of
the definitions: `op2` is one constant, `opc` chooses a family, `op3` chooses a row in the table of the family
(a `Form`), and the row says what `Rn` and `op4` must hold and which instruction the word is.

In all tables but that of `drps`, `op3` is 0 for the plain instruction and 2 or 3 for the one that
authenticates its target with key A or key B. The returns from an exception check `op2` once more for
themselves; asked for through `decode`, they find it in order.
-/
import BranchWord.Group
import BranchWord.DecodeError
import BranchWord.Instruction

namespace BranchWord.Layout

open Word (place)

/-- The fields `opc op2 op3 Rn op4`. -/
structure Indirect where
  opc : BitVec 4
  op2 : BitVec 5
  op3 : BitVec 6
  rn : BitVec 5
  op4 : BitVec 5
  deriving DecidableEq, Repr

namespace Indirect

/-- The fields of a word read as a branch through a register. -/
def ofWord (w : Word) : Indirect where
  opc := w.field 21 4
  op2 := w.field 16 5
  op3 := w.field 10 6
  rn := w.field 5 5
  op4 := w.field 0 5

/-- The branch through a register with given fields. -/
def toWord (l : Indirect) : Word :=
  Group.register.pattern.word ||| place 21 l.opc ||| place 16 l.op2 ||| place 10 l.op3 |||
    place 5 l.rn ||| place 0 l.op4

/-! ## Instructions of the group -/

/-- How the instruction of a row is made from the last two fields. -/
inductive Shape where
  /-- a branch to the address in register `Rn` -/
  | jump (m : Mnemonic)
  /-- a branch to the authenticated address in `Rn`, with the modifier register that `op4` names -/
  | jumpModified (m : Mnemonic)
  /-- the first if `op4` is 31, which stands for a modifier of zero, and else the second -/
  | jumpEither (zero modified : Mnemonic)
  /-- a return whose target is implied -/
  | impliedReturn (m : Mnemonic)
  /-- a return to the address in `Rn`; register 30 is the usual one and stays implied -/
  | returnTo (m : Mnemonic)
  /-- the restore of the processor state on leaving debug state -/
  | restore
  deriving DecidableEq, Repr

/-- The target register alone, in the first slot. -/
def target (rn : BitVec 5) : Operands := { first := .register (.x rn) }

/-- The target register and then the modifier register. -/
def targetAndModifier (rn op4 : BitVec 5) : Operands :=
  { first := .register (.x rn), second := .register (Register.modifier op4) }

/-- The instruction of a shape. -/
def Shape.instruction (rn op4 : BitVec 5) : Shape → Instruction
  | .jump m => { mnemonic := m, operands := target rn, category := .branch }
  | .jumpModified m => { mnemonic := m, operands := targetAndModifier rn op4, category := .branch }
  | .jumpEither zero modified =>
    if op4 = 31#5 then
      { mnemonic := zero, operands := target rn, category := .branch }
    else
      { mnemonic := modified, operands := targetAndModifier rn op4, category := .branch }
  | .impliedReturn m => { mnemonic := m, category := .ret }
  | .returnTo m =>
    { mnemonic := m, operands := if rn = 30#5 then {} else target rn, category := .ret }
  | .restore => { mnemonic := .drps, category := .unspecified }

/-! ## The tables -/

/-- A row of a table: the constants that the last two fields must hold, if any, and the instruction. -/
structure Form where
  /-- the constant that `Rn` must hold -/
  rn? : Option (BitVec 5) := none
  /-- the constant that `op4` must hold -/
  op4? : Option (BitVec 5) := none
  /-- the instruction -/
  shape : Shape
  deriving DecidableEq, Repr

/-- Rows by `op3`; a missing row is unallocated. -/
abbrev Table := BitVec 6 → Option Form

/-- Branches. -/
def branchTable : Table
  | 0#6 => some { op4? := some 0#5, shape := .jump .br }
  | 2#6 => some { op4? := some 31#5, shape := .jump .braaz }
  | 3#6 => some { op4? := some 31#5, shape := .jump .brabz }
  | _ => none

/-- Branches with a modifier register; there is no plain one. -/
def modifiedBranchTable : Table
  | 2#6 => some { shape := .jumpModified .braa }
  | 3#6 => some { shape := .jumpModified .brab }
  | _ => none

/-- Branches with link. -/
def callTable : Table
  | 0#6 => some { op4? := some 0#5, shape := .jump .blr }
  | 2#6 => some { shape := .jumpEither .blraaz .blraa }
  | 3#6 => some { shape := .jumpEither .blrabz .blrab }
  | _ => none

/-- Returns from a subroutine. -/
def returnTable : Table
  | 0#6 => some { op4? := some 0#5, shape := .returnTo .ret }
  | 2#6 => some { rn? := some 31#5, op4? := some 31#5, shape := .impliedReturn .retaa }
  | 3#6 => some { rn? := some 31#5, op4? := some 31#5, shape := .impliedReturn .retab }
  | _ => none

/-- Returns from an exception. -/
def exceptionReturnTable : Table
  | 0#6 => some { rn? := some 31#5, op4? := some 0#5, shape := .impliedReturn .eret }
  | 2#6 => some { rn? := some 31#5, op4? := some 31#5, shape := .impliedReturn .eretaa }
  | 3#6 => some { rn? := some 31#5, op4? := some 31#5, shape := .impliedReturn .eretab }
  | _ => none

/-- The debug restore, in every row. -/
def restoreTable : Table := fun _ => some { shape := .restore }

/-- The families of the group, by what their instructions do. -/
inductive Family where
  /-- branches -/
  | branch
  /-- branches with a modifier register -/
  | modifiedBranch
  /-- branches with link, with and without a modifier register -/
  | call
  /-- returns from a subroutine -/
  | ret
  /-- returns from an exception -/
  | exceptionReturn
  /-- the debug restore -/
  | restore
  deriving DecidableEq, Repr

/-- The table of a family. -/
def Family.table : Family → Table
  | .branch => branchTable
  | .modifiedBranch => modifiedBranchTable
  | .call => callTable
  | .ret => returnTable
  | .exceptionReturn => exceptionReturnTable
  | .restore => restoreTable

/-- Families by `opc`; a missing family is unallocated. Branches with link have two values. -/
def family? : BitVec 4 → Option Family
  | 0b0000#4 => some .branch
  | 0b0001#4 => some .call
  | 0b0010#4 => some .ret
  | 0b0100#4 => some .exceptionReturn
  | 0b0101#4 => some .restore
  | 0b1000#4 => some .modifiedBranch
  | 0b1001#4 => some .call
  | _ => none

/-- Tables by `opc`. -/
def table? (opc : BitVec 4) : Option Table := (family? opc).map Family.table

/-! ## Decoding -/

/-- The error of a field whose value has no assigned encoding. -/
def unallocated {n : Nat} (field : String) (value : BitVec n) : DecodeError :=
  .unallocated .register field (value.setWidth 32)

/-- The error of a field that does not hold its constant. -/
def malformed {n : Nat} (field : String) (expected value : BitVec n) : DecodeError :=
  .malformedField .register field (expected.setWidth 32) (value.setWidth 32)

/-- The instruction of a row, once `Rn` and then `op4` have been checked against their constants. -/
def Form.decode (form : Form) (rn op4 : BitVec 5) : Except DecodeError Instruction :=
  match form.rn?.filter (· ≠ rn), form.op4?.filter (· ≠ op4) with
  | some expected, _ => .error (malformed "Rn" expected rn)
  | none, some expected => .error (malformed "op4" expected op4)
  | none, none => .ok (form.shape.instruction rn op4)

/-- The instruction of the fields in a table: `op3` chooses the row, and a missing row is unallocated. -/
def decodeIn (l : Indirect) (table : Table) : Except DecodeError Instruction :=
  match table l.op3 with
  | none => .error (unallocated "op3" l.op3)
  | some form => form.decode l.rn l.op4

/-- The instruction of the fields as a return from an exception. The family does not rely on its caller for
`op2`. -/
def decodeExceptionReturn (l : Indirect) : Except DecodeError Instruction :=
  if l.op2 ≠ 31#5 then
    .error (unallocated "op2" l.op2)
  else
    l.decodeIn exceptionReturnTable

/-- The instruction of the fields in a family. -/
def Family.decode (l : Indirect) : Family → Except DecodeError Instruction
  | .exceptionReturn => l.decodeExceptionReturn
  | family => l.decodeIn family.table

/-- **Branch through a register.** The fields are checked in the order `op2`, `opc`, `op3`, `Rn`, `op4`. -/
def decode (l : Indirect) : Except DecodeError Instruction :=
  if l.op2 ≠ 31#5 then
    .error (unallocated "op2" l.op2)
  else
    match family? l.opc with
    | none => .error (unallocated "opc" l.opc)
    | some family => family.decode l

/-- Whether the fields lie in the space that pointer authentication adds to the group: the tables with a
modifier register as a whole, and the authenticated rows of the others. -/
def isAuthenticated (l : Indirect) : Bool :=
  l.op2 = 31#5 &&
    (l.opc ∈ [0b1000#4, 0b1001#4] ||
      l.opc ∈ [0b0000#4, 0b0001#4, 0b0010#4, 0b0100#4] && l.op3 ∈ [2#6, 3#6])

/-! ## The second look at `op2` -/

/-- With `op2` in order, a family is its table. -/
theorem Family.decode_of_op2 {l : Indirect} (hop2 : l.op2 = 31#5) (family : Family) :
    family.decode l = l.decodeIn family.table := by
  cases family with
  | exceptionReturn => exact if_neg (not_not_intro hop2)
  | branch | modifiedBranch | call | ret | restore => rfl

/-- **Behind the first look at `op2` the second decides nothing**: decoding is the same with the bare tables. -/
theorem decode_eq_tables (l : Indirect) :
    l.decode =
      if l.op2 ≠ 31#5 then .error (unallocated "op2" l.op2)
      else match table? l.opc with
        | none => .error (unallocated "opc" l.opc)
        | some table => l.decodeIn table := by
  unfold decode table?
  split
  · rfl
  next hop2 =>
    have hop2 : l.op2 = 31#5 := Decidable.of_not_not hop2
    cases family? l.opc with
    | none => rfl
    | some family => exact Family.decode_of_op2 hop2 family

/-! ## Fields are read back as they were written -/

theorem ofWord_toWord (l : Indirect) : ofWord l.toWord = l := by
  cases l
  simp [ofWord, toWord, Pattern.word, Group.pattern, Word.field_or, Word.field_place_of_le,
    Word.field_place_of_add_le, Word.field_place_self]

end Indirect

end BranchWord.Layout
