/-
# `BranchWord.Checked.Decoder` — decoding in machine arithmetic.

The decoders once more, step by step as a machine with 32-bit and 64-bit registers takes them: every field
is cut out by shifts and a mask, every offset is extended and scaled in 64 bits, every condition, register
and table is looked up by index, and every operand needs a slot. Each step is one that faults when its
condition does not hold (`BranchWord.Checked.Arithmetic`). A fault is not a decode error: it would mean that
a decoder asked its machine for something impossible.
-/
import BranchWord.Checked.Arithmetic
import BranchWord.Fetch

namespace BranchWord.Checked

/-! ## Tables and slots -/

/-- The condition of a code. -/
def condition (code : Word) : Checked Condition := lookup Condition.all (code &&& 0xf).toNat

/-- The register of a number in one of the two sizes, from a table of 32. -/
def register (is64Bit : Bool) (number : Word) : Checked Register :=
  lookup ((List.range 32).map fun n => Register.sized is64Bit (BitVec.ofNat 5 n))
    (number &&& 0x1f).toNat

/-- The register of a modifier number: the stack pointer is not in the table. -/
def modifier (number : Word) : Checked Register :=
  if number &&& 0x1f = 31 then .ok .sp else register true number

/-- Operands in their slots. -/
def slots (ops : List Operand) : Checked Operands := do
  require (ops.length ≤ 3) .tooManyOperands
  return Operands.ofList ops

/-! ## Groups with an offset -/

/-- A conditional branch. The offset field is scaled first and extended afterwards. -/
def conditional (w : Word) : Checked (Except DecodeError Instruction) := do
  if ← bit w 24 then
    return .error (.reservedBit .conditional "o1")
  else
    let imm19 ← field w 5 19
    let offset ← signedWithin (← shiftLeft (imm19.setWidth 64) 2) 21 64
    let cond ← condition (← field w 0 4)
    let mnemonic := if ← bit w 4 then .bc else .b
    let operands ← slots [.pcOffset offset]
    return .ok { mnemonic, condition := some cond, operands, category := .conditionalBranch }

/-- An unconditional branch. The offset field is scaled first and extended afterwards. -/
def unconditional (w : Word) : Checked (Except DecodeError Instruction) := do
  let imm26 ← field w 0 26
  let offset ← signedWithin (← shiftLeft (imm26.setWidth 64) 2) 28 64
  let mnemonic := if ← bit w 31 then .bl else .b
  let operands ← slots [.pcOffset offset]
  return .ok { mnemonic, operands, category := .branch }

/-- Compare and branch. The offset field is extended first and scaled afterwards. -/
def compare (w : Word) : Checked (Except DecodeError Instruction) := do
  let sf ← bit w 31
  let imm19 ← field w 5 19
  let rt ← field w 0 5
  let offset ← mul (← signed (imm19.setWidth 64) 19) 4
  let mnemonic := if ← bit w 24 then .cbnz else .cbz
  let operands ← slots [.register (← register sf rt), .pcOffset offset]
  return .ok { mnemonic, operands, category := .conditionalBranch }

/-- Test and branch. The offset field is extended first and scaled afterwards. -/
def test (w : Word) : Checked (Except DecodeError Instruction) := do
  let b5 ← bit w 31
  let b40 ← field w 19 5
  let imm14 ← field w 5 14
  let rt ← field w 0 5
  let tested := if b5 then b40 ||| 0x20 else b40
  let offset ← mul (← signed (imm14.setWidth 64) 14) 4
  let mnemonic := if ← bit w 24 then .tbnz else .tbz
  let operands ← slots
    [.register (← register b5 rt), .immediate (Int64.ofBitVec (tested.setWidth 64)), .pcOffset offset]
  return .ok { mnemonic, operands, category := .conditionalBranch }

/-! ## Branches through a register -/

open Layout (Indirect)

/-- The families of the group, by `opc`. -/
def families : List (Option Indirect.Family) :=
  [some .branch, some .call, some .ret, none, some .exceptionReturn, some .restore, none, none,
    some .modifiedBranch, some .call, none, none, none, none, none, none]

/-- The instruction of a row from the last two fields. A row that needs the target register takes it from `target`,
a look-up that has been made or one that is still to be made. -/
def shape (target : Checked Register) (rn op4 : Word) : Indirect.Shape → Checked Instruction
  | .jump m => do
    let operands ← slots [.register (← target)]
    return { mnemonic := m, operands, category := .branch }
  | .jumpModified m => do
    let operands ← slots [.register (← target), .register (← modifier op4)]
    return { mnemonic := m, operands, category := .branch }
  | .jumpEither zero modified => do
    let target ← target
    if op4 = 31 then
      let operands ← slots [.register target]
      return { mnemonic := zero, operands, category := .branch }
    else
      let operands ← slots [.register target, .register (← modifier op4)]
      return { mnemonic := modified, operands, category := .branch }
  | .impliedReturn m => return { mnemonic := m, category := .ret }
  | .returnTo m => do
    if rn = 30 then
      return { mnemonic := m, category := .ret }
    else
      let operands ← slots [.register (← target)]
      return { mnemonic := m, operands, category := .ret }
  | .restore => return { mnemonic := .drps, category := .unspecified }

/-- A row: the constants, then the instruction. -/
def form (target : Checked Register) (rn op4 : Word) (f : Indirect.Form) :
    Checked (Except DecodeError Instruction) := do
  let wanted (constant? : Option (BitVec 5)) (value : Word) : Option Word :=
    (constant?.map (·.setWidth 32)).filter (· ≠ value)
  match wanted f.rn? rn, wanted f.op4? op4 with
  | some expected, _ => return .error (.malformedField .register "Rn" expected rn)
  | none, some expected => return .error (.malformedField .register "op4" expected op4)
  | none, none => return .ok (← shape target rn op4 f.shape)

/-- The row of a table, if there is one under `op3`. -/
def row (table : Indirect.Table) (target : Checked Register) (op3 rn op4 : Word) :
    Checked (Except DecodeError Instruction) :=
  match table (op3.setWidth 6) with
  | none => return .error (.unallocated .register "op3" op3)
  | some f => form target rn op4 f

/-- The instruction of a family. Branches look up their target register before they look at any field, so also for
words that they go on to refuse; a return to a register looks it up in its row. -/
def family (f : Indirect.Family) (op2 op3 rn op4 : Word) : Checked (Except DecodeError Instruction) := do
  match f with
  | .branch | .modifiedBranch | .call =>
    let target ← register true rn
    row f.table (return target) op3 rn op4
  | .exceptionReturn =>
    if op2 ≠ 31 then
      return .error (.unallocated .register "op2" op2)
    else
      row f.table (register true rn) op3 rn op4
  | .ret | .restore => row f.table (register true rn) op3 rn op4

/-- A branch through a register. -/
def indirect (w : Word) : Checked (Except DecodeError Instruction) := do
  let opc ← field w 21 4
  let op2 ← field w 16 5
  let op3 ← field w 10 6
  let rn ← field w 5 5
  let op4 ← field w 0 5
  if op2 ≠ 31 then
    return .error (.unallocated .register "op2" op2)
  else
    match ← lookup families (opc &&& 0xf).toNat with
    | none => return .error (.unallocated .register "opc" opc)
    | some f => family f op2 op3 rn op4

/-! ## Words -/

/-- The group of a word: the patterns that fix seven bits are tried first. -/
def group? (w : Word) : Checked (Option Group) := do
  let topSeven ← field w 25 7
  if topSeven = 0b0101010 then
    return some .conditional
  else if topSeven = 0b1101011 then
    return some .register
  else
    let fiveBelowTop ← field w 26 5
    if fiveBelowTop = 0b00101 then
      return some .unconditional
    else
      let sixBelowTop ← field w 25 6
      if sixBelowTop = 0b011010 then
        return some .compare
      else if sixBelowTop = 0b011011 then
        return some .test
      else
        return none

/-- The instruction of a word read as a member of a group. -/
def decodeAs (g : Group) (w : Word) : Checked (Except DecodeError Instruction) :=
  match g with
  | .conditional => conditional w
  | .unconditional => unconditional w
  | .compare => compare w
  | .test => test w
  | .register => indirect w

/-- Whether a word of group `g` lies in the space that pointer authentication adds. -/
def isAuthenticated (g : Group) (w : Word) : Checked Bool := do
  if g = .register then
    let op3 ← field w 10 6
    let op2 ← field w 16 5
    if op2 = 31 then
      let opc ← field w 21 4
      return opc = 8 || opc = 9 ||
        (opc = 0 || opc = 1 || opc = 2 || opc = 4) && (op3 = 2 || op3 = 3)
    else
      return false
  else
    return false

/-- The instruction of a word under a decoder. -/
def decode (d : Decoder) (w : Word) : Checked (Except DecodeError Instruction) := do
  match ← group? w with
  | none => return .error .notBranch
  | some g =>
    let refused ← if d.pointerAuth then pure false else isAuthenticated g w
    if refused then
      return .error (.unallocated g "op3" (← field w 10 6))
    else
      match ← decodeAs g w with
      | .error e => return .error e
      | .ok i => return if d.lacksHintedBranches i then .error (.unallocated g "o0" 1) else .ok i

/-- A fetch of the next instruction of a stream into a record. -/
def fetchInto (d : Decoder) (record : Instruction) (s : Stream) : Checked Fetch :=
  match s.readWord with
  | .error e => .ok { result := .error (.ofReadError e), record := record, stream := s, log := [] }
  | .ok (w, rest) => do
    match ← decode d w with
    | .ok i => return { result := .ok (), record := i, stream := rest, log := [] }
    | .error e => return { result := .error e, record := .blank, stream := rest, log := [⟨w, e⟩] }

end BranchWord.Checked
