/-
# `BranchWord.Register` — the general registers and the stack pointer.

A register field has five bits. Read as an ordinary register, number 31 is the zero register of the
chosen size; read as the modifier of an authenticated branch, number 31 is the stack pointer. The two
readings share the 64-bit registers 0 to 30.
-/
import BranchWord.Word

namespace BranchWord

/-- The five bits by which an instruction names a register. -/
abbrev RegisterNumber := BitVec 5

/-- A register operand. -/
inductive Register where
  /-- the 64-bit register of a number; 31 is the zero register -/
  | x (number : RegisterNumber)
  /-- the 32-bit register of a number; 31 is the zero register -/
  | w (number : RegisterNumber)
  /-- the stack pointer -/
  | sp
  deriving DecidableEq, Repr

namespace Register

/-- The register number in the low five bits of a word; higher bits are not looked at. -/
def numberOf (word : Word) : RegisterNumber := word.field 0 5

/-- The register of a number in one of the two sizes. -/
def sized (is64Bit : Bool) (number : RegisterNumber) : Register :=
  if is64Bit then x number else w number

/-- The register that a modifier field names: number 31 is the stack pointer. -/
def modifier (number : RegisterNumber) : Register :=
  if number = 31#5 then sp else x number

/-- Whether a register has 64 bits. -/
def is64Bit : Register → Bool
  | x _ | sp => true
  | w _ => false

/-- The number that stands for a register in an instruction word. -/
def number : Register → RegisterNumber
  | x n | w n => n
  | sp => 31#5

/-- The place of a register in the list of all registers: 64-bit ones, 32-bit ones, stack pointer. -/
def ordinal : Register → Nat
  | x n => n.toNat
  | w n => 32 + n.toNat
  | sp => 64

/-! ## Names -/

/-- The identifier of a register in structured documents. -/
def ident : Register → String
  | x n => if n = 31#5 then "XZR" else "X" ++ Nat.repr n.toNat
  | w n => if n = 31#5 then "WZR" else "W" ++ Nat.repr n.toNat
  | sp => "SP"

/-- The name of a register in assembly text: its identifier in lower case. -/
def text (r : Register) : String := r.ident.toLower

/-- All registers, in the order of their ordinals. -/
def all : List Register :=
  (List.range 32).map (fun n => x (BitVec.ofNat 5 n)) ++
    (List.range 32).map (fun n => w (BitVec.ofNat 5 n)) ++ [sp]

/-- The register with a given identifier; upper and lower case differ. -/
def ofIdent? (name : String) : Option Register := all.find? (·.ident == name)

/-! ## Fields and registers -/

/-- The size of a sized register is the one asked for. -/
theorem is64Bit_sized (b : Bool) (n : RegisterNumber) : (sized b n).is64Bit = b := by
  cases b <;> rfl

theorem number_sized (b : Bool) (n : RegisterNumber) : (sized b n).number = n := by
  cases b <;> rfl

end Register

end BranchWord
