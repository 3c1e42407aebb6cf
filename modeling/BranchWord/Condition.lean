/-
# `BranchWord.Condition` — the sixteen condition codes.

Every four-bit value names a condition, and the codes of opposite conditions differ in the lowest bit
only. `al` and `nv` both mean "always"; they are each other's opposite in the encoding as well.
-/
import BranchWord.Word

namespace BranchWord

/-- The condition of a conditional branch, in the order of the codes. -/
inductive Condition where
  | eq | ne | hs | lo | mi | pl | vs | vc | hi | ls | ge | lt | gt | le | al | nv
  deriving DecidableEq, Repr

namespace Condition

/-- All conditions, in the order of their codes. -/
def all : List Condition := [eq, ne, hs, lo, mi, pl, vs, vc, hi, ls, ge, lt, gt, le, al, nv]

/-- The four-bit code of a condition. -/
def bits : Condition → BitVec 4
  | eq => 0b0000#4 | ne => 0b0001#4 | hs => 0b0010#4 | lo => 0b0011#4
  | mi => 0b0100#4 | pl => 0b0101#4 | vs => 0b0110#4 | vc => 0b0111#4
  | hi => 0b1000#4 | ls => 0b1001#4 | ge => 0b1010#4 | lt => 0b1011#4
  | gt => 0b1100#4 | le => 0b1101#4 | al => 0b1110#4 | nv => 0b1111#4

/-- The condition with a given code. -/
def ofBits (code : BitVec 4) : Condition :=
  match code.toNat with
  | 0 => eq | 1 => ne | 2 => hs | 3 => lo
  | 4 => mi | 5 => pl | 6 => vs | 7 => vc
  | 8 => hi | 9 => ls | 10 => ge | 11 => lt
  | 12 => gt | 13 => le | 14 => al | _ => nv

/-- The condition named by the low four bits of a byte. -/
def ofByte (byte : Byte) : Condition := ofBits (byte.setWidth 4)

/-- The opposite condition: the code with its lowest bit flipped. -/
def invert (c : Condition) : Condition := ofBits (c.bits ^^^ 0b0001#4)

/-! ## Names -/

/-- The identifier of a condition in structured documents. -/
def ident : Condition → String
  | eq => "EQ" | ne => "NE" | hs => "HS" | lo => "LO"
  | mi => "MI" | pl => "PL" | vs => "VS" | vc => "VC"
  | hi => "HI" | ls => "LS" | ge => "GE" | lt => "LT"
  | gt => "GT" | le => "LE" | al => "AL" | nv => "NV"

/-- The condition with a given identifier; upper and lower case differ. -/
def ofIdent? (name : String) : Option Condition := all.find? (·.ident == name)

/-- The suffix of a condition in assembly text: its identifier in lower case. -/
def text (c : Condition) : String := c.ident.toLower

/-! ## Codes and conditions correspond -/

theorem ofBits_bits (c : Condition) : ofBits c.bits = c := by cases c <;> rfl

theorem bits_ofBits : ∀ code : BitVec 4, (ofBits code).bits = code := by decide

/-- Inverting twice gives the condition back. -/
theorem invert_invert (c : Condition) : c.invert.invert = c := by cases c <;> rfl

/-- Inverting is flipping the lowest bit of the code. -/
theorem bits_invert (c : Condition) : c.invert.bits = c.bits ^^^ 0b0001#4 := bits_ofBits _

end Condition

end BranchWord
