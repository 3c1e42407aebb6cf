/-
# `BranchWord.Checked.Arithmetic` — fixed-width arithmetic that can fault.

A machine's shifts, subtractions and table lookups have conditions: an amount below the width, no borrow,
an index inside the table. Here every such operation checks its condition and faults when it does not hold,
so a computation that succeeds has met all of them on the way.

From these primitives come the helpers that cut a field out of a word and extend a field with its sign.
Each helper starts with the conditions that its caller must meet; the shifts inside must then never fault.
-/
import BranchWord.Word

namespace BranchWord

/-- A condition of an operation that did not hold. -/
inductive Fault where
  /-- a field that reaches past the end of the word -/
  | fieldOutsideWord
  /-- a bit that is not in the word -/
  | bitOutsideWord
  /-- a sign extension to fewer bits, or to more than 64 -/
  | widthsOutOfOrder
  /-- a sign extension from no bits, or from more than 64 -/
  | widthOutOfRange
  /-- a scale of 64 bits or more -/
  | scaleOutOfRange
  /-- a shift by the width of the shifted value or more -/
  | shiftOverflow
  /-- a subtraction with a negative result -/
  | subtractionOverflow
  /-- a product that does not fit into 64 bits -/
  | productOverflow
  /-- an index past the end of a table -/
  | indexOutOfRange
  /-- more operands than there are slots -/
  | tooManyOperands
  deriving DecidableEq, Repr

/-- A computation that may fault. -/
abbrev Checked := Except Fault

namespace Checked

/-! ## Primitives -/

/-- Goes on if a condition holds, and faults otherwise. -/
def require (condition : Bool) (fault : Fault) : Checked Unit :=
  if condition then .ok () else .error fault

/-- A difference that must not be negative. -/
def sub (a b : Nat) : Checked Nat :=
  if b ≤ a then .ok (a - b) else .error .subtractionOverflow

/-- A left shift by less than the width. -/
def shiftLeft {n : Nat} (v : BitVec n) (amount : Nat) : Checked (BitVec n) :=
  if amount < n then .ok (v <<< amount) else .error .shiftOverflow

/-- A right shift by less than the width, filling with zeros. -/
def shiftRight {n : Nat} (v : BitVec n) (amount : Nat) : Checked (BitVec n) :=
  if amount < n then .ok (v >>> amount) else .error .shiftOverflow

/-- A right shift by less than the width, filling with the sign. -/
def signedShiftRight {n : Nat} (v : BitVec n) (amount : Nat) : Checked (BitVec n) :=
  if amount < n then .ok (v.sshiftRight amount) else .error .shiftOverflow

/-- A product that must fit into 64 signed bits. -/
def mul (a b : Int64) : Checked Int64 :=
  if (a * b).toInt = a.toInt * b.toInt then .ok (a * b) else .error .productOverflow

/-- An entry of a table. -/
def lookup {α : Type} (table : List α) (i : Nat) : Checked α :=
  match table[i]? with
  | some entry => .ok entry
  | none => .error .indexOutOfRange

/-! ## Sequencing -/

@[simp] theorem ok_bind {α β : Type} (a : α) (f : α → Checked β) :
    (Except.ok a >>= f : Checked β) = f a := rfl

@[simp] theorem error_bind {α β : Type} (fault : Fault) (f : α → Checked β) :
    (Except.error fault >>= f : Checked β) = .error fault := rfl

@[simp] theorem pure_eq_ok {α : Type} (a : α) : (pure a : Checked α) = .ok a := rfl

/-- A computation whose first condition holds goes on. -/
theorem require_bind {α : Type} {condition : Bool} (h : condition = true) (fault : Fault)
    (next : Unit → Checked α) : (require condition fault >>= next) = next () := by
  simp [require, h]

/-- A computation whose first condition does not hold is that fault. -/
theorem require_bind_fault {α : Type} {condition : Bool} (h : condition = false) (fault : Fault)
    (next : Unit → Checked α) : (require condition fault >>= next) = .error fault := by
  simp [require, h]

/-! ## Fields -/

/-- The `width` bits of a word from bit `low` upwards, as a word. A field of no bits is zero wherever it
starts. -/
def field (w : Word) (low width : Nat) : Checked Word := do
  require (low + width ≤ 32) .fieldOutsideWord
  if width = 0 then
    return 0
  else
    let shifted ← shiftRight w low
    let mask ← shiftRight (BitVec.allOnes 32) (← sub 32 width)
    return shifted &&& mask

/-- Bit `n` of a word. -/
def bit (w : Word) (n : Nat) : Checked Bool := do
  require (n < 32) .bitOutsideWord
  let shifted ← shiftRight w n
  return shifted &&& 1 = 1

/-! ## Sign extension -/

/-- The low `width` bits of a value as a signed number, times two to the power `scale`; the product
wraps. -/
def signedScaled (v : BitVec 64) (width scale : Nat) : Checked Int64 := do
  require (0 < width && width ≤ 64) .widthOutOfRange
  require (scale < 64) .scaleOutOfRange
  let unused ← sub 64 width
  let atTop ← shiftLeft v unused
  let extended ← signedShiftRight atTop unused
  return Int64.ofBitVec (extended <<< scale)

/-- The low `width` bits of a value as a signed number that is meant to fit into `target` bits. -/
def signedWithin (v : BitVec 64) (width target : Nat) : Checked Int64 := do
  require (width ≤ target && target ≤ 64) .widthsOutOfOrder
  signedScaled v width 0

/-- The low `width` bits of a value as a signed number. -/
def signed (v : BitVec 64) (width : Nat) : Checked Int64 := signedScaled v width 0

end Checked

end BranchWord
