/-
# `BranchWord.Document.Instruction` — instruction records as documents.

A record is a document with four fields: the mnemonic, the condition code or null, a list of exactly three
operands, and the category. An operand is the name `Nothing`, or one of the names `Register`, `Immediate`
and `PCOffset` with its value.

The four parts may also be listed in that order, without their keys. A list has all four of them and nothing
else, while in a record keys that mean nothing here are passed over and a missing condition is none. Reading
asks for no more than the shape: the record need not be one that a decoder produces.
-/
import BranchWord.Document
import BranchWord.Instruction

namespace BranchWord

/-! ## Writing -/

/-- The document of an operand. -/
def Operand.toDocument : Operand → Document
  | .nothing => .text "Nothing"
  | .register r => .record [("Register", .text r.ident)]
  | .immediate n => .record [("Immediate", .ofInt64 n)]
  | .pcOffset d => .record [("PCOffset", .ofInt64 d)]

/-- The document of an instruction record. -/
def Instruction.toDocument (i : Instruction) : Document :=
  .record [
    ("mnemonic", .text i.mnemonic.ident),
    ("condition_code", (i.condition.map fun c => Document.text c.ident).getD .null),
    ("operands", .list (i.operands.toList.map Operand.toDocument)),
    ("mnemonic_category", .text i.category.ident)]

/-! ## Reading -/

/-- The mnemonic that a document names. -/
def Mnemonic.ofDocument? (d : Document) : Option Mnemonic := d.name?.bind Mnemonic.ofIdent?

/-- The category that a document names. -/
def Category.ofDocument? (d : Document) : Option Category := d.name?.bind Category.ofIdent?

/-- The register that a document names. -/
def Register.ofDocument? (d : Document) : Option Register := d.name?.bind Register.ofIdent?

/-- The condition that a document names. -/
def Condition.ofDocument? (d : Document) : Option Condition := d.name?.bind Condition.ofIdent?

/-- The operand that a document describes. -/
def Operand.ofDocument? (d : Document) : Option Operand :=
  match d.alternative? with
  | some ("Nothing", none) | some ("Nothing", some .null) => some .nothing
  | some ("Register", some content) => (Register.ofDocument? content).map .register
  | some ("Immediate", some content) => content.int64?.map .immediate
  | some ("PCOffset", some content) => content.int64?.map .pcOffset
  | _ => none

/-- The operand slots that a document lists, three of them. -/
def Operands.ofDocument? : Document → Option Operands
  | .list [a, b, c] => do
    return {
      first := ← Operand.ofDocument? a
      second := ← Operand.ofDocument? b
      third := ← Operand.ofDocument? c }
  | _ => none

/-- The condition in a place that may be absent or null. -/
def Condition.ofPlace? : Option Document → Option (Option Condition)
  | none | some .null => some none
  | some d => (Condition.ofDocument? d).map some

/-- The instruction record with the given parts; only the condition can be absent. -/
def Instruction.ofParts? (mnemonic : Document) (condition : Option Document)
    (operands category : Document) : Option Instruction := do
  return {
    mnemonic := ← Mnemonic.ofDocument? mnemonic
    condition := ← Condition.ofPlace? condition
    operands := ← Operands.ofDocument? operands
    category := ← Category.ofDocument? category }

/-- The instruction record that a document describes, its parts listed in order or under their keys. -/
def Instruction.ofDocument? (d : Document) : Option Instruction :=
  match d with
  | .list [mnemonic, condition, operands, category] =>
    ofParts? mnemonic (some condition) operands category
  | _ => do
    ofParts? (← d.get? "mnemonic") (d.get? "condition_code") (← d.get? "operands")
      (← d.get? "mnemonic_category")

/-! ## What is written is read back -/

theorem Mnemonic.ofIdent?_ident (m : Mnemonic) : ofIdent? m.ident = some m := by cases m <;> rfl

theorem Category.ofIdent?_ident (c : Category) : ofIdent? c.ident = some c := by cases c <;> rfl

theorem Condition.ofIdent?_ident (c : Condition) : ofIdent? c.ident = some c := by cases c <;> rfl

theorem Register.ofIdent?_ident (r : Register) : ofIdent? r.ident = some r := by
  have hx : ∀ n : RegisterNumber, ofIdent? (x n).ident = some (x n) := by decide +kernel
  have hw : ∀ n : RegisterNumber, ofIdent? (w n).ident = some (w n) := by decide +kernel
  cases r with
  | x n => exact hx n
  | w n => exact hw n
  | sp => rfl

theorem Operand.ofDocument?_toDocument (o : Operand) : ofDocument? o.toDocument = some o := by
  cases o with
  | nothing => rfl
  | register r =>
    show (Register.ofIdent? r.ident).map Operand.register = some (.register r)
    rw [Register.ofIdent?_ident, Option.map_some]
  | immediate n =>
    show (Document.ofInt64 n).int64?.map Operand.immediate = some (.immediate n)
    rw [Document.int64?_ofInt64, Option.map_some]
  | pcOffset d =>
    show (Document.ofInt64 d).int64?.map Operand.pcOffset = some (.pcOffset d)
    rw [Document.int64?_ofInt64, Option.map_some]

theorem Operands.ofDocument?_toList (ops : Operands) :
    ofDocument? (.list (ops.toList.map Operand.toDocument)) = some ops := by
  simp only [toList, List.map_cons, List.map_nil, ofDocument?, Operand.ofDocument?_toDocument]
  rfl

theorem Condition.ofPlace?_toDocument (c : Option Condition) :
    ofPlace? (some ((c.map fun c => Document.text c.ident).getD .null)) = some c := by
  cases c with
  | none => rfl
  | some c =>
    show (ofIdent? c.ident).map some = some (some c)
    rw [ofIdent?_ident, Option.map_some]

/-- Every instruction record is read back from its document. -/
theorem Instruction.ofDocument?_toDocument (i : Instruction) :
    ofDocument? i.toDocument = some i := by
  have hm : Mnemonic.ofDocument? (.text i.mnemonic.ident) = some i.mnemonic :=
    Mnemonic.ofIdent?_ident i.mnemonic
  have hc : Category.ofDocument? (.text i.category.ident) = some i.category :=
    Category.ofIdent?_ident i.category
  have parts : ofDocument? i.toDocument =
      ofParts? (.text i.mnemonic.ident)
        (some ((i.condition.map fun c => Document.text c.ident).getD .null))
        (.list (i.operands.toList.map Operand.toDocument)) (.text i.category.ident) := rfl
  simp only [parts, ofParts?, hm, hc, Operands.ofDocument?_toList, Condition.ofPlace?_toDocument,
    Option.bind_eq_bind, Option.bind_some, Option.pure_def]

/-- Four parts in a list are read as the same parts under their keys. -/
theorem Instruction.ofDocument?_list (mnemonic condition operands category : Document) :
    ofDocument? (.list [mnemonic, condition, operands, category]) =
      ofDocument? (.record [("mnemonic", mnemonic), ("condition_code", condition),
        ("operands", operands), ("mnemonic_category", category)]) := rfl

end BranchWord
