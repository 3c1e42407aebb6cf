/-
# `BranchWord.Mnemonic` — the instructions and what kind of control flow they are.

Twenty-four branch-class instructions, and `invalid` for a record that holds no instruction. The
instructions with pointer authentication check a signature on their target before they branch:
`a` and `b` in the names choose the key, and a final `z` stands for a modifier of zero.
-/

namespace BranchWord

/-- The instruction that a record holds, or `invalid`. -/
inductive Mnemonic where
  | invalid
  | b | bl | bc
  | tbz | tbnz | cbz | cbnz
  | br | braa | brab | braaz | brabz
  | blr | blraa | blrab | blraaz | blrabz
  | ret | retaa | retab
  | eret | eretaa | eretab
  | drps
  deriving DecidableEq, Repr

namespace Mnemonic

/-- All mnemonics, in declaration order. -/
def all : List Mnemonic :=
  [invalid, b, bl, bc, tbz, tbnz, cbz, cbnz, br, braa, brab, braaz, brabz,
    blr, blraa, blrab, blraaz, blrabz, ret, retaa, retab, eret, eretaa, eretab, drps]

/-- The identifier of a mnemonic in structured documents. -/
def ident : Mnemonic → String
  | invalid => "Invalid"
  | b => "B" | bl => "BL" | bc => "BC"
  | tbz => "TBZ" | tbnz => "TBNZ" | cbz => "CBZ" | cbnz => "CBNZ"
  | br => "BR" | braa => "BRAA" | brab => "BRAB" | braaz => "BRAAZ" | brabz => "BRABZ"
  | blr => "BLR" | blraa => "BLRAA" | blrab => "BLRAB" | blraaz => "BLRAAZ" | blrabz => "BLRABZ"
  | ret => "RET" | retaa => "RETAA" | retab => "RETAB"
  | eret => "ERET" | eretaa => "ERETAA" | eretab => "ERETAB"
  | drps => "DRPS"

/-- The mnemonic with a given identifier; upper and lower case differ. -/
def ofIdent? (name : String) : Option Mnemonic := all.find? (·.ident == name)

/-- The name of a mnemonic in assembly text: its identifier in lower case. -/
def text (m : Mnemonic) : String := m.ident.toLower

/-- The place of a mnemonic in declaration order, from 0. -/
def ordinal (m : Mnemonic) : Nat := all.idxOf m

/-- The instructions that authenticate their branch target. -/
def authenticates : Mnemonic → Bool
  | braa | brab | braaz | brabz
  | blraa | blrab | blraaz | blrabz
  | retaa | retab | eretaa | eretab => true
  | _ => false

end Mnemonic

/-- What an instruction does to the flow of control, as a builder of call graphs wants to know it. -/
inductive Category where
  | unspecified | branch | conditionalBranch | ret
  deriving DecidableEq, Repr

namespace Category

/-- All categories, in declaration order. -/
def all : List Category := [unspecified, branch, conditionalBranch, ret]

/-- The identifier of a category in structured documents. -/
def ident : Category → String
  | unspecified => "Unspecified"
  | branch => "Branch"
  | conditionalBranch => "ConditionalBranch"
  | ret => "Return"

/-- The category with a given identifier; upper and lower case differ. -/
def ofIdent? (name : String) : Option Category := all.find? (·.ident == name)

end Category

end BranchWord
