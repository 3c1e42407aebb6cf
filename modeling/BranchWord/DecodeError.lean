/-
# `BranchWord.DecodeError` — why a word was not decoded.

A word is refused for one of four causes: it is no branch, a reserved bit is set, a field holds a value
that no instruction has, or a field that must hold one constant holds another. The last three name the
group that the word was decoded as and the field at fault. A fifth error says that there was no word,
because the input ended.
-/
import BranchWord.Group
import BranchWord.Numeral

namespace BranchWord

/-- Why no instruction was decoded. -/
inductive DecodeError where
  /-- the input ended before a whole word was read -/
  | exhaustedInput
  /-- the word is in none of the groups -/
  | notBranch
  /-- a bit that must be zero is set -/
  | reservedBit (group : Group) (field : String)
  /-- a field holds a value with no assigned encoding -/
  | unallocated (group : Group) (field : String) (value : Word)
  /-- a field that must hold a constant holds something else -/
  | malformedField (group : Group) (field : String) (expected value : Word)
  deriving DecidableEq, Repr

/-- Why a byte reader could not deliver a byte. -/
inductive ReadError where
  | exhausted | unreadable
  deriving DecidableEq, Repr

namespace DecodeError

/-- The causes without their details. -/
inductive Kind where
  | exhaustedInput | notBranch | reservedBit | unallocated | malformedField
  deriving DecidableEq, Repr

/-- A phrase for each cause. -/
def Kind.description : Kind → String
  | .exhaustedInput => "exhausted input"
  | .notBranch => "not a branch instruction"
  | .reservedBit => "reserved bit set"
  | .unallocated => "unallocated encoding"
  | .malformedField => "malformed fixed field"

/-- The cause of an error. -/
def kind : DecodeError → Kind
  | .exhaustedInput => .exhaustedInput
  | .notBranch => .notBranch
  | .reservedBit .. => .reservedBit
  | .unallocated .. => .unallocated
  | .malformedField .. => .malformedField

/-- The group that the word was decoded as, if it got that far. -/
def group? : DecodeError → Option Group
  | .exhaustedInput | .notBranch => none
  | .reservedBit g _ | .unallocated g _ _ | .malformedField g _ _ _ => some g

/-- The field at fault, if there is one. -/
def field? : DecodeError → Option String
  | .exhaustedInput | .notBranch => none
  | .reservedBit _ f | .unallocated _ f _ | .malformedField _ f _ _ => some f

/-- Whether more input could have helped. -/
def isExhausted (e : DecodeError) : Bool := e.kind = .exhaustedInput

/-- Whether the word names no instruction at all. -/
def isBadOpcode (e : DecodeError) : Bool :=
  e.kind = .notBranch || e.kind = .reservedBit || e.kind = .unallocated

/-- Whether the word names an instruction and gets one of its constants wrong. -/
def isBadOperand (e : DecodeError) : Bool := e.kind = .malformedField

/-- The text of an error: group, field and values, the values in binary. -/
def message : DecodeError → String
  | .exhaustedInput => Kind.exhaustedInput.description
  | .notBranch => Kind.notBranch.description
  | .reservedBit g f => g.title ++ ": reserved bit " ++ f ++ " is set"
  | .unallocated g f v => g.title ++ ": unallocated " ++ f ++ " = " ++ Numeral.binary v
  | .malformedField g f e v =>
    g.title ++ ": " ++ f ++ " must be " ++ Numeral.binary e ++ ", was " ++ Numeral.binary v

/-- A reader that fails has no more input to decode, whatever made it fail. -/
def ofReadError : ReadError → DecodeError
  | .exhausted | .unreadable => .exhaustedInput

/-- The group and the field at fault are known together. -/
theorem isSome_group?_eq (e : DecodeError) : e.group?.isSome = e.field?.isSome := by
  cases e <;> rfl

/-- Each error is of exactly one of the three classes. -/
theorem class_exhaustive (e : DecodeError) :
    (e.isExhausted, e.isBadOpcode, e.isBadOperand) ∈
      [(true, false, false), (false, true, false), (false, false, true)] := by
  cases e <;> simp [isExhausted, isBadOpcode, isBadOperand, kind]

end DecodeError

end BranchWord
