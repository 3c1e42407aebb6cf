/-
# `BranchWord.Document` — structured values.

A document is a tree of the usual kind: null, flags, numbers, texts, lists and records. Integers are kept
exactly. A number that is not written as an integer, with a fraction, an exponent or a minus sign before
zero, is a different thing and is kept as it is written. A record has each key once.
-/

namespace BranchWord

/-- A structured value. -/
inductive Document where
  | null
  | flag (b : Bool)
  | integer (n : Int)
  /-- a number that is not written as an integer -/
  | decimal (literal : String)
  | text (s : String)
  | list (items : List Document)
  | record (fields : List (String × Document))
  deriving Repr

namespace Document

/-- The record of a list of fields. Where a key is repeated its last value stands. -/
def ofFields (fields : List (String × Document)) : Document :=
  .record (fields.foldl (fun kept f => kept.filter (·.1 ≠ f.1) ++ [f]) [])

/-- The value under a key of a record. -/
def get? (d : Document) (key : String) : Option Document :=
  match d with
  | .record fields => fields.lookup key
  | _ => none

/-- A document that names one alternative of several: a text is the name alone, and a record with one field
is the name with what belongs to it. -/
def alternative? : Document → Option (String × Option Document)
  | .text name => some (name, none)
  | .record [(name, content)] => some (name, some content)
  | _ => none

/-- The name of an alternative that nothing belongs to; an explicit null counts as nothing. -/
def name? (d : Document) : Option String :=
  match d.alternative? with
  | some (name, none) | some (name, some .null) => some name
  | _ => none

/-- An integer in the signed 64-bit range. -/
def int64? : Document → Option Int64
  | .integer n => if Int64.minValue.toInt ≤ n ∧ n ≤ Int64.maxValue.toInt then some (Int64.ofInt n) else none
  | _ => none

/-- The document of a signed 64-bit integer. -/
def ofInt64 (n : Int64) : Document := .integer n.toInt

/-- A signed 64-bit integer is read back from its document. -/
theorem int64?_ofInt64 (n : Int64) : (ofInt64 n).int64? = some n := by
  simp only [ofInt64, int64?, Int64.ofInt_toInt]
  rw [if_pos ⟨n.minValue_le_toInt, n.toInt_le⟩]

end Document

end BranchWord
