/-
# `BranchWord.Group` — the five groups of branch-class words.

A word belongs to a group when the bits that the group fixes hold the group's pattern:

    0101010- -------- -------- --------  conditional branch (immediate)
    -00101-- -------- -------- --------  unconditional branch (immediate)
    -011010- -------- -------- --------  compare and branch (immediate)
    -011011- -------- -------- --------  test and branch (immediate)
    1101011- -------- -------- --------  unconditional branch (register)

The five patterns exclude each other, so the order in which they are tried does not matter.
-/
import BranchWord.Word

namespace BranchWord

/-- A fixed value in a fixed field of the word. -/
structure Pattern where
  low : Nat
  width : Nat
  value : BitVec width

/-- A word matches a pattern when it holds the pattern's value in the pattern's field. -/
def Pattern.Matches (p : Pattern) (w : Word) : Prop := w.field p.low p.width = p.value

instance (p : Pattern) (w : Word) : Decidable (p.Matches w) :=
  inferInstanceAs (Decidable (w.field p.low p.width = p.value))

/-- The word that holds a pattern and zeros elsewhere. -/
def Pattern.word (p : Pattern) : Word := Word.place p.low p.value

/-- An encoding group of branch-class words. -/
inductive Group where
  /-- `b` and `bc` with a condition -/
  | conditional
  /-- `b` and `bl` -/
  | unconditional
  /-- `cbz` and `cbnz` -/
  | compare
  /-- `tbz` and `tbnz` -/
  | test
  /-- branches through a register, returns, and `drps` -/
  | register
  deriving DecidableEq, Repr

namespace Group

/-- All groups. -/
def all : List Group := [conditional, unconditional, compare, test, register]

/-- The bits that make a word a member of a group. -/
def pattern : Group → Pattern
  | conditional => ⟨25, 7, 0b0101010#7⟩
  | unconditional => ⟨26, 5, 0b00101#5⟩
  | compare => ⟨25, 6, 0b011010#6⟩
  | test => ⟨25, 6, 0b011011#6⟩
  | register => ⟨25, 7, 0b1101011#7⟩

/-- The group of a word, or `none` for a word that is some other kind of instruction. -/
def ofWord? (w : Word) : Option Group := all.find? fun g => g.pattern.Matches w

/-- The title of a group in messages. -/
def title : Group → String
  | conditional => "conditional branch (immediate)"
  | unconditional => "unconditional branch (immediate)"
  | compare => "compare and branch (immediate)"
  | test => "test and branch (immediate)"
  | register => "unconditional branch (register)"

theorem mem_all (g : Group) : g ∈ all := by cases g <;> decide

/-- The group of a word is one whose pattern the word matches. -/
theorem matches_of_ofWord? {w : Word} {g : Group} (h : ofWord? w = some g) : g.pattern.Matches w := by
  rw [ofWord?, List.find?_eq_some_iff_append] at h
  exact of_decide_eq_true h.1

/-- A word has no group exactly when it matches none of the patterns. -/
theorem ofWord?_eq_none_iff {w : Word} :
    ofWord? w = none ↔ ∀ g : Group, ¬ g.pattern.Matches w := by
  rw [ofWord?, List.find?_eq_none]
  constructor
  · intro h g hg
    exact h g (mem_all g) (decide_eq_true hg)
  · intro h g _ hg
    exact h g (of_decide_eq_true hg)

end Group

end BranchWord
