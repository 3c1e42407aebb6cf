/-
# `BranchWord.Proofs.Classification` — a word has at most one group.

The five patterns sit in three different windows of the word, and the windows overlap. All of them lie
in the top seven bits, so whether a word is a member of a group is a question about those seven bits, and
that no two groups share a word is checked on seven bits at a time (`eq_of_covers`).

From there the search behind `Group.ofWord?` loses its order: the group it finds is the group the word
matches (`ofWord?_eq_some_iff`), and a search through the groups in any other order finds the same one
(`find?_matches_eq_ofWord?`).
-/
import BranchWord.Group

namespace BranchWord.Group

/-! ## The patterns within the top seven bits -/

/-- The top seven bits of a word hold the pattern of a group. -/
def Covers (g : Group) (top : BitVec 7) : Prop :=
  top.extractLsb' (g.pattern.low - 25) g.pattern.width = g.pattern.value

instance (g : Group) (top : BitVec 7) : Decidable (g.Covers top) :=
  inferInstanceAs (Decidable (_ = _))

/-- Membership in a group depends on the top seven bits only. -/
theorem matches_iff_covers (g : Group) (w : Word) :
    g.pattern.Matches w ↔ g.Covers (w.field 25 7) := by
  have hlow : 25 + (g.pattern.low - 25) = g.pattern.low := by cases g <;> rfl
  have hwidth : g.pattern.low - 25 + g.pattern.width ≤ 7 := by cases g <;> decide
  unfold Covers Pattern.Matches
  rw [Word.extractLsb'_field w 25 hwidth, hlow]

/-- No seven bits hold the patterns of two groups. -/
theorem eq_of_covers {g h : Group} {top : BitVec 7} (hg : g.Covers top) (hh : h.Covers top) :
    g = h := by
  revert top
  -- every pair of groups against the 128 values of the top bits
  cases g <;> cases h <;> decide

/-- **The patterns exclude each other.** -/
theorem eq_of_matches {g h : Group} {w : Word} (hg : g.pattern.Matches w)
    (hh : h.pattern.Matches w) : g = h :=
  eq_of_covers ((matches_iff_covers g w).mp hg) ((matches_iff_covers h w).mp hh)

/-! ## The search for the group -/

/-- The group of a word is the one whose pattern the word matches. -/
theorem ofWord?_eq_some_iff {w : Word} {g : Group} :
    ofWord? w = some g ↔ g.pattern.Matches w := by
  refine ⟨?_, ?_⟩
  · exact matches_of_ofWord?
  · intro hg
    cases hw : ofWord? w with
    | none => exact absurd hg (ofWord?_eq_none_iff.mp hw g)
    | some h => rw [eq_of_matches (matches_of_ofWord? hw) hg]

/-- **The order of the search is immaterial.** Any list that has all groups in it serves. -/
theorem find?_matches_eq_ofWord? (w : Word) {order : List Group} (horder : ∀ g, g ∈ order) :
    order.find? (fun g => g.pattern.Matches w) = ofWord? w := by
  cases hw : ofWord? w with
  | none =>
    rw [List.find?_eq_none]
    intro g _ hg
    exact ofWord?_eq_none_iff.mp hw g (of_decide_eq_true hg)
  | some g =>
    have hg : g.pattern.Matches w := matches_of_ofWord? hw
    cases hfind : order.find? (fun g => decide (g.pattern.Matches w)) with
    | none => exact absurd (decide_eq_true hg) (List.find?_eq_none.mp hfind g (horder g))
    | some h =>
      -- whatever comes first in the list matches, and only `g` does
      have hh : h.pattern.Matches w := by simpa using List.find?_some hfind
      rw [eq_of_matches hh hg]

end BranchWord.Group
