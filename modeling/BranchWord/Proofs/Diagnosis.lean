/-
# `BranchWord.Proofs.Diagnosis` — what an error says of a word is so.

An error carries a group, a field and values, and each is written out where the error is raised.
`DecodeError.TrueOf` says what they have to be: the group is that of the word, the field is one that the group
checks, the value is what the word holds there, and a constant that is asked for is one that the word misses.

The errors of a group are true (`Group.trueOf_of_decode`), in the register group by a case for each constructor of
`Refusal`. A configured decoder adds the errors of its two filters, and those are true of the words that the
filters stop (`Decoder.trueOf_of_decode`). The three groups without a check refuse no word under any decoder
(`Decoder.exists_decode`).
-/
import BranchWord.Proofs.Features

namespace BranchWord

open Layout

/-! ## What errors say -/

/-- **What an error says of the word it was raised for**, by a decoder `d`. A word that is given is never short
of input. -/
def DecodeError.TrueOf (d : Decoder) (w : Word) : DecodeError → Prop
  | .exhaustedInput => False
  | .notBranch => Group.ofWord? w = none
  | .reservedBit g field => g = .conditional ∧ field = "o1" ∧ w.bit 24 = true
  | .unallocated g field value =>
    (g = .register ∧
      ((field = "op2" ∧ value = (w.field 16 5).setWidth 32) ∨
        (field = "opc" ∧ value = (w.field 21 4).setWidth 32) ∨
        (field = "op3" ∧ value = (w.field 10 6).setWidth 32))) ∨
    (g = .conditional ∧ field = "o0" ∧ value = 1 ∧ w.bit 4 = true ∧ d.hintedBranches = false)
  | .malformedField g field expected value =>
    g = .register ∧
      ((field = "Rn" ∧ value = (w.field 5 5).setWidth 32) ∨
        (field = "op4" ∧ value = (w.field 0 5).setWidth 32)) ∧
      (expected = 0 ∨ expected = 31) ∧ value ≠ expected

/-! ## The errors of a group -/

variable {d : Decoder} {w : Word} {e : DecodeError}

/-- **The errors of the register group are true**, field by field. -/
theorem Layout.Indirect.Refusal.trueOf (h : Indirect.Refusal (Indirect.ofWord w) e) :
    e.TrueOf d w := by
  cases h with
  | op2 _ => exact .inl ⟨rfl, .inl ⟨rfl, rfl⟩⟩
  | opc _ _ => exact .inl ⟨rfl, .inr (.inl ⟨rfl, rfl⟩)⟩
  | op3 _ _ _ => exact .inl ⟨rfl, .inr (.inr ⟨rfl, rfl⟩)⟩
  | rn _ hrow hmem hne =>
    obtain rfl := hrow.rn_constant hmem
    exact ⟨rfl, .inl ⟨rfl, rfl⟩, .inr rfl, mt (Word.setWidth_eq_iff (by decide) _ _).mp hne⟩
  | op4 _ hrow _ hmem hne =>
    refine ⟨rfl, .inr ⟨rfl, rfl⟩, ?_, mt (Word.setWidth_eq_iff (by decide) _ _).mp hne⟩
    rcases hrow.op4_constant hmem with rfl | rfl
    · exact .inl rfl
    · exact .inr rfl

/-- The errors of the register group name the register group. -/
theorem Layout.Indirect.Refusal.group?_eq {l : Indirect} (h : Indirect.Refusal l e) :
    e.group? = some .register := by
  cases h <;> rfl

namespace Group

/-- **The errors of a group are true**, and name the group. -/
theorem trueOf_of_decode {g : Group} (h : g.decode w = .error e) :
    e.group? = some g ∧ e.TrueOf d w := by
  cases g with
  | conditional =>
    obtain ⟨ho1, rfl⟩ := conditional_decode_eq_error_iff.mp h
    exact ⟨rfl, rfl, rfl, ho1⟩
  | unconditional | compare | test => cases h
  | register =>
    have hrefusal := Indirect.decode_eq_error_iff.mp h
    exact ⟨hrefusal.group?_eq, hrefusal.trueOf⟩

/-- The groups that check nothing accept every word. -/
theorem exists_decode {g : Group} (h : g ∈ [unconditional, compare, test]) (w : Word) :
    ∃ i, g.decode w = .ok i := by
  cases g with
  | unconditional | compare | test => exact ⟨_, rfl⟩
  | conditional | register => simp at h

end Group

/-! ## The errors of a decoder -/

namespace Decoder

/-- The full decoder's errors are true, and name the group of the word. -/
theorem trueOf_of_full_decode (h : full.decode w = .error e) :
    e.group? = Group.ofWord? w ∧ e.TrueOf d w := by
  rw [decode_full] at h
  cases hg : Group.ofWord? w with
  | none =>
    rw [hg] at h
    cases h
    exact ⟨rfl, hg⟩
  | some g =>
    rw [hg] at h
    exact Group.trueOf_of_decode h

/-- **The errors of a decoder are true**, and name the group of the word. -/
theorem trueOf_of_decode (h : d.decode w = .error e) :
    e.group? = Group.ofWord? w ∧ e.TrueOf d w := by
  rw [decode_eq_filters] at h
  split at h
  next hauth =>
    -- refused for want of pointer authentication, at `op3`
    cases h
    have hg : Group.register.pattern.Matches w := hauth.2.1
    exact ⟨(Group.ofWord?_eq_some_iff.mpr hg).symm, .inl ⟨rfl, .inr (.inr ⟨rfl, rfl⟩)⟩⟩
  next =>
    split at h
    next hhint =>
      -- refused for want of hinted branches, at `o0`
      cases h
      have hg := (conditional_region_iff.mp hhint.2.1).1
      exact ⟨(Group.ofWord?_eq_some_iff.mpr hg).symm, .inr ⟨rfl, rfl, rfl, hhint.2.2, hhint.1⟩⟩
    next => exact trueOf_of_full_decode h

/-- A word is no branch to a decoder exactly when it has no group. -/
theorem decode_eq_notBranch_iff : d.decode w = .error .notBranch ↔ Group.ofWord? w = none := by
  constructor
  · intro h
    exact (trueOf_of_decode h).2
  · intro h
    exact decode_of_not_matches d (Group.ofWord?_eq_none_iff.mp h)

/-- No decoder refuses a member of a group that checks nothing. -/
theorem exists_decode (d : Decoder) {g : Group} (hfree : g ∈ [Group.unconditional, .compare, .test])
    (hg : g.pattern.Matches w) : ∃ i, d.decode w = .ok i := by
  have hregister : g ≠ .register := by
    rintro rfl
    simp at hfree
  have hconditional : g ≠ .conditional := by
    rintro rfl
    simp at hfree
  rw [decode_of_unfiltered d hg hregister hconditional]
  exact Group.exists_decode hfree w

/-- **Every error tells the truth about the word.** For every decoder and every word:

* the word is no branch to the decoder exactly when it has no group;
* an error is never a want of input, and the group that it names is that of the word;
* a reserved bit is `o1` of a conditional branch, and the word has it set;
* an unallocated field is `op2`, `opc` or `op3` of the register group with the value that the word has there, or
  `o0` of a conditional branch that has it set, by a decoder without hinted branches;
* a malformed field is `Rn` or `op4` of the register group with the value that the word has there, which is not
  the expected one, 0 or 31;
* a member of one of the three groups that check nothing is accepted. -/
theorem errors_tell_the_truth (d : Decoder) (w : Word) :
    (d.decode w = .error .notBranch ↔ Group.ofWord? w = none) ∧
    (∀ e, d.decode w = .error e →
      e ≠ .exhaustedInput ∧ e.group? = Group.ofWord? w ∧ e.TrueOf d w) ∧
    (∀ g ∈ [Group.unconditional, .compare, .test], Group.ofWord? w = some g →
      ∃ i, d.decode w = .ok i) := by
  refine ⟨decode_eq_notBranch_iff, ?_, ?_⟩
  · intro e h
    obtain ⟨hgroup, htrue⟩ := trueOf_of_decode h
    refine ⟨?_, hgroup, htrue⟩
    rintro rfl
    exact htrue
  · intro g hfree hg
    exact exists_decode d hfree (Group.ofWord?_eq_some_iff.mp hg)

end Decoder

end BranchWord
