/-
# `BranchWord.Proofs.Decoding` — decoding a word, group by group.

`Decoder.decode` finds the group of a word, asks whether pointer authentication is missing, decodes the
word as a member of the group and asks whether hinted branches are missing. The lemmas here say what comes
out of that once the group is known, so that no later proof looks inside the definition:

* `decode_of_matches` — the whole of it, for a word that matches the pattern of a group;
* `full_decode_of_matches` — the full decoder is the decoder of the group;
* `decode_eq_ok_iff` — what an accepted word has passed;
* `full_decode_eq_notBranch_iff` — which words have no group.

The conditional group is the only one with an offset that can refuse a word (`conditional_decode_eq_ok_iff`).
-/
import BranchWord.Decoder
import BranchWord.Proofs.Classification
import BranchWord.Proofs.Rows

namespace BranchWord

open Layout

/-! ## Members of a group -/

namespace Group

/-- The record of a word read as a conditional branch. -/
def conditionalRecord (w : Word) : Instruction where
  mnemonic := if w.bit 4 then .bc else .b
  condition := some (Condition.ofBits (w.field 0 4))
  operands := { first := .pcOffset (displacement (w.field 5 19)) }
  category := .conditionalBranch

theorem conditional_decode (w : Word) :
    conditional.decode w =
      if w.bit 24 then .error (.reservedBit .conditional "o1") else .ok (conditionalRecord w) :=
  rfl

/-- A conditional branch decodes exactly when its bit `o1` is zero. -/
theorem conditional_decode_eq_ok_iff {w : Word} {i : Instruction} :
    conditional.decode w = .ok i ↔ w.bit 24 = false ∧ i = conditionalRecord w := by
  rw [conditional_decode]
  cases w.bit 24 with
  | true => simp
  | false => simp [eq_comm]

/-- A conditional branch is refused only for its bit `o1`. -/
theorem conditional_decode_eq_error_iff {w : Word} {e : DecodeError} :
    conditional.decode w = .error e ↔ w.bit 24 = true ∧ e = .reservedBit .conditional "o1" := by
  rw [conditional_decode]
  cases w.bit 24 with
  | true => simp [eq_comm]
  | false => simp

/-- No group calls its members something other than branches. -/
theorem decode_ne_notBranch (g : Group) (w : Word) : g.decode w ≠ .error .notBranch := by
  intro h
  cases g with
  | conditional => cases (conditional_decode_eq_error_iff.mp h).2
  | unconditional | compare | test => cases h
  | register => cases Indirect.decode_eq_error_iff.mp h

/-- No group asks for more input. -/
theorem decode_ne_exhausted (g : Group) (w : Word) : g.decode w ≠ .error .exhaustedInput := by
  intro h
  cases g with
  | conditional => cases (conditional_decode_eq_error_iff.mp h).2
  | unconditional | compare | test => cases h
  | register => cases Indirect.decode_eq_error_iff.mp h

/-! ### The instructions of a group -/

/-- The mnemonics that the members of a group can have. -/
def mnemonics : Group → List Mnemonic
  | conditional => [.b, .bc]
  | unconditional => [.b, .bl]
  | compare => [.cbz, .cbnz]
  | test => [.tbz, .tbnz]
  | register => [.br, .braa, .brab, .braaz, .brabz, .blr, .blraa, .blrab, .blraaz, .blrabz,
      .ret, .retaa, .retab, .eret, .eretaa, .eretab, .drps]

/-- A flag that chooses between two mnemonics gives one of the two. -/
theorem ite_mem_pair (flag : Bool) (yes no : Mnemonic) : (if flag then yes else no) ∈ [no, yes] := by
  cases flag <;> simp

theorem row_mnemonic_mem {opc : BitVec 4} {op3 : BitVec 6} {form : Indirect.Form}
    (hrow : Indirect.Row opc op3 form) (rn op4 : BitVec 5) :
    (form.shape.instruction rn op4).mnemonic ∈ register.mnemonics := by
  by_cases h : op4 = 31#5 <;> cases hrow <;> simp [mnemonics, Indirect.Shape.instruction, h]

/-- An accepted member of a group is one of the group's instructions. -/
theorem mnemonic_mem {g : Group} {w : Word} {i : Instruction} (h : g.decode w = .ok i) :
    i.mnemonic ∈ g.mnemonics := by
  cases g with
  | conditional =>
    obtain ⟨_, rfl⟩ := conditional_decode_eq_ok_iff.mp h
    exact ite_mem_pair ..
  | unconditional | compare | test =>
    cases h
    exact ite_mem_pair ..
  | register =>
    obtain ⟨_, form, hrow, _, rfl⟩ := Indirect.decode_eq_ok_iff.mp h
    exact row_mnemonic_mem hrow _ _

end Group

/-! ## The full decoder -/

namespace Decoder

/-- On a member of a group, the full decoder is the decoder of the group. -/
theorem full_decode_of_matches {g : Group} {w : Word} (hg : g.pattern.Matches w) :
    full.decode w = g.decode w := by
  rw [decode_full, Group.ofWord?_eq_some_iff.mpr hg]

/-- What the full decoder accepts, it accepts in a group. -/
theorem full_decode_eq_ok_iff {w : Word} {i : Instruction} :
    full.decode w = .ok i ↔ ∃ g : Group, g.pattern.Matches w ∧ g.decode w = .ok i := by
  refine ⟨?_, ?_⟩
  · intro h
    rw [decode_full] at h
    cases hw : Group.ofWord? w with
    | none =>
      rw [hw] at h
      cases h
    | some g =>
      rw [hw] at h
      exact ⟨g, Group.ofWord?_eq_some_iff.mp hw, h⟩
  · rintro ⟨g, hg, h⟩
    rw [full_decode_of_matches hg, h]

/-- The words that the full decoder does not call branches are those without a group. -/
theorem full_decode_eq_notBranch_iff {w : Word} :
    full.decode w = .error .notBranch ↔ ∀ g : Group, ¬ g.pattern.Matches w := by
  refine ⟨?_, ?_⟩
  · intro h g hg
    rw [full_decode_of_matches hg] at h
    exact Group.decode_ne_notBranch g w h
  · intro h
    rw [decode_full, Group.ofWord?_eq_none_iff.mpr h]

/-! ## Any decoder -/

/-- A word without a group is no branch to any decoder. -/
theorem decode_of_not_matches (d : Decoder) {w : Word} (h : ∀ g : Group, ¬ g.pattern.Matches w) :
    d.decode w = .error .notBranch := by
  rw [decode, Group.ofWord?_eq_none_iff.mpr h]

/-- **Decoding a member of a group**: the gate of pointer authentication, the group, the gate of hinted
branches. -/
theorem decode_of_matches (d : Decoder) {g : Group} {w : Word} (hg : g.pattern.Matches w) :
    d.decode w =
      if d.lacksPointerAuth g w then
        .error (Indirect.unallocated "op3" (w.field 10 6))
      else
        match g.decode w with
        | .error e => .error e
        | .ok i => if d.lacksHintedBranches i then .error (.unallocated g "o0" 1) else .ok i := by
  rw [decode, Group.ofWord?_eq_some_iff.mpr hg]
  rfl

/-- A word that is given is never short of input. -/
theorem decode_ne_exhausted (d : Decoder) (w : Word) : d.decode w ≠ .error .exhaustedInput := by
  intro h
  cases hw : Group.ofWord? w with
  | none =>
    rw [decode_of_not_matches d (Group.ofWord?_eq_none_iff.mp hw)] at h
    cases h
  | some g =>
    rw [decode_of_matches d (Group.ofWord?_eq_some_iff.mp hw)] at h
    split at h
    · cases h
    · split at h
      next e he =>
        cases h
        exact Group.decode_ne_exhausted g w he
      next i _ => split at h <;> cases h

/-- **What an accepted word has passed**: both gates and the checks of its group. -/
theorem decode_eq_ok_iff {d : Decoder} {w : Word} {i : Instruction} :
    d.decode w = .ok i ↔ ∃ g : Group, g.pattern.Matches w ∧ d.lacksPointerAuth g w = false ∧
      g.decode w = .ok i ∧ d.lacksHintedBranches i = false := by
  refine ⟨?_, ?_⟩
  · intro h
    cases hw : Group.ofWord? w with
    | none =>
      rw [decode, hw] at h
      cases h
    | some g =>
      have hg : g.pattern.Matches w := Group.ofWord?_eq_some_iff.mp hw
      -- an instruction comes out of the innermost branch only
      rw [decode_of_matches d hg] at h
      split at h
      · cases h
      next hauth =>
        split at h
        · cases h
        next j hj =>
          split at h
          · cases h
          next hhint =>
            cases h
            exact ⟨g, hg, Bool.eq_false_iff.mpr hauth, hj, Bool.eq_false_iff.mpr hhint⟩
  · rintro ⟨g, hg, hauth, hj, hhint⟩
    rw [decode_of_matches d hg, hauth, hj]
    simp only [hhint, Bool.false_eq_true, if_false]

/-- What a decoder accepts, the full decoder accepts with the same result. -/
theorem full_decode_of_decode {d : Decoder} {w : Word} {i : Instruction} (h : d.decode w = .ok i) :
    full.decode w = .ok i := by
  obtain ⟨g, hg, _, hi, _⟩ := decode_eq_ok_iff.mp h
  exact full_decode_eq_ok_iff.mpr ⟨g, hg, hi⟩

end Decoder

end BranchWord
