/-
# `BranchWord.Proofs.Repair` — a malformed field is repaired by the constant that the error asks for.

An error of the kind `malformedField` names a field of the register group and the constant that it should hold.
`Word.repair` puts the constant there and leaves every other bit alone. The row of the word is chosen by fields
that a repair does not touch, so the constants of the row stay the same while the fields are put right one after
the other: `Rn` first, which the checks look at first, and then `op4`.

* `decode_repaired_rn`, `decode_repaired_op4` — what one repair makes of the fields under a row;
* `decode_repair` — the step: the repaired word is accepted, or `Rn` was repaired and now `op4` is malformed;
* `Decoder.repair` — the step as a function on words;
* `exists_iterate_repair` — one step or two reach an accepted word.

A decoder without pointer authentication refuses the words of that space before it looks at `Rn` and `op4`. A word
with a malformed field was not one of them, and its repaired words are not either (`decode_repaired`).
-/
import Mathlib.Logic.Function.Iterate
import BranchWord.Proofs.Diagnosis
import BranchWord.Proofs.Normalization
import BranchWord.Proofs.Viability

namespace BranchWord

open Layout Indirect

/-! ## The repair of a field -/

/-- The word with the named one of the fields `Rn` and `op4` put to a constant. No other field is ever
malformed. -/
def Word.repair (w : Word) (field : String) (expected : Word) : Word :=
  if field = "Rn" then w.overwrite 5 (expected.setWidth 5)
  else if field = "op4" then w.overwrite 0 (expected.setWidth 5)
  else w

/-- One step of repairing a word: the constant that its error asks for, if its error asks for one. -/
def Decoder.repair (d : Decoder) (w : Word) : Word :=
  match d.decode w with
  | .error (.malformedField _ field expected _) => w.repair field expected
  | _ => w

theorem Word.repair_rn (w : Word) (c : BitVec 5) :
    w.repair "Rn" (c.setWidth 32) = w.overwrite 5 c := by
  rw [repair, if_pos rfl, setWidth_back c (by decide)]

theorem Word.repair_op4 (w : Word) (c : BitVec 5) :
    w.repair "op4" (c.setWidth 32) = w.overwrite 0 c := by
  rw [repair, if_neg (by decide), if_pos rfl, setWidth_back c (by decide)]

namespace Layout.Indirect

theorem ofWord_overwrite_rn (w : Word) (c : BitVec 5) :
    ofWord (w.overwrite 5 c) = { ofWord w with rn := c } := by
  simp [ofWord, Word.field_overwrite_of_disjoint, Word.field_overwrite_self]

theorem ofWord_overwrite_op4 (w : Word) (c : BitVec 5) :
    ofWord (w.overwrite 0 c) = { ofWord w with op4 := c } := by
  simp [ofWord, Word.field_overwrite_of_disjoint, Word.field_overwrite_self]

/-! ## Under a row -/

variable {l : Indirect} {form : Form} {c : BitVec 5}

/-- With the right `Rn`, the fields under a row decode, or `op4` is malformed. -/
theorem decode_repaired_rn (hop2 : l.op2 = 31#5) (hrow : Row l.opc l.op3 form) (hc : c ∈ form.rn?) :
    (∃ i, { l with rn := c }.decode = .ok i) ∨
      ∃ c', { l with rn := c }.decode = .error (malformed "op4" c' l.op4) := by
  have hrn : ∀ expected ∈ form.rn?, c = expected := fun _ hmem => Option.mem_unique hc hmem
  by_cases hop4 : ∀ expected ∈ form.op4?, l.op4 = expected
  · left
    exact exists_decode_of_row hop2 hrow ⟨hrn, hop4⟩
  · right
    simp only [not_forall] at hop4
    obtain ⟨c', hmem, hne⟩ := hop4
    exact ⟨c', decode_eq_error_iff.mpr (.op4 hop2 hrow hrn hmem hne)⟩

/-- With the right `Rn` and the right `op4`, the fields under a row decode. -/
theorem decode_repaired_op4 (hop2 : l.op2 = 31#5) (hrow : Row l.opc l.op3 form)
    (hrn : ∀ expected ∈ form.rn?, l.rn = expected) (hc : c ∈ form.op4?) :
    ∃ i, { l with op4 := c }.decode = .ok i :=
  exists_decode_of_row hop2 hrow ⟨hrn, fun _ hmem => Option.mem_unique hc hmem⟩

end Layout.Indirect

/-! ## Under a decoder -/

/-- No field from bit 10 upwards is touched by a repair, `opc` and `op3` among them. -/
theorem Word.field_repair (w : Word) (field : String) (expected : Word) {low : Nat} (width : Nat)
    (h : 10 ≤ low) : (w.repair field expected).field low width = w.field low width := by
  unfold repair
  split
  · exact field_overwrite_of_disjoint _ w (.inr (by omega))
  · split
    · exact field_overwrite_of_disjoint _ w (.inr (by omega))
    · rfl

/-- A repair leaves the fields that choose the row, and with them the authenticated space, as they were. -/
theorem Word.agreeOnFirst_repair (w : Word) (field : String) (expected : Word) :
    Word.AgreeOnFirst 3 (w.repair field expected) w := by
  intro f hf
  cases f with
  | op2 | opc | op3 => exact w.field_repair field expected _ (by decide)
  | rn | op4 => exact absurd hf (by decide)

namespace Decoder

variable {d : Decoder} {w : Word} {g : Group} {field : String} {expected value : Word}

/-- **A word with a malformed field** is a member of the register group that no filter stops. -/
theorem register_of_malformed (h : d.decode w = .error (.malformedField g field expected value)) :
    Group.register.pattern.Matches w ∧ ¬ (d.pointerAuth = false ∧ w.InAuthenticatedSpace) ∧
      Refusal (ofWord w) (.malformedField g field expected value) := by
  obtain ⟨hgroup, rfl, _⟩ := trueOf_of_decode h
  have hg : Group.register.pattern.Matches w := Group.ofWord?_eq_some_iff.mp hgroup.symm
  rw [decode_register d hg] at h
  split at h
  next => cases h
  next hpass => exact ⟨hg, hpass, decode_eq_error_iff.mp h⟩

/-- The filters let the repaired word pass as they did the word. -/
theorem decode_repaired (hg : Group.register.pattern.Matches w)
    (hpass : ¬ (d.pointerAuth = false ∧ w.InAuthenticatedSpace)) :
    d.decode (w.repair field expected) = (ofWord (w.repair field expected)).decode := by
  have hgroup : Group.register.pattern.Matches (w.repair field expected) :=
    (w.field_repair field expected 7 (by decide)).trans hg
  rw [decode_register d hgroup, if_neg]
  · rfl
  · rintro ⟨hoff, hspace⟩
    exact hpass ⟨hoff, (w.agreeOnFirst_repair field expected).inAuthenticatedSpace hspace hg⟩

/-- **One repair**: the word is accepted, or `Rn` was repaired and now `op4` is malformed. -/
theorem decode_repair (h : d.decode w = .error (.malformedField g field expected value)) :
    (∃ i, d.decode (w.repair field expected) = .ok i) ∨
      (field = "Rn" ∧ ∃ expected' value', d.decode (w.repair field expected) =
        .error (.malformedField .register "op4" expected' value')) := by
  obtain ⟨hg, hpass, hrefusal⟩ := register_of_malformed h
  rw [decode_repaired hg hpass]
  cases hrefusal with
  | rn hop2 hrow hmem _ =>
    rw [Word.repair_rn, ofWord_overwrite_rn]
    rcases decode_repaired_rn hop2 hrow hmem with hi | ⟨c, hc⟩
    · exact .inl hi
    · exact .inr ⟨rfl, _, _, hc⟩
  | op4 hop2 hrow hrn hmem _ =>
    rw [Word.repair_op4, ofWord_overwrite_op4]
    exact .inl (decode_repaired_op4 hop2 hrow hrn hmem)

/-! ## Repairing until the word is accepted -/

theorem repair_of_malformed (h : d.decode w = .error (.malformedField g field expected value)) :
    d.repair w = w.repair field expected := by
  simp only [repair, h]

/-- However often a word is repaired, no field from bit 10 upwards is touched. -/
theorem field_iterate_repair (d : Decoder) (w : Word) (n : Nat) {low : Nat} (width : Nat) (h : 10 ≤ low) :
    (d.repair^[n] w).field low width = w.field low width := by
  induction n generalizing w with
  | zero => rfl
  | succ n ih =>
    rw [Function.iterate_succ_apply, ih]
    unfold repair
    split
    · exact w.field_repair _ _ width h
    · rfl

/-- A word with a malformed field is accepted after one repair or after two. -/
theorem exists_iterate_repair (h : d.decode w = .error (.malformedField g field expected value)) :
    ∃ n, 1 ≤ n ∧ n ≤ 2 ∧ ∃ i, d.decode (d.repair^[n] w) = .ok i := by
  have hfirst := decode_repair h
  rw [← repair_of_malformed h] at hfirst
  rcases hfirst with hi | ⟨_, expected', value', herror⟩
  · exact ⟨1, by decide, by decide, hi⟩
  · refine ⟨2, by decide, by decide, ?_⟩
    show ∃ i, d.decode (d.repair (d.repair w)) = .ok i
    rw [repair_of_malformed herror]
    -- this time the error named `op4`, which is the last field to be checked
    exact (decode_repair herror).resolve_right fun hrn => absurd hrn.1 (by decide)

/-- **A malformed field is repaired by the constant that its error asks for.** If a decoder refuses a word for a
malformed field, then

* the word with that field put to the expected constant is accepted by the same decoder, unless the field was `Rn`
  and `op4` is now malformed;
* repairing the word again and again reaches an accepted word at the first or at the second repair;
* no field from bit 10 upwards has changed by then, so `opc` and `op3` are those of the word. -/
theorem malformed_field_repairable (d : Decoder) (w : Word)
    (h : d.decode w = .error (.malformedField g field expected value)) :
    ((∃ i, d.decode (w.repair field expected) = .ok i) ∨
      (field = "Rn" ∧ ∃ expected' value', d.decode (w.repair field expected) =
        .error (.malformedField .register "op4" expected' value'))) ∧
    ∃ n, 1 ≤ n ∧ n ≤ 2 ∧ (∃ i, d.decode (d.repair^[n] w) = .ok i) ∧
      (d.repair^[n] w).field 21 4 = w.field 21 4 ∧ (d.repair^[n] w).field 10 6 = w.field 10 6 ∧
      (d.repair^[n] w).field 10 22 = w.field 10 22 := by
  refine ⟨decode_repair h, ?_⟩
  obtain ⟨n, hpos, htwo, hi⟩ := exists_iterate_repair h
  exact ⟨n, hpos, htwo, hi, field_iterate_repair d w n 4 (by decide),
    field_iterate_repair d w n 6 (by decide), field_iterate_repair d w n 22 (by decide)⟩

/-- A return from an exception with both constants wrong, under the decoder of the base instruction set: the first
repair leaves `op4` malformed. -/
theorem eret_repaired :
    baseline.decode 0xd69f0001#32 = .error (.malformedField .register "Rn" 31 0) ∧
      baseline.decode (baseline.repair 0xd69f0001#32) = .error (.malformedField .register "op4" 0 1) ∧
      ∃ n, 1 ≤ n ∧ n ≤ 2 ∧ ∃ i, baseline.decode (baseline.repair^[n] 0xd69f0001#32) = .ok i := by
  have herror : baseline.decode 0xd69f0001#32 = .error (.malformedField .register "Rn" 31 0) := rfl
  obtain ⟨_, n, hpos, htwo, hi, _⟩ := malformed_field_repairable baseline 0xd69f0001#32 herror
  exact ⟨herror, rfl, n, hpos, htwo, hi⟩

end Decoder

end BranchWord
