/-
# `BranchWord.Proofs.Modifier` — the branches with a modifier register.

Two values of `opc` have a modifier register in `op4`: 1000 for branches and 1001 for branches with link. In both,
`op3` chooses the key. They are not alike at the number 31:

* under 1000 the table has no other instruction for these `op3`, so every `op4` is a modifier, and 31 is the stack
  pointer (`Row.modifiedBranch`);
* under 1001 the table is that of the plain calls, in which 31 is a modifier of zero and only the other numbers are
  modifiers (`Row.keyedCall`).

`modifier_forms` says what each of these words is. So a decoded call never has the stack pointer as its modifier
(`not_callsWithStackPointer`), and the encodings that would give it one are those that `RoundTrip` finds lost.
-/
import BranchWord.Proofs.Features
import BranchWord.Proofs.RoundTrip

namespace BranchWord

open Layout Indirect

/-! ## The key of a row -/

/-- One of two mnemonics, by the key that `op3` chooses. -/
def byKey (op3 : BitVec 6) (keyA keyB : Mnemonic) : Mnemonic := if op3 = 2#6 then keyA else keyB

variable {opc : BitVec 4} {op3 : BitVec 6}

/-- The two rows of branches with a modifier register. -/
theorem Layout.Indirect.Row.modifiedBranch (h : Keyed op3) :
    Row 0b1000#4 op3 { shape := .jumpModified (byKey op3 .braa .brab) } := by
  rcases h with rfl | rfl
  · exact .braa
  · exact .brab

/-- The two rows of authenticated branches with link. -/
theorem Layout.Indirect.Row.keyedCall (hopc : IsCall opc) (h : Keyed op3) :
    Row opc op3 { shape := .jumpEither (byKey op3 .blraaz .blrabz) (byKey op3 .blraa .blrab) } := by
  rcases h with rfl | rfl
  · exact .blraa hopc
  · exact .blrab hopc

/-- A row either fixes the mnemonic to another one or asks whether `op4` is 31, the number of the stack pointer. -/
theorem Layout.Indirect.Row.not_callsWithStackPointer {form : Form} (hrow : Row opc op3 form) (rn op4 : BitVec 5) :
    ¬ (form.shape.instruction rn op4).CallsWithStackPointer := by
  rintro ⟨hcall, hsecond⟩
  revert hcall hsecond
  by_cases hop4 : op4 = 31#5 <;> cases hrow <;>
    simp [Shape.instruction, targetAndModifier, Register.modifier, hop4]

/-! ## Words of a row -/

namespace Decoder

variable {w : Word}

/-- Under a row without constants every word is accepted. -/
theorem full_decode_of_free_row {shape : Shape} (hg : w.field 25 7 = 0b1101011#7)
    (hop2 : w.field 16 5 = 0b11111#5) (hrow : Row (w.field 21 4) (w.field 10 6) { shape := shape }) :
    full.decode w = .ok (shape.instruction (w.field 5 5) (w.field 0 5)) := by
  rw [full_decode_of_matches (g := .register) hg]
  exact Indirect.decode_eq_ok_iff.mpr ⟨hop2, _, hrow, Form.admits_none .., rfl⟩

/-- **The branches with a modifier register.** Take a word of the register group with `op2` all ones and a key in
`op3`.

* Under `opc` 1000 it is the branch of its key, with the target that `Rn` names and the modifier that `op4` names.
  Every `op4` is a modifier, and 31 names the stack pointer.
* Under `opc` 1001 it is the branch with link of its key, with the same operands, as long as `op4` is not 31.
* Under `opc` 1001 with `op4` 31 it is the branch with link with a modifier of zero, with the target alone. -/
theorem modifier_forms (w : Word) (hg : w.field 25 7 = 0b1101011#7) (hop2 : w.field 16 5 = 0b11111#5)
    (hop3 : Keyed (w.field 10 6)) :
    (w.field 21 4 = 0b1000#4 → full.decode w = .ok {
      mnemonic := byKey (w.field 10 6) .braa .brab
      operands := {
        first := .register (.x (w.field 5 5))
        second := .register (Register.modifier (w.field 0 5)) }
      category := .branch }) ∧
    (w.field 21 4 = 0b1000#4 → w.field 0 5 = 31#5 → full.decode w = .ok {
      mnemonic := byKey (w.field 10 6) .braa .brab
      operands := { first := .register (.x (w.field 5 5)), second := .register .sp }
      category := .branch }) ∧
    (w.field 21 4 = 0b1001#4 → w.field 0 5 ≠ 31#5 → full.decode w = .ok {
      mnemonic := byKey (w.field 10 6) .blraa .blrab
      operands := {
        first := .register (.x (w.field 5 5))
        second := .register (Register.modifier (w.field 0 5)) }
      category := .branch }) ∧
    (w.field 21 4 = 0b1001#4 → w.field 0 5 = 31#5 → full.decode w = .ok {
      mnemonic := byKey (w.field 10 6) .blraaz .blrabz
      operands := { first := .register (.x (w.field 5 5)) }
      category := .branch }) := by
  have hbranch : w.field 21 4 = 0b1000#4 → full.decode w = .ok (Shape.instruction (w.field 5 5) (w.field 0 5)
      (.jumpModified (byKey (w.field 10 6) .braa .brab))) := by
    intro hopc
    exact full_decode_of_free_row hg hop2 (hopc ▸ Row.modifiedBranch hop3)
  have hcall : w.field 21 4 = 0b1001#4 → full.decode w = .ok (Shape.instruction (w.field 5 5) (w.field 0 5)
      (.jumpEither (byKey (w.field 10 6) .blraaz .blrabz) (byKey (w.field 10 6) .blraa .blrab))) := by
    intro hopc
    exact full_decode_of_free_row hg hop2 (Row.keyedCall (.inr hopc) hop3)
  refine ⟨hbranch, ?_, ?_, ?_⟩
  · intro hopc hop4
    rw [hbranch hopc, hop4]
    rfl
  · intro hopc hop4
    rw [hcall hopc]
    exact congrArg Except.ok (if_neg hop4)
  · intro hopc hop4
    rw [hcall hopc]
    exact congrArg Except.ok (if_pos hop4)

/-- The zero register as the target and the stack pointer as the modifier: number 31 in both fields. -/
theorem braa_names_stack_pointer :
    Word.field 0xd71f0bff#32 25 7 = 0b1101011#7 ∧ Word.field 0xd71f0bff#32 16 5 = 0b11111#5 ∧
      Keyed (Word.field 0xd71f0bff#32 10 6) ∧ Word.field 0xd71f0bff#32 21 4 = 0b1000#4 ∧
      full.decode 0xd71f0bff#32 = .ok {
        mnemonic := .braa
        operands := { first := .register (.x 31), second := .register .sp }
        category := .branch } :=
  ⟨by decide, by decide, by decide, by decide,
    (modifier_forms 0xd71f0bff#32 (by decide) (by decide) (by decide)).2.1 (by decide) (by decide)⟩

/-- Not every `op4` is a modifier: with 31 there, the call on register 0 under `opc` 1001 has none. -/
theorem call_drops_stack_pointer :
    ¬ ∀ w : Word, w.field 25 7 = 0b1101011#7 → w.field 16 5 = 0b11111#5 → Keyed (w.field 10 6) →
      (w.field 21 4 = 0b1000#4 → full.decode w = .ok {
        mnemonic := byKey (w.field 10 6) .braa .brab
        operands := {
          first := .register (.x (w.field 5 5))
          second := .register (Register.modifier (w.field 0 5)) }
        category := .branch }) ∧
      (w.field 21 4 = 0b1001#4 → full.decode w = .ok {
        mnemonic := byKey (w.field 10 6) .blraa .blrab
        operands := {
          first := .register (.x (w.field 5 5))
          second := .register (Register.modifier (w.field 0 5)) }
        category := .branch }) := by
  intro hkept
  have hdecode : full.decode 0xd73f081f#32 =
      .ok { mnemonic := .blraaz, operands := { first := .register (.x 0) }, category := .branch } := rfl
  have hmodified := (hkept 0xd73f081f#32 (by decide) (by decide) (by decide)).2 (by decide)
  rw [hdecode] at hmodified
  exact absurd (Except.ok.inj hmodified) (by decide)

/-- **No decoded call has the stack pointer as its modifier**, under any configuration. -/
theorem not_callsWithStackPointer {d : Decoder} {w : Word} {i : Instruction} (h : d.decode w = .ok i) :
    ¬ i.CallsWithStackPointer := by
  rintro ⟨hcall, hsecond⟩
  obtain ⟨g, _, _, hi, _⟩ := decode_eq_ok_iff.mp h
  have hauth : i.mnemonic.authenticates = true := by
    rcases hcall with hm | hm <;> rw [hm] <;> rfl
  obtain rfl : g = .register := Group.register_of_authenticates (Group.mnemonic_mem hi) (.inl hauth)
  obtain ⟨_, form, hrow, _, rfl⟩ := Indirect.decode_eq_ok_iff.mp hi
  exact hrow.not_callsWithStackPointer _ _ ⟨hcall, hsecond⟩

end Decoder

end BranchWord
