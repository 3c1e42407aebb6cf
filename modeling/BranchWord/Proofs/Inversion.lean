/-
# `BranchWord.Proofs.Inversion` — one bit of a word turns its branch into the opposite one.

Each group with an offset has a bit that chooses between two forms of the same branch (`Group.senseBit?`): the lowest
bit of the condition, the sense of a comparison or a test, the link of a call. A word with that bit flipped is again a
member of the group, and every decoder makes of it what it makes of the word, with the one form in place of the other
(`Group.opposite`) and nothing else changed. The target in particular is the same, at every address.

Which bit it is depends on the group: bit 24 is the sense in two of them and the reserved `o1` in a third, bit 31 is
the link in one and the size of a register in two. So the proof asks of each group that the other fields and the
pattern lie beside its own bit, and needs nothing else:

* `Word.bit_flip_self`, `Word.agreeOff_flip` — a flip changes its bit and no other;
* `ofWord_flip` — in each layout it changes one field;
* `Group.decode_flip`, `Decoder.decode_flip` — what the group makes of that, and every decoder.
-/
import Mathlib.Logic.Equiv.Basic
import BranchWord.Proofs.Features
import BranchWord.Proofs.Normalization

namespace BranchWord

open Layout

/-! ## Flipping a bit -/

namespace Word

/-- The word with bit `n` flipped. -/
def flip (n : Nat) (w : Word) : Word := w ^^^ placeBit n true

variable {n : Nat} (w : Word)

/-- A flip written as a difference. -/
theorem xor_eq_flip {mask : Word} (h : placeBit n true = mask) : w ^^^ mask = w.flip n := by
  rw [flip, h]

/-- The flipped bit is the opposite of what it was. -/
theorem bit_flip_self (h : n < 32) : (w.flip n).bit n = !w.bit n := by
  have hplaced : (placeBit n true).bit n = true := bit_place_ofBool_self true h
  rw [flip, bit_xor, hplaced, Bool.xor_true]

/-- **A flip changes no other bit.** -/
theorem agreeOff_flip : Pattern.AgreeOff ⟨n, 1, 1#1⟩ (w.flip n) w := by
  intro i hi
  have hplaced : (placeBit n true).bit i = false := bit_place_of_not_mem _ hi
  rw [flip, bit_xor, hplaced, Bool.xor_false]

theorem bit_flip_of_ne {i : Nat} (h : i ≠ n) : (w.flip n).bit i = w.bit i :=
  w.agreeOff_flip i (by simp only; omega)

/-- A field beside the flipped bit is left as it was. -/
theorem field_flip_of_disjoint {low width : Nat} (h : low + width ≤ n ∨ n + 1 ≤ low) :
    (w.flip n).field low width = w.field low width :=
  w.agreeOff_flip.field h

/-- A field that starts at the flipped bit has its lowest bit flipped. -/
theorem field_flip_self {width : Nat} :
    (w.flip n).field n width = w.field n width ^^^ (placeBit n true).field n width :=
  field_xor ..

end Word

/-! ## Opposites -/

namespace Instruction

/-- The record under the opposite condition. -/
def invertCondition (i : Instruction) : Instruction := { i with condition := i.condition.map .invert }

/-- The record with one mnemonic in place of the other. -/
def exchange (m m' : Mnemonic) (i : Instruction) : Instruction :=
  { i with mnemonic := Equiv.swap m m' i.mnemonic }

end Instruction

namespace Group

/-- The bit of a group that chooses between two forms of the same branch. -/
def senseBit? : Group → Option Nat
  | conditional => some 0
  | unconditional => some 31
  | compare => some 24
  | test => some 24
  | register => none

/-- The other form of a branch of the group. -/
def opposite : Group → Instruction → Instruction
  | conditional, i => i.invertCondition
  | unconditional, i => i.exchange .b .bl
  | compare, i => i.exchange .cbz .cbnz
  | test, i => i.exchange .tbz .tbnz
  | register, i => i

/-- **The opposite of a branch goes to the same target.** -/
theorem branchTarget_opposite (g : Group) (i : Instruction) (a : Address) :
    (g.opposite i).branchTarget a = i.branchTarget a := by
  cases g <;> rfl

/-- A hinted branch stays one, and no other instruction becomes one. -/
theorem opposite_mnemonic_eq_bc_iff (g : Group) (i : Instruction) :
    (g.opposite i).mnemonic = .bc ↔ i.mnemonic = .bc := by
  have hexchange : ∀ {m m' : Mnemonic}, m ≠ .bc → m' ≠ .bc →
      ((i.exchange m m').mnemonic = .bc ↔ i.mnemonic = .bc) := by
    intro m m' hm hm'
    show Equiv.swap m m' i.mnemonic = .bc ↔ i.mnemonic = .bc
    rw [Equiv.swap_apply_eq_iff, Equiv.swap_apply_of_ne_of_ne hm.symm hm'.symm]
  cases g with
  | conditional | register => exact Iff.rfl
  | unconditional | compare | test => exact hexchange (by decide) (by decide)

end Group

/-! ## Flips in the layouts -/

/-- The opposite condition has the code with the lowest bit flipped. -/
theorem Condition.ofBits_xor_one (code : BitVec 4) : ofBits (code ^^^ 0b0001#4) = (ofBits code).invert := by
  rw [invert, bits_ofBits]

/-- A flag chooses between two mnemonics, and its opposite between the same two exchanged. -/
theorem swap_ite (flag : Bool) (yes no : Mnemonic) :
    (if !flag then yes else no) = Equiv.swap no yes (if flag then yes else no) := by
  cases flag with
  | true => exact (Equiv.swap_apply_right no yes).symm
  | false => exact (Equiv.swap_apply_left no yes).symm

namespace Layout

variable (w : Word)

theorem Conditional.ofWord_flip :
    ofWord (w.flip 0) = { ofWord w with cond := (ofWord w).cond ^^^ 0b0001#4 } := by
  have ho1 := w.bit_flip_of_ne (show 24 ≠ 0 by decide)
  have himm19 : (w.flip 0).field 5 19 = w.field 5 19 := w.field_flip_of_disjoint (by decide)
  have ho0 := w.bit_flip_of_ne (show 4 ≠ 0 by decide)
  have hcond : (w.flip 0).field 0 4 = w.field 0 4 ^^^ 0b0001#4 := w.field_flip_self
  simp only [ofWord, ho1, himm19, ho0, hcond]

theorem Unconditional.ofWord_flip : ofWord (w.flip 31) = { ofWord w with op := !(ofWord w).op } := by
  have hop := w.bit_flip_self (show 31 < 32 by decide)
  have himm26 : (w.flip 31).field 0 26 = w.field 0 26 := w.field_flip_of_disjoint (by decide)
  simp only [ofWord, hop, himm26]

theorem Compare.ofWord_flip : ofWord (w.flip 24) = { ofWord w with op := !(ofWord w).op } := by
  have hsf := w.bit_flip_of_ne (show 31 ≠ 24 by decide)
  have hop := w.bit_flip_self (show 24 < 32 by decide)
  have himm19 : (w.flip 24).field 5 19 = w.field 5 19 := w.field_flip_of_disjoint (by decide)
  have hrt : (w.flip 24).field 0 5 = w.field 0 5 := w.field_flip_of_disjoint (by decide)
  simp only [ofWord, hsf, hop, himm19, hrt]

theorem Test.ofWord_flip : ofWord (w.flip 24) = { ofWord w with op := !(ofWord w).op } := by
  have hb5 := w.bit_flip_of_ne (show 31 ≠ 24 by decide)
  have hop := w.bit_flip_self (show 24 < 32 by decide)
  have hb40 : (w.flip 24).field 19 5 = w.field 19 5 := w.field_flip_of_disjoint (by decide)
  have himm14 : (w.flip 24).field 5 14 = w.field 5 14 := w.field_flip_of_disjoint (by decide)
  have hrt : (w.flip 24).field 0 5 = w.field 0 5 := w.field_flip_of_disjoint (by decide)
  simp only [ofWord, hb5, hop, hb40, himm14, hrt]

/-- With the opposite code, the fields decode under the opposite condition; with `o1` set, neither decodes. -/
theorem Conditional.decode_opposite (l : Conditional) :
    { l with cond := l.cond ^^^ 0b0001#4 }.decode = l.decode.map Instruction.invertCondition := by
  unfold decode
  cases l.o1 with
  | true => rfl
  | false =>
    simp only [Condition.ofBits_xor_one]
    rfl

theorem Unconditional.decode_opposite (l : Unconditional) :
    { l with op := !l.op }.decode = l.decode.exchange .b .bl := by
  simp only [decode, Instruction.exchange, swap_ite]

theorem Compare.decode_opposite (l : Compare) :
    { l with op := !l.op }.decode = l.decode.exchange .cbz .cbnz := by
  simp only [decode, Instruction.exchange, swap_ite]

theorem Test.decode_opposite (l : Test) :
    { l with op := !l.op }.decode = l.decode.exchange .tbz .tbnz := by
  simp only [decode, Test.testedBit, Instruction.exchange, swap_ite]

end Layout

/-! ## Flips in a group -/

namespace Group

variable {g : Group} {n : Nat}

/-- The bit lies beside the bits that the group fixes, so a word stays in its group. -/
theorem matches_flip (hn : g.senseBit? = some n) {w : Word} (hg : g.pattern.Matches w) :
    g.pattern.Matches (w.flip n) := by
  have hbeside : g.pattern.low + g.pattern.width ≤ n ∨ n + 1 ≤ g.pattern.low := by
    cases g <;> cases hn <;> decide
  exact (w.field_flip_of_disjoint hbeside).trans hg

/-- **With the bit flipped, a group decodes a word to the opposite branch.** -/
theorem decode_flip (hn : g.senseBit? = some n) (w : Word) :
    g.decode (w.flip n) = (g.decode w).map g.opposite := by
  cases g with
  | conditional =>
    cases hn
    simp only [decode, Conditional.ofWord_flip, Conditional.decode_opposite]
    rfl
  | unconditional =>
    cases hn
    simp only [decode, Unconditional.ofWord_flip, Unconditional.decode_opposite]
    rfl
  | compare =>
    cases hn
    simp only [decode, Compare.ofWord_flip, Compare.decode_opposite]
    rfl
  | test =>
    cases hn
    simp only [decode, Test.ofWord_flip, Test.decode_opposite]
    rfl
  | register => cases hn

end Group

/-! ## Flips under a decoder -/

namespace Decoder

variable {g : Group} {n : Nat} {w : Word}

/-- The gate of pointer authentication is open to every group that has such a bit. -/
theorem lacksPointerAuth_of_senseBit? (d : Decoder) (hn : g.senseBit? = some n)
    (hg : g.pattern.Matches w) : d.lacksPointerAuth g w = false := by
  refine Bool.eq_false_iff.mpr fun hlacks => ?_
  obtain rfl : g = .register := ((lacksPointerAuth_iff hg).mp hlacks).2.group_eq hg
  cases hn

/-- The gate of hinted branches treats a branch and its opposite alike. -/
theorem lacksHintedBranches_opposite (d : Decoder) (g : Group) (i : Instruction) :
    d.lacksHintedBranches (g.opposite i) = d.lacksHintedBranches i := by
  simp only [lacksHintedBranches, g.opposite_mnemonic_eq_bc_iff i]

/-- **With the bit flipped, a decoder makes of a word the opposite branch**, or refuses it with the same error. -/
theorem decode_flip (d : Decoder) (hn : g.senseBit? = some n) (hg : g.pattern.Matches w) :
    d.decode (w.flip n) = (d.decode w).map g.opposite := by
  have hflip := Group.matches_flip hn hg
  rw [decode_of_matches d hg, decode_of_matches d hflip, lacksPointerAuth_of_senseBit? d hn hg,
    lacksPointerAuth_of_senseBit? d hn hflip, Group.decode_flip hn]
  cases g.decode w with
  | error e => rfl
  | ok i =>
    show (if d.lacksHintedBranches (g.opposite i) then _ else _) =
      Except.map g.opposite (if d.lacksHintedBranches i then _ else _)
    rw [lacksHintedBranches_opposite]
    cases d.lacksHintedBranches i <;> rfl

/-- The two words are branches to the same targets, wherever they stand, or neither is a branch. -/
def SameTargets (d : Decoder) (u w : Word) : Prop :=
  ∀ a, (d.decode u).map (fun i => i.branchTarget a) = (d.decode w).map (fun i => i.branchTarget a)

/-- A word and the word with the bit flipped are branches to the same targets. -/
theorem sameTargets_flip (d : Decoder) (hn : g.senseBit? = some n) (hg : g.pattern.Matches w) :
    d.SameTargets (w.flip n) w := by
  intro a
  rw [decode_flip d hn hg]
  cases d.decode w with
  | error e => rfl
  | ok i => exact congrArg Except.ok (g.branchTarget_opposite i a)

/-- What a decoder accepts in a group, the group decodes to the same record. -/
theorem group_decode_of_decode {d : Decoder} (hg : g.pattern.Matches w) {i : Instruction}
    (h : d.decode w = .ok i) : g.decode w = .ok i := by
  rw [← full_decode_of_matches hg]
  exact full_decode_of_decode h

/-- A decoded conditional branch has a condition. -/
theorem exists_condition {d : Decoder} (hg : Group.conditional.pattern.Matches w) {i : Instruction}
    (h : d.decode w = .ok i) : ∃ c, i.condition = some c := by
  obtain ⟨_, rfl⟩ := Group.conditional_decode_eq_ok_iff.mp (group_decode_of_decode hg h)
  exact ⟨_, rfl⟩

/-- An instruction decoded in a group is one of the group's. -/
theorem mnemonic_mem {d : Decoder} (hg : g.pattern.Matches w) {i : Instruction} (h : d.decode w = .ok i) :
    i.mnemonic ∈ g.mnemonics :=
  Group.mnemonic_mem (group_decode_of_decode hg h)

/-- **One bit inverts a branch.** Under every decoder, a word with one bit flipped decodes to the record of the word,
or is refused with the error of the word, but for one component:

* in the conditional group bit 0 turns the condition, which every record of the group has, into its opposite;
* in the groups of comparisons and tests bit 24 exchanges the two mnemonics of the group;
* in the unconditional group bit 31 exchanges `b` and `bl`.

The target is the same at every address. -/
theorem one_bit_inverts (d : Decoder) (w : Word) :
    (Group.ofWord? w = some .conditional →
      d.decode (w ^^^ 0x00000001#32) =
        (d.decode w).map (fun i => { i with condition := i.condition.map Condition.invert }) ∧
      (∀ i, d.decode w = .ok i → ∃ c, i.condition = some c) ∧
      d.SameTargets (w ^^^ 0x00000001#32) w) ∧
    (Group.ofWord? w = some .compare →
      d.decode (w ^^^ 0x01000000#32) =
        (d.decode w).map (fun i => { i with mnemonic := Equiv.swap .cbz .cbnz i.mnemonic }) ∧
      (∀ i, d.decode w = .ok i → i.mnemonic ∈ [Mnemonic.cbz, .cbnz]) ∧
      d.SameTargets (w ^^^ 0x01000000#32) w) ∧
    (Group.ofWord? w = some .test →
      d.decode (w ^^^ 0x01000000#32) =
        (d.decode w).map (fun i => { i with mnemonic := Equiv.swap .tbz .tbnz i.mnemonic }) ∧
      (∀ i, d.decode w = .ok i → i.mnemonic ∈ [Mnemonic.tbz, .tbnz]) ∧
      d.SameTargets (w ^^^ 0x01000000#32) w) ∧
    (Group.ofWord? w = some .unconditional →
      d.decode (w ^^^ 0x80000000#32) =
        (d.decode w).map (fun i => { i with mnemonic := Equiv.swap .b .bl i.mnemonic }) ∧
      (∀ i, d.decode w = .ok i → i.mnemonic ∈ [Mnemonic.b, .bl]) ∧
      d.SameTargets (w ^^^ 0x80000000#32) w) := by
  have hzero : w ^^^ 0x00000001#32 = w.flip 0 := w.xor_eq_flip (by decide)
  have hsense : w ^^^ 0x01000000#32 = w.flip 24 := w.xor_eq_flip (by decide)
  have hlink : w ^^^ 0x80000000#32 = w.flip 31 := w.xor_eq_flip (by decide)
  rw [hzero, hsense, hlink]
  refine ⟨?_, ?_, ?_, ?_⟩
  · intro h
    have hg := Group.matches_of_ofWord? h
    exact ⟨decode_flip d rfl hg, fun i => exists_condition hg, sameTargets_flip d rfl hg⟩
  · intro h
    have hg := Group.matches_of_ofWord? h
    exact ⟨decode_flip d rfl hg, fun i => mnemonic_mem hg, sameTargets_flip d rfl hg⟩
  · intro h
    have hg := Group.matches_of_ofWord? h
    exact ⟨decode_flip d rfl hg, fun i => mnemonic_mem hg, sameTargets_flip d rfl hg⟩
  · intro h
    have hg := Group.matches_of_ofWord? h
    exact ⟨decode_flip d rfl hg, fun i => mnemonic_mem hg, sameTargets_flip d rfl hg⟩

/-- The base decoder reads `b.eq` with bit 0 flipped as `b.ne`, `cbz` with bit 24 flipped as `cbnz`, `tbnz` with bit
24 flipped as `tbz`, and `b` with bit 31 flipped as `bl`; a hinted branch it refuses under either condition. -/
theorem baseline_inverts :
    baseline.decode (0x54000040#32 ^^^ 0x00000001#32) = .ok {
        mnemonic := .b
        condition := some .ne
        operands := { first := .pcOffset 8 }
        category := .conditionalBranch } ∧
      baseline.decode (0x54000050#32 ^^^ 0x00000001#32) = .error (.unallocated .conditional "o0" 1) ∧
      baseline.decode (0x34000041#32 ^^^ 0x01000000#32) = .ok {
        mnemonic := .cbnz
        operands := { first := .register (.w 1), second := .pcOffset 8 }
        category := .conditionalBranch } ∧
      baseline.decode (0x37180041#32 ^^^ 0x01000000#32) = .ok {
        mnemonic := .tbz
        operands := { first := .register (.w 1), second := .immediate 3, third := .pcOffset 8 }
        category := .conditionalBranch } ∧
      baseline.decode (0x14000002#32 ^^^ 0x80000000#32) = .ok {
        mnemonic := .bl
        operands := { first := .pcOffset 8 }
        category := .branch } :=
  ⟨((one_bit_inverts baseline 0x54000040#32).1 rfl).1, ((one_bit_inverts baseline 0x54000050#32).1 rfl).1,
    ((one_bit_inverts baseline 0x34000041#32).2.1 rfl).1, ((one_bit_inverts baseline 0x37180041#32).2.2.1 rfl).1,
    ((one_bit_inverts baseline 0x14000002#32).2.2.2 rfl).1⟩

end Decoder

end BranchWord
