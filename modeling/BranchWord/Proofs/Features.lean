/-
# `BranchWord.Proofs.Features` — a decoder without a feature is the full decoder behind two filters.

A feature is switched off in two different ways. Pointer authentication is a question about the fields of
the word, asked before the group decodes it; hinted branches are a question about the decoded record, asked
afterwards. Both come down to a set of words:

* `Word.InAuthenticatedSpace` — refused at `op3` without pointer authentication, whatever else is wrong;
* `Word.InHintedSpace` — refused at `o0` without hinted branches, and otherwise always a `bc`.

The sets are disjoint and neither depends on the decoder, so the decoder is the full decoder on every other
word, errors included (`decode_eq_filters`).

The set of the first filter is not the set of instructions that authenticate. It has all of them, and the
plain `blr` under `opc` 1001 besides, which the full decoder accepts (`Row.authenticatedFields_iff`).
Switching pointer authentication off loses that instruction as well (`accepted_without_features_iff`).
-/
import BranchWord.Proofs.Language

namespace BranchWord

open Layout

/-! ## The two sets of words -/

/-- The values of `opc` and `op3` that pointer authentication adds to the register group: everything under
the two `opc` with a modifier register, and the keyed rows of the others. -/
def AuthenticatedFields (opc : BitVec 4) (op3 : BitVec 6) : Prop :=
  (opc = 0b1000#4 ∨ opc = 0b1001#4) ∨
    (opc = 0b0000#4 ∨ opc = 0b0001#4 ∨ opc = 0b0010#4 ∨ opc = 0b0100#4) ∧ Keyed op3

/-- The words that pointer authentication adds; `Rn` and `op4` are free. -/
def Word.InAuthenticatedSpace (w : Word) : Prop :=
  w.field 25 7 = 0b1101011#7 ∧ w.field 16 5 = 0b11111#5 ∧
    AuthenticatedFields (w.field 21 4) (w.field 10 6)

/-- The words that hinted branches add. -/
def Word.InHintedSpace (w : Word) : Prop := w.field 24 8 = 0b01010100#8 ∧ w.bit 4 = true

instance (op3 : BitVec 6) : Decidable (Keyed op3) := inferInstanceAs (Decidable (_ ∨ _))

instance (opc : BitVec 4) (op3 : BitVec 6) : Decidable (AuthenticatedFields opc op3) :=
  inferInstanceAs (Decidable ((_ ∨ _) ∨ (_ ∨ _ ∨ _ ∨ _) ∧ _))

instance (w : Word) : Decidable w.InAuthenticatedSpace := inferInstanceAs (Decidable (_ ∧ _ ∧ _))

instance (w : Word) : Decidable w.InHintedSpace := inferInstanceAs (Decidable (_ ∧ _))

/-- The authenticated space lies inside the register group. -/
theorem Word.InAuthenticatedSpace.group_eq {g : Group} {w : Word} (hw : w.InAuthenticatedSpace)
    (hg : g.pattern.Matches w) : g = .register :=
  Group.eq_of_matches hg hw.1

/-- The hinted space lies inside the conditional group. -/
theorem Word.InHintedSpace.group_eq {g : Group} {w : Word} (hw : w.InHintedSpace)
    (hg : g.pattern.Matches w) : g = .conditional :=
  Group.eq_of_matches hg (conditional_region_iff.mp hw.1).1

/-- The `opc` of the authenticated space. The debug restore is not among them. -/
theorem AuthenticatedFields.opc_mem {opc : BitVec 4} {op3 : BitVec 6}
    (h : AuthenticatedFields opc op3) :
    opc ∈ [0b0000#4, 0b0001#4, 0b0010#4, 0b0100#4, 0b1000#4, 0b1001#4] := by
  rcases h with (rfl | rfl) | ⟨rfl | rfl | rfl | rfl, _⟩ <;> decide

/-! ## The filter of pointer authentication -/

theorem isAuthenticated_iff {w : Word} :
    (Indirect.ofWord w).isAuthenticated = true ↔
      w.field 16 5 = 0b11111#5 ∧ AuthenticatedFields (w.field 21 4) (w.field 10 6) := by
  simp only [Indirect.isAuthenticated, Bool.and_eq_true, Bool.or_eq_true, decide_eq_true_eq,
    List.mem_cons, List.not_mem_nil, or_false]
  rfl

/-- A member of a group meets the first filter exactly when the word is in the authenticated space. -/
theorem Decoder.lacksPointerAuth_iff {d : Decoder} {g : Group} {w : Word}
    (hg : g.pattern.Matches w) :
    d.lacksPointerAuth g w = true ↔ d.pointerAuth = false ∧ w.InAuthenticatedSpace := by
  have hgroup : g = .register ↔ w.field 25 7 = 0b1101011#7 := by
    refine ⟨?_, ?_⟩
    · rintro rfl
      exact hg
    · intro h
      exact Group.eq_of_matches hg (show Group.register.pattern.Matches w from h)
  unfold lacksPointerAuth Word.InAuthenticatedSpace
  rw [Bool.and_eq_true, Bool.and_eq_true, Bool.not_eq_true', decide_eq_true_eq, hgroup,
    isAuthenticated_iff, and_assoc]

/-- **What the first filter takes away, row by row**: the instructions that authenticate, and the plain
`blr` under `opc` 1001. -/
theorem Layout.Indirect.Row.authenticatedFields_iff {opc : BitVec 4} {op3 : BitVec 6}
    {form : Indirect.Form} (hrow : Indirect.Row opc op3 form) (rn op4 : BitVec 5) :
    AuthenticatedFields opc op3 ↔
      (form.shape.instruction rn op4).mnemonic.authenticates = true ∨
        (form.shape.instruction rn op4).mnemonic = .blr ∧ opc = 0b1001#4 := by
  cases hrow with
  | br | braaz | brabz | braa | brab | ret | retaa | retab | eret | eretaa | eretab | drps =>
    simp [AuthenticatedFields, Keyed, Indirect.Shape.instruction, Mnemonic.authenticates]
  | blr hopc =>
    -- the one row that lies in the space under one `opc` and outside it under the other
    rcases hopc with rfl | rfl <;>
      simp [AuthenticatedFields, Keyed, Indirect.Shape.instruction, Mnemonic.authenticates]
  | blraa hopc | blrab hopc =>
    rcases hopc with rfl | rfl <;> by_cases h : op4 = 31#5 <;>
      simp [AuthenticatedFields, Keyed, Indirect.Shape.instruction, Mnemonic.authenticates, h]

/-- The plain `blr` has `op3` zero. -/
theorem Layout.Indirect.Row.op3_of_blr {opc : BitVec 4} {op3 : BitVec 6} {form : Indirect.Form}
    (hrow : Indirect.Row opc op3 form) {rn op4 : BitVec 5}
    (hm : (form.shape.instruction rn op4).mnemonic = .blr) : op3 = 0#6 := by
  revert hm
  by_cases h : op4 = 31#5 <;> cases hrow <;> simp [Indirect.Shape.instruction, h]

/-- Only the register group has instructions that authenticate, and only it has `blr`. -/
theorem Group.register_of_authenticates {g : Group} {m : Mnemonic} (hmem : m ∈ g.mnemonics)
    (hm : m.authenticates = true ∨ m = .blr) : g = .register := by
  revert m
  cases g <;> decide

/-- Among the accepted words, the authenticated space is read off the instruction and `opc`. -/
theorem inAuthenticatedSpace_iff_of_full_decode {w : Word} {i : Instruction}
    (h : Decoder.full.decode w = .ok i) :
    w.InAuthenticatedSpace ↔
      i.mnemonic.authenticates = true ∨ i.mnemonic = .blr ∧ w.field 21 4 = 0b1001#4 := by
  obtain ⟨g, hg, hi⟩ := Decoder.full_decode_eq_ok_iff.mp h
  by_cases hreg : g = .register
  · subst hreg
    obtain ⟨hop2, form, hrow, _, rfl⟩ := Indirect.decode_eq_ok_iff.mp hi
    refine Iff.trans ?_ (hrow.authenticatedFields_iff _ _)
    exact ⟨fun hw => hw.2.2, fun hf => ⟨hg, hop2, hf⟩⟩
  · refine ⟨?_, ?_⟩
    · intro hw
      exact absurd (hw.group_eq hg) hreg
    · intro hm
      exact absurd (Group.register_of_authenticates (Group.mnemonic_mem hi) (hm.imp_right And.left)) hreg

/-! ## The filter of hinted branches -/

/-- Only the conditional group has `bc`. -/
theorem Group.conditional_of_bc_mem {g : Group} (h : Mnemonic.bc ∈ g.mnemonics) :
    g = .conditional := by
  revert h
  cases g <;> decide

/-- An instruction is `bc` exactly when its word is in the hinted space. -/
theorem Group.mnemonic_eq_bc_iff {g : Group} {w : Word} {i : Instruction}
    (hg : g.pattern.Matches w) (hi : g.decode w = .ok i) :
    i.mnemonic = .bc ↔ w.InHintedSpace := by
  by_cases hcond : g = .conditional
  · subst hcond
    obtain ⟨ho1, rfl⟩ := conditional_decode_eq_ok_iff.mp hi
    have hregion : w.field 24 8 = 0b01010100#8 := conditional_region_iff.mpr ⟨hg, ho1⟩
    unfold Word.InHintedSpace
    cases h : w.bit 4 <;> simp [conditionalRecord, h, hregion]
  · have hspace : ¬ w.InHintedSpace := by
      intro hw
      exact hcond (hw.group_eq hg)
    have hne : i.mnemonic ≠ .bc := by
      intro hbc
      exact hcond (conditional_of_bc_mem (hbc ▸ mnemonic_mem hi))
    exact iff_of_false hne hspace

/-- A word of the hinted space is accepted by its group, so no other error comes before `o0`. -/
theorem Word.InHintedSpace.decode_ne_error {g : Group} {w : Word} (hw : w.InHintedSpace)
    (hg : g.pattern.Matches w) (e : DecodeError) : g.decode w ≠ .error e := by
  have ho1 : w.bit 24 = false := (conditional_region_iff.mp hw.1).2
  obtain rfl : g = .conditional := hw.group_eq hg
  intro he
  rw [(Group.conditional_decode_eq_error_iff.mp he).1] at ho1
  exact Bool.noConfusion ho1

/-! ## Both filters together -/

namespace Decoder

/-- A decoded instruction meets the second filter exactly when its word is in the hinted space. -/
theorem lacksHintedBranches_iff {d : Decoder} {g : Group} {w : Word} {i : Instruction}
    (hg : g.pattern.Matches w) (hi : g.decode w = .ok i) :
    d.lacksHintedBranches i = true ↔ d.hintedBranches = false ∧ w.InHintedSpace := by
  rw [lacksHintedBranches, Bool.and_eq_true, Bool.not_eq_true', decide_eq_true_eq,
    Group.mnemonic_eq_bc_iff hg hi]

/-- **Configuration is a pair of filters over the full decoder.** -/
theorem decode_eq_filters (d : Decoder) (w : Word) :
    d.decode w =
      if d.pointerAuth = false ∧ w.InAuthenticatedSpace then
        .error (.unallocated .register "op3" ((w.field 10 6).setWidth 32))
      else if d.hintedBranches = false ∧ w.InHintedSpace then
        .error (.unallocated .conditional "o0" 1)
      else
        full.decode w := by
  by_cases hgroup : ∃ g : Group, g.pattern.Matches w
  · obtain ⟨g, hg⟩ := hgroup
    rw [decode_of_matches d hg, full_decode_of_matches hg]
    by_cases hauth : d.pointerAuth = false ∧ w.InAuthenticatedSpace
    · rw [if_pos ((lacksPointerAuth_iff hg).mpr hauth), if_pos hauth]
      rfl
    rw [if_neg (mt (lacksPointerAuth_iff hg).mp hauth), if_neg hauth]
    cases hi : g.decode w with
    | error e =>
      -- the second filter looks at instructions only, and its space has no errors
      have hhint : ¬ (d.hintedBranches = false ∧ w.InHintedSpace) := fun h =>
        h.2.decode_ne_error hg e hi
      rw [if_neg hhint]
    | ok i =>
      by_cases hhint : d.hintedBranches = false ∧ w.InHintedSpace
      · obtain rfl : g = .conditional := hhint.2.group_eq hg
        simp only [if_pos ((lacksHintedBranches_iff hg hi).mpr hhint), if_pos hhint]
      · simp only [if_neg (mt (lacksHintedBranches_iff hg hi).mp hhint), if_neg hhint]
  · have hnone : ∀ g : Group, ¬ g.pattern.Matches w := fun g hg => hgroup ⟨g, hg⟩
    -- both spaces lie inside a group, so neither filter sees a word without one
    have hauth : ¬ w.InAuthenticatedSpace := fun h => hnone .register h.1
    have hhint : ¬ w.InHintedSpace := fun h => hnone .conditional (conditional_region_iff.mp h.1).1
    rw [decode_of_not_matches d hnone, if_neg (fun h => hauth h.2), if_neg (fun h => hhint h.2),
      decode_of_not_matches full hnone]

/-- Outside the two spaces every decoder is the full decoder. -/
theorem decode_eq_full_of_not_mem (d : Decoder) {w : Word} (hauth : ¬ w.InAuthenticatedSpace)
    (hhint : ¬ w.InHintedSpace) : d.decode w = full.decode w := by
  rw [decode_eq_filters, if_neg (fun h => hauth h.2), if_neg (fun h => hhint h.2)]

/-! ### What the filters leave alone -/

/-- A set bit `o1` is reported by every decoder. -/
theorem decode_of_o1 (d : Decoder) {w : Word} (hg : Group.conditional.pattern.Matches w)
    (ho1 : w.bit 24 = true) : d.decode w = .error (.reservedBit .conditional "o1") := by
  have hauth : ¬ w.InAuthenticatedSpace := fun h => absurd (h.group_eq hg) (by decide)
  have hhint : ¬ w.InHintedSpace := fun h =>
    Bool.noConfusion (ho1.symm.trans (conditional_region_iff.mp h.1).2)
  rw [decode_eq_full_of_not_mem d hauth hhint, full_decode_of_matches hg]
  exact Group.conditional_decode_eq_error_iff.mpr ⟨ho1, rfl⟩

/-- On the register group a decoder is the filter of pointer authentication and the group. -/
theorem decode_register (d : Decoder) {w : Word} (hg : Group.register.pattern.Matches w) :
    d.decode w =
      if d.pointerAuth = false ∧ w.InAuthenticatedSpace then
        .error (.unallocated .register "op3" ((w.field 10 6).setWidth 32))
      else Group.register.decode w := by
  have hhint : ¬ w.InHintedSpace := fun h => absurd (h.group_eq hg) (by decide)
  rw [decode_eq_filters, if_neg (fun h : _ ∧ _ => hhint h.2), full_decode_of_matches hg]

/-- On the groups that check nothing every decoder is the group. -/
theorem decode_of_unfiltered (d : Decoder) {g : Group} {w : Word} (hg : g.pattern.Matches w)
    (hregister : g ≠ .register) (hconditional : g ≠ .conditional) : d.decode w = g.decode w := by
  have hauth : ¬ w.InAuthenticatedSpace := fun h => hregister (h.group_eq hg)
  have hhint : ¬ w.InHintedSpace := fun h => hconditional (h.group_eq hg)
  rw [decode_eq_full_of_not_mem d hauth hhint, full_decode_of_matches hg]

/-- A register word outside the authenticated space is decoded by its group alone. -/
theorem decode_register_of_not_mem (d : Decoder) {w : Word} (hg : Group.register.pattern.Matches w)
    (hauth : ¬ w.InAuthenticatedSpace) : d.decode w = (Indirect.ofWord w).decode := by
  rw [decode_register d hg, if_neg (fun h => hauth h.2)]
  rfl

/-- A wrong `op2` is reported by every decoder. -/
theorem decode_of_op2 (d : Decoder) {w : Word} (hg : Group.register.pattern.Matches w)
    (hop2 : w.field 16 5 ≠ 0b11111#5) :
    d.decode w = .error (.unallocated .register "op2" ((w.field 16 5).setWidth 32)) := by
  rw [decode_register_of_not_mem d hg (fun h => hop2 h.2.1)]
  exact Indirect.decode_eq_error_iff.mpr (.op2 hop2)

/-- An unallocated `opc` is reported by every decoder. -/
theorem decode_of_opc (d : Decoder) {w : Word} (hg : Group.register.pattern.Matches w)
    (hop2 : w.field 16 5 = 0b11111#5)
    (hopc : w.field 21 4 ∉
      [0b0000#4, 0b0001#4, 0b0010#4, 0b0100#4, 0b0101#4, 0b1000#4, 0b1001#4]) :
    d.decode w = .error (.unallocated .register "opc" ((w.field 21 4).setWidth 32)) := by
  have hauth : ¬ w.InAuthenticatedSpace := by
    intro h
    have hsub : [0b0000#4, 0b0001#4, 0b0010#4, 0b0100#4, 0b1000#4, 0b1001#4] ⊆
        [0b0000#4, 0b0001#4, 0b0010#4, 0b0100#4, 0b0101#4, 0b1000#4, 0b1001#4] := by decide
    exact hopc (hsub h.2.2.opc_mem)
  rw [decode_register_of_not_mem d hg hauth]
  exact Indirect.decode_eq_error_iff.mpr (.opc hop2 (Indirect.table?_eq_none_of_not_mem hopc))

/-- The debug restore is accepted by every decoder, whatever its last three fields hold. -/
theorem decode_of_drps (d : Decoder) {w : Word} (hg : Group.register.pattern.Matches w)
    (hop2 : w.field 16 5 = 0b11111#5) (hopc : w.field 21 4 = 0b0101#4) :
    d.decode w = .ok { mnemonic := .drps, category := .unspecified } := by
  have hauth : ¬ w.InAuthenticatedSpace := by
    intro h
    have hmem := h.2.2.opc_mem
    rw [hopc] at hmem
    exact absurd hmem (by decide)
  have hrow : Indirect.Row (Indirect.ofWord w).opc (Indirect.ofWord w).op3 { shape := .restore } := by
    rw [show (Indirect.ofWord w).opc = 0b0101#4 from hopc]
    exact .drps _
  rw [decode_register_of_not_mem d hg hauth, Indirect.decode_of_row hop2 hrow]
  exact Indirect.Form.decode_of_admits (Indirect.Form.admits_none ..)

/-- **A configured decoder is the full decoder behind two independent filters**: without pointer
authentication the authenticated space is refused at `op3`, then without hinted branches the hinted space
is refused at `o0`, and everything else is left as it was. So a set `o1`, a wrong `op2` and an unallocated
`opc` are reported alike under every configuration, and `drps` is accepted under every configuration. -/
theorem configuration_filters (d : Decoder) (w : Word) :
    (d.decode w =
      if d.pointerAuth = false ∧ w.InAuthenticatedSpace then
        .error (.unallocated .register "op3" ((w.field 10 6).setWidth 32))
      else if d.hintedBranches = false ∧ w.InHintedSpace then
        .error (.unallocated .conditional "o0" 1)
      else
        full.decode w) ∧
    (w.field 25 7 = 0b0101010#7 → w.bit 24 = true →
      d.decode w = .error (.reservedBit .conditional "o1")) ∧
    (w.field 25 7 = 0b1101011#7 → w.field 16 5 ≠ 0b11111#5 →
      d.decode w = .error (.unallocated .register "op2" ((w.field 16 5).setWidth 32))) ∧
    (w.field 25 7 = 0b1101011#7 → w.field 16 5 = 0b11111#5 →
      w.field 21 4 ∉ [0b0000#4, 0b0001#4, 0b0010#4, 0b0100#4, 0b0101#4, 0b1000#4, 0b1001#4] →
      d.decode w = .error (.unallocated .register "opc" ((w.field 21 4).setWidth 32))) ∧
    (w.field 25 7 = 0b1101011#7 → w.field 16 5 = 0b11111#5 → w.field 21 4 = 0b0101#4 →
      d.decode w = .ok { mnemonic := .drps, category := .unspecified }) :=
  ⟨decode_eq_filters d w, fun hg ho1 => decode_of_o1 d hg ho1, fun hg hop2 => decode_of_op2 d hg hop2,
    fun hg hop2 hopc => decode_of_opc d hg hop2 hopc,
    fun hg hop2 hopc => decode_of_drps d hg hop2 hopc⟩

/-! ## What is lost without a feature -/

/-- A filter that is on or does not concern the word lets the word pass. -/
theorem passes_iff {feature : Bool} {inSpace : Prop} :
    ¬ (feature = false ∧ inSpace) ↔ feature = true ∨ ¬ inSpace := by
  cases feature <;> simp

/-- An instruction of the full decoder is kept exactly when both filters let its word pass. -/
theorem decode_eq_ok_iff_of_full {d : Decoder} {w : Word} {i : Instruction}
    (h : full.decode w = .ok i) :
    d.decode w = .ok i ↔ (d.pointerAuth = true ∨ ¬ w.InAuthenticatedSpace) ∧
      (d.hintedBranches = true ∨ ¬ w.InHintedSpace) := by
  rw [← passes_iff, ← passes_iff, decode_eq_filters, h]
  split
  next hauth => exact iff_of_false (fun he => nomatch he) (fun hpass => hpass.1 hauth)
  next hauth =>
    split
    next hhint => exact iff_of_false (fun he => nomatch he) (fun hpass => hpass.2 hhint)
    next hhint => exact iff_of_true rfl ⟨hauth, hhint⟩

/-- An accepted `blr` is the row of the register group with `op3` zero. -/
theorem op3_of_full_decode_blr {w : Word} {i : Instruction} (h : full.decode w = .ok i)
    (hm : i.mnemonic = .blr) : w.field 10 6 = 0#6 := by
  obtain ⟨g, hg, hi⟩ := full_decode_eq_ok_iff.mp h
  obtain rfl : g = .register := Group.register_of_authenticates (Group.mnemonic_mem hi) (.inr hm)
  obtain ⟨_, form, hrow, _, rfl⟩ := Indirect.decode_eq_ok_iff.mp hi
  exact hrow.op3_of_blr hm

/-- **What a configured decoder keeps of the full decoder's instructions.** It loses the instructions that
authenticate and, with them, the plain `blr` under `opc` 1001, which it refuses at `op3`; and it loses
`bc`. Nothing else is lost, and nothing comes out changed. -/
theorem accepted_without_features_iff (d : Decoder) (w : Word) (i : Instruction)
    (h : full.decode w = .ok i) :
    (d.decode w = .ok i ↔
      (d.pointerAuth = true ∨ i.mnemonic.authenticates = false ∧
        ¬ (i.mnemonic = .blr ∧ w.field 21 4 = 0b1001#4)) ∧
      (d.hintedBranches = true ∨ i.mnemonic ≠ .bc)) ∧
    (d.pointerAuth = false → i.mnemonic = .blr → w.field 21 4 = 0b1001#4 →
      d.decode w = .error (.unallocated .register "op3" 0)) := by
  have hauth := inAuthenticatedSpace_iff_of_full_decode h
  have hhint : w.InHintedSpace ↔ i.mnemonic = .bc := by
    obtain ⟨g, hg, hi⟩ := full_decode_eq_ok_iff.mp h
    exact (Group.mnemonic_eq_bc_iff hg hi).symm
  refine ⟨?_, ?_⟩
  · rw [decode_eq_ok_iff_of_full h, hauth, hhint, not_or, Bool.not_eq_true]
  · intro hpa hm hopc
    rw [decode_eq_filters, if_pos ⟨hpa, hauth.mpr (.inr ⟨hm, hopc⟩)⟩, op3_of_full_decode_blr h hm]
    rfl

/-- The base decoder keeps `blr x8` in its plain encoding. -/
theorem baseline_keeps_blr :
    full.decode 0xd63f0100#32 =
        .ok { mnemonic := .blr, operands := { first := .register (.x 8) }, category := .branch } ∧
      baseline.decode 0xd63f0100#32 =
        .ok { mnemonic := .blr, operands := { first := .register (.x 8) }, category := .branch } := by
  refine ⟨rfl, ?_⟩
  refine (accepted_without_features_iff baseline 0xd63f0100#32 _ rfl).1.mpr ⟨.inr ⟨rfl, ?_⟩, .inr ?_⟩
  · rintro ⟨_, hopc⟩
    exact absurd hopc (by decide)
  · decide

/-- Switching pointer authentication off loses more than the instructions that authenticate: `blr x0`
under `opc` 1001 is refused without it. -/
theorem plain_call_lost_without_pointerAuth :
    ¬ ∀ (d : Decoder) (w : Word) (i : Instruction), full.decode w = .ok i →
      (d.pointerAuth = true ∨ i.mnemonic.authenticates = false) →
      (d.hintedBranches = true ∨ i.mnemonic ≠ .bc) → d.decode w = .ok i := by
  intro hkeeps
  let i : Instruction :=
    { mnemonic := .blr, operands := { first := .register (.x 0) }, category := .branch }
  have hfull : full.decode 0xd73f0000#32 = .ok i := rfl
  have hoff : Decoder.decode { pointerAuth := false } 0xd73f0000#32 =
      .error (.unallocated .register "op3" 0) := rfl
  have hkept := hkeeps { pointerAuth := false } 0xd73f0000#32 i hfull (.inr rfl) (.inl rfl)
  rw [hoff] at hkept
  cases hkept

end Decoder

end BranchWord
