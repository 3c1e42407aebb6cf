/-
# `BranchWord.Proofs.Sharing` — exactly which words share a decoding.

Two accepted words decode to the same record exactly when they have the same canonical form: a record
determines the word that the encoder writes for it, and that word is the canonical form of each word the
record was decoded from (`full_decode_eq_iff_canonical`). What remains is a question about fields, answered
once for the layouts (`canonical_eq_iff`) and then read off the bits of the two words:

* the words of `drps` all have the upper half 0xd6bf, and the lower half is ignored;
* two words of a call may differ in bit 24, which chooses between the two `opc` of the call table.

No other two words share a decoding, in particular none across groups and none within a group with an offset.
-/
import BranchWord.Proofs.Encoding
import BranchWord.Proofs.Features

namespace BranchWord

open Layout

/-! ## Words that differ in one bit -/

/-- **Words that differ in bit 24 alone**: the highest bit of `opc`, as the register group reads it. -/
theorem Layout.Indirect.xor_eq_iff {u w : Word} :
    u ^^^ w = 0x01000000#32 ↔ w.field 25 7 = u.field 25 7 ∧
      ofWord w = { ofWord u with opc := (ofWord u).opc ^^^ 0b1000#4 } := by
  refine ⟨?_, ?_⟩
  · intro h
    obtain rfl : w = u ^^^ 0x01000000#32 := by
      rw [← h, ← BitVec.xor_assoc, BitVec.xor_self, BitVec.zero_xor]
    -- outside the highest bit of `opc` every field of the difference is zero
    have hzero : ∀ {low width : Nat}, Word.field 0x01000000#32 low width = 0 →
        Word.field (u ^^^ 0x01000000#32) low width = u.field low width := by
      intro low width hfield
      rw [Word.field_xor, hfield]
      exact BitVec.xor_zero
    refine ⟨hzero (by decide), ?_⟩
    simp only [ofWord, Indirect.mk.injEq]
    exact ⟨Word.field_xor .., hzero (by decide), hzero (by decide), hzero (by decide),
      hzero (by decide)⟩
  · rintro ⟨htop, h⟩
    obtain ⟨hopc, hop2, hop3, hrn, hop4⟩ := Indirect.mk.inj h
    have hsame : ∀ {low width : Nat}, w.field low width = u.field low width →
        Word.field 0x01000000#32 low width = 0 →
        Word.field (u ^^^ w) low width = Word.field 0x01000000#32 low width := by
      intro low width hfield hzero
      rw [Word.field_xor, hfield, hzero]
      exact BitVec.xor_self
    have hdiff : Word.field (u ^^^ w) 21 4 = Word.field 0x01000000#32 21 4 := by
      rw [Word.field_xor, show w.field 21 4 = u.field 21 4 ^^^ 0b1000#4 from hopc, ← BitVec.xor_assoc,
        BitVec.xor_self]
      decide
    apply Word.eq_of_field_all
    have f₀ := Word.field_add_congr (hsame hop4 (by decide)) (hsame hrn (by decide))
    have f₁ := Word.field_add_congr f₀ (hsame hop3 (by decide))
    have f₂ := Word.field_add_congr f₁ (hsame hop2 (by decide))
    have f₃ := Word.field_add_congr f₂ hdiff
    exact Word.field_add_congr f₃ (hsame htop (by decide))

/-! ## Layouts with the same canonical form -/

namespace Layout.Indirect

/-- The two `opc` of the call table differ in their highest bit. -/
theorem eq_or_eq_xor_of_isCall {a b : BitVec 4} (ha : IsCall a) (hb : IsCall b) :
    b = a ∨ b = a ^^^ 0b1000#4 := by
  rcases ha with rfl | rfl <;> rcases hb with rfl | rfl <;> decide

theorem IsCall.xor {a : BitVec 4} (h : IsCall a) : IsCall (a ^^^ 0b1000#4) := by
  rcases h with rfl | rfl <;> decide

theorem canonical_opc_eq_restore_iff {l : Indirect} :
    l.canonical.opc = 0b0101#4 ↔ l.opc = 0b0101#4 := by
  by_cases hrestore : l.opc = 0b0101#4
  · rw [canonical_of_restore hrestore]
  by_cases hcall : IsCall l.opc
  · have hwritten : callOpc l.op3 l.op4 ≠ 0b0101#4 := by
      rcases isCall_callOpc l.op3 l.op4 with h | h <;> rw [h] <;> decide
    rw [canonical_of_isCall hcall]
    exact iff_of_false hwritten hrestore
  · rw [canonical_eq_self hrestore hcall]

theorem isCall_canonical_iff {l : Indirect} : IsCall l.canonical.opc ↔ IsCall l.opc := by
  by_cases hrestore : l.opc = 0b0101#4
  · rw [canonical_of_restore hrestore]
  by_cases hcall : IsCall l.opc
  · rw [canonical_of_isCall hcall]
    exact iff_of_true (isCall_callOpc _ _) hcall
  · rw [canonical_eq_self hrestore hcall]

/-- **Layouts with the same canonical form** are equal, or both are the debug restore with the same `op2`,
or both are a call and equal up to the choice of `opc`. -/
theorem canonical_eq_iff {l k : Indirect} :
    l.canonical = k.canonical ↔ k = l ∨ (l.opc = 0b0101#4 ∧ k.opc = 0b0101#4 ∧ l.op2 = k.op2) ∨
      (IsCall l.opc ∧ k = { l with opc := l.opc ^^^ 0b1000#4 }) := by
  refine ⟨?_, ?_⟩
  · intro h
    by_cases hrestore : l.opc = 0b0101#4
    · have hk : k.opc = 0b0101#4 := by
        rw [← canonical_opc_eq_restore_iff, ← h, canonical_opc_eq_restore_iff]
        exact hrestore
      rw [canonical_of_restore hrestore, canonical_of_restore hk] at h
      exact .inr (.inl ⟨hrestore, hk, (Indirect.mk.inj h).2.1⟩)
    have hrestore' : k.opc ≠ 0b0101#4 := by
      rw [ne_eq, ← canonical_opc_eq_restore_iff, ← h, canonical_opc_eq_restore_iff]
      exact hrestore
    by_cases hcall : IsCall l.opc
    · have hk : IsCall k.opc := by
        rw [← isCall_canonical_iff, ← h, isCall_canonical_iff]
        exact hcall
      rw [canonical_of_isCall hcall, canonical_of_isCall hk] at h
      obtain ⟨_, hop2, hop3, hrn, hop4⟩ := Indirect.mk.inj h
      obtain ⟨opc, op2, op3, rn, op4⟩ := k
      subst hop2 hop3 hrn hop4
      rcases eq_or_eq_xor_of_isCall hcall hk with hopc | hopc
      · subst hopc
        exact .inl rfl
      · subst hopc
        exact .inr (.inr ⟨hcall, rfl⟩)
    · have hcall' : ¬ IsCall k.opc := by
        rw [← isCall_canonical_iff, ← h, isCall_canonical_iff]
        exact hcall
      rw [canonical_eq_self hrestore hcall, canonical_eq_self hrestore' hcall'] at h
      exact .inl h.symm
  · rintro (rfl | ⟨hl, hk, hop2⟩ | ⟨hcall, rfl⟩)
    · rfl
    · rw [canonical_of_restore hl, canonical_of_restore hk, hl, hk, hop2]
    · rw [canonical_of_isCall hcall, canonical_of_isCall hcall.xor]

end Layout.Indirect

/-! ## Words with the same canonical form -/

/-- **Accepted words share a decoding** exactly when they have the same canonical form. -/
theorem Decoder.full_decode_eq_iff_canonical {u w : Word} {i j : Instruction}
    (hu : full.decode u = .ok i) (hw : full.decode w = .ok j) :
    full.decode u = full.decode w ↔ u.canonical = w.canonical := by
  refine ⟨?_, ?_⟩
  · intro h
    rw [hu, hw] at h
    obtain rfl := Except.ok.inj h
    have hencode := (encode?_of_full_decode hu).symm.trans (encode?_of_full_decode hw)
    exact Option.some.inj hencode
  · intro h
    rw [← full_decode_canonical u, h, full_decode_canonical]

/-- Canonical forms stay in the register group or out of it. -/
theorem Word.matches_register_canonical_iff {w : Word} :
    Group.register.pattern.Matches w.canonical ↔ Group.register.pattern.Matches w := by
  unfold canonical
  split
  next h => exact iff_of_true (Indirect.matches_toWord _) h
  next h => exact iff_of_false h h

/-- Words of the register group have the same canonical form when their fields do. -/
theorem Word.canonical_eq_iff_of_register {u w : Word} (hu : Group.register.pattern.Matches u)
    (hw : Group.register.pattern.Matches w) :
    u.canonical = w.canonical ↔ (Indirect.ofWord u).canonical = (Indirect.ofWord w).canonical := by
  rw [canonical_of_register hu, canonical_of_register hw]
  refine ⟨?_, congrArg Indirect.toWord⟩
  intro h
  rw [← Indirect.ofWord_toWord (Indirect.ofWord u).canonical, h, Indirect.ofWord_toWord]

/-- **Words with the same canonical form** are equal, or both are words of the register group: of the debug
restore with the same `op2`, or of a call and different in bit 24 alone. -/
theorem Word.canonical_eq_canonical_iff {u w : Word} :
    u.canonical = w.canonical ↔ u = w ∨
      (Group.register.pattern.Matches u ∧ Group.register.pattern.Matches w ∧
        u.field 21 4 = 0b0101#4 ∧ w.field 21 4 = 0b0101#4 ∧ u.field 16 5 = w.field 16 5) ∨
      (Group.register.pattern.Matches u ∧ Indirect.IsCall (u.field 21 4) ∧
        u ^^^ w = 0x01000000#32) := by
  refine ⟨?_, ?_⟩
  · intro h
    by_cases hu : Group.register.pattern.Matches u
    · have hw : Group.register.pattern.Matches w := by
        rw [← matches_register_canonical_iff, ← h, matches_register_canonical_iff]
        exact hu
      rcases Indirect.canonical_eq_iff.mp ((canonical_eq_iff_of_register hu hw).mp h) with
        heq | ⟨hopc, hopc', hop2⟩ | ⟨hcall, heq⟩
      · exact .inl (Indirect.eq_of_ofWord hu hw heq.symm)
      · exact .inr (.inl ⟨hu, hw, hopc, hopc', hop2⟩)
      · exact .inr (.inr ⟨hu, hcall, Indirect.xor_eq_iff.mpr ⟨hw.field_congr hu, heq⟩⟩)
    · have hw : ¬ Group.register.pattern.Matches w := by
        rw [← matches_register_canonical_iff, ← h, matches_register_canonical_iff]
        exact hu
      rw [canonical, if_neg hu, canonical, if_neg hw] at h
      exact .inl h
  · rintro (rfl | ⟨hu, hw, hopc, hopc', hop2⟩ | ⟨hu, hcall, hxor⟩)
    · rfl
    · rw [canonical_eq_iff_of_register hu hw]
      exact Indirect.canonical_eq_iff.mpr (.inr (.inl ⟨hopc, hopc', hop2⟩))
    · obtain ⟨htop, heq⟩ := Indirect.xor_eq_iff.mp hxor
      have hw : Group.register.pattern.Matches w := htop.trans hu
      rw [canonical_eq_iff_of_register hu hw]
      exact Indirect.canonical_eq_iff.mpr (.inr (.inr ⟨hcall, heq⟩))

/-! ## The two exceptions on accepted words -/

/-- The upper half of the words of the debug restore. -/
theorem Word.upper_half_restore_iff {w : Word} :
    w.field 16 16 = 0xd6bf#16 ↔ Group.register.pattern.Matches w ∧ w.field 21 4 = 0b0101#4 ∧
      w.field 16 5 = 0b11111#5 := by
  have hlower := field_eq_append_iff w 16 (0b1101011#7 ++ 0b0101#4) 0b11111#5
  have hupper := field_eq_append_iff w 21 0b1101011#7 0b0101#4
  rw [hupper, and_assoc] at hlower
  exact hlower

/-- The calls: the instructions with two words. -/
def Mnemonic.calls : List Mnemonic := [.blr, .blraa, .blrab, .blraaz, .blrabz]

/-- An instruction of the register group is a call exactly under the `opc` of the call table. -/
theorem Layout.Indirect.Row.isCall_iff {opc : BitVec 4} {op3 : BitVec 6} {form : Indirect.Form}
    (hrow : Indirect.Row opc op3 form) (rn op4 : BitVec 5) :
    (form.shape.instruction rn op4).mnemonic ∈ Mnemonic.calls ↔ Indirect.IsCall opc := by
  by_cases h : op4 = 31#5 <;> cases hrow <;>
    simp [Mnemonic.calls, Indirect.Shape.instruction, Indirect.IsCall, h] <;> assumption

/-- Only the register group has calls. -/
theorem Group.register_of_calls {g : Group} {m : Mnemonic} (hmem : m ∈ g.mnemonics)
    (hm : m ∈ Mnemonic.calls) : g = .register := by
  revert m
  cases g <;> decide

namespace Decoder

/-- An accepted word is a call exactly when it has an `opc` of the call table. -/
theorem mem_calls_iff_of_full_decode {w : Word} {i : Instruction} (h : full.decode w = .ok i) :
    i.mnemonic ∈ Mnemonic.calls ↔
      Group.register.pattern.Matches w ∧ Indirect.IsCall (w.field 21 4) := by
  obtain ⟨g, hg, hi⟩ := full_decode_eq_ok_iff.mp h
  by_cases hreg : g = .register
  · subst hreg
    obtain ⟨_, form, hrow, _, rfl⟩ := Indirect.decode_eq_ok_iff.mp hi
    exact (hrow.isCall_iff _ _).trans ⟨fun hcall => ⟨hg, hcall⟩, And.right⟩
  · refine iff_of_false ?_ ?_
    · exact fun hm => hreg (Group.register_of_calls (Group.mnemonic_mem hi) hm)
    · exact fun hcall => hreg (Group.eq_of_matches hg hcall.1)

/-- An accepted word of the register group has the one `op2` that is allocated. -/
theorem op2_of_full_decode {w : Word} {i : Instruction} (h : full.decode w = .ok i)
    (hg : Group.register.pattern.Matches w) : w.field 16 5 = 0b11111#5 := by
  rw [full_decode_of_matches hg] at h
  exact (Indirect.decode_eq_ok_iff.mp h).1

/-- **Exactly which accepted words share a decoding**: equal words, words of the debug restore, and words of
a call that differ in bit 24 alone. So no two words of different groups share one, and no two distinct words
of a group with an offset. -/
theorem full_decode_eq_iff (u w : Word) (i j : Instruction) (hu : full.decode u = .ok i)
    (hw : full.decode w = .ok j) :
    (full.decode u = full.decode w ↔
      u = w ∨ (u.field 16 16 = 0xd6bf#16 ∧ w.field 16 16 = 0xd6bf#16) ∨
        (u ^^^ w = 0x01000000#32 ∧ i.mnemonic ∈ [.blr, .blraa, .blrab, .blraaz, .blrabz])) ∧
    (Group.ofWord? u ≠ Group.ofWord? w → full.decode u ≠ full.decode w) ∧
    (∀ g : Group, g ≠ .register → g.pattern.Matches u → g.pattern.Matches w → u ≠ w →
      full.decode u ≠ full.decode w) := by
  have hcanonical := (full_decode_eq_iff_canonical hu hw).trans Word.canonical_eq_canonical_iff
  refine ⟨hcanonical.trans (or_congr_right (or_congr ?_ ?_)), ?_, ?_⟩
  · rw [Word.upper_half_restore_iff, Word.upper_half_restore_iff]
    refine ⟨?_, ?_⟩
    · rintro ⟨hgu, hgw, hopc, hopc', _⟩
      exact ⟨⟨hgu, hopc, op2_of_full_decode hu hgu⟩, hgw, hopc', op2_of_full_decode hw hgw⟩
    · rintro ⟨⟨hgu, hopc, hop2⟩, hgw, hopc', hop2'⟩
      exact ⟨hgu, hgw, hopc, hopc', hop2.trans hop2'.symm⟩
  · rw [← and_assoc, and_comm]
    exact and_congr_right fun _ => (mem_calls_iff_of_full_decode hu).symm
  · intro hne h
    rcases hcanonical.mp h with rfl | ⟨hgu, hgw, _⟩ | ⟨hgu, _, hxor⟩
    · exact hne rfl
    · exact hne ((Group.ofWord?_eq_some_iff.mpr hgu).trans (Group.ofWord?_eq_some_iff.mpr hgw).symm)
    · have hgw : Group.register.pattern.Matches w := (Indirect.xor_eq_iff.mp hxor).1.trans hgu
      exact hne ((Group.ofWord?_eq_some_iff.mpr hgu).trans (Group.ofWord?_eq_some_iff.mpr hgw).symm)
  · intro g hg hgu _ hne h
    -- both exceptions are in the register group
    rcases hcanonical.mp h with heq | ⟨hreg, _⟩ | ⟨hreg, _⟩
    · exact hne heq
    · exact hg (Group.eq_of_matches hgu hreg)
    · exact hg (Group.eq_of_matches hgu hreg)

/-- `blr x8` has two words, one under each `opc` of the call table. -/
theorem blr_words_share :
    full.decode 0xd63f0100#32 =
        .ok { mnemonic := .blr, operands := { first := .register (.x 8) }, category := .branch } ∧
      full.decode 0xd73f0100#32 =
        .ok { mnemonic := .blr, operands := { first := .register (.x 8) }, category := .branch } ∧
      full.decode 0xd63f0100#32 = full.decode 0xd73f0100#32 := by
  refine ⟨rfl, rfl, ?_⟩
  exact (full_decode_eq_iff 0xd63f0100#32 0xd73f0100#32 _ _ rfl rfl).1.mpr
    (.inr (.inr ⟨by decide, by decide⟩))

end Decoder

end BranchWord
