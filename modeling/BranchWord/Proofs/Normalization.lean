/-
# `BranchWord.Proofs.Normalization` — decoding as a member is decoding the member it would be.

`Group.decode` takes any word and does not ask whether the word is a member of the group. What it makes of a
word that is none is nothing of its own: it is the decoding of the member that the word becomes when the bits
that the group fixes are put to the group's pattern (`Group.normalize`).

* `AgreeOff` — two words differ in the bits of a pattern at most;
* `Group.decode_congr` — such words are decoded alike, so no group looks at a bit that it fixes;
* `Word.overwrite` — a word with one field replaced; the field reads as the new value
  (`field_overwrite_self`) and the bits outside it are untouched (`bit_overwrite_of_not_mem`).
-/
import BranchWord.Proofs.Decoding

namespace BranchWord

open Layout

/-! ## Replacing a field -/

namespace Word

/-- The word with the bits from `low` upwards replaced by `v`. -/
def overwrite {n : Nat} (low : Nat) (v : BitVec n) (w : Word) : Word :=
  (w &&& ~~~place low (BitVec.allOnes n)) ||| place low v

variable {n low i : Nat} (v : BitVec n) (w : Word)

theorem bit_overwrite : (w.overwrite low v).bit i =
    ((w.bit i && (decide (i < 32) && !(place low (BitVec.allOnes n)).bit i)) || (place low v).bit i) := by
  simp only [overwrite, bit, BitVec.getLsbD_or, BitVec.getLsbD_and, BitVec.getLsbD_not]

/-- A bit of the replaced field is a bit of the new value. -/
theorem bit_overwrite_of_mem (hword : i < 32) (h : low ≤ i ∧ i < low + n) :
    (w.overwrite low v).bit i = v.getLsbD (i - low) := by
  have hlow : ¬ i < low := by omega
  have hin : i - low < n := by omega
  rw [bit_overwrite]
  simp only [bit, getLsbD_place, BitVec.getLsbD_allOnes, hword, hlow, hin, decide_true, decide_false,
    Bool.not_false, Bool.true_and, Bool.not_true, Bool.and_false, Bool.false_or]

/-- Nothing is placed outside the field. -/
theorem bit_place_of_not_mem (h : ¬ (low ≤ i ∧ i < low + n)) : (place low v).bit i = false := by
  rcases Nat.lt_or_ge i low with hlow | hlow
  · exact bit_place_of_lt v hlow
  · exact bit_place_of_le v (by omega)

/-- A bit outside the replaced field is left as it was. -/
theorem bit_overwrite_of_not_mem (h : ¬ (low ≤ i ∧ i < low + n)) :
    (w.overwrite low v).bit i = w.bit i := by
  rw [bit_overwrite, bit_place_of_not_mem _ h, bit_place_of_not_mem _ h]
  rcases Nat.lt_or_ge i 32 with hword | hword
  · simp [hword]
  · simp [bit, BitVec.getLsbD_of_ge w i hword]

/-- The replaced field reads as the new value. -/
theorem field_overwrite_self (h : low + n ≤ 32) : (w.overwrite low v).field low n = v := by
  apply BitVec.eq_of_getLsbD_eq
  intro i hi
  have hbit := bit_overwrite_of_mem v w (show low + i < 32 by omega) (show low ≤ low + i ∧ _ by omega)
  rw [Nat.add_sub_cancel_left] at hbit
  simp only [getLsbD_field, hi, decide_true, Bool.true_and]
  exact hbit

end Word

/-! ## Words that differ in the bits of a pattern at most -/

namespace Pattern

/-- The words agree on every bit that the pattern does not fix. -/
def AgreeOff (p : Pattern) (u w : Word) : Prop :=
  ∀ i, ¬ (p.low ≤ i ∧ i < p.low + p.width) → u.bit i = w.bit i

variable {p : Pattern} {u w : Word}

/-- They agree on a field below or above the pattern. -/
theorem AgreeOff.field (h : p.AgreeOff u w) {low width : Nat}
    (hoff : low + width ≤ p.low ∨ p.low + p.width ≤ low) : u.field low width = w.field low width := by
  apply BitVec.eq_of_getLsbD_eq
  intro i hi
  have hbit : u.bit (low + i) = w.bit (low + i) := h _ (by omega)
  simp only [Word.getLsbD_field, hi, decide_true, Bool.true_and]
  exact hbit

theorem agreeOff_overwrite (p : Pattern) (w : Word) :
    p.AgreeOff (w.overwrite p.low p.value) w :=
  fun _ => Word.bit_overwrite_of_not_mem p.value w

end Pattern

/-- A field below or above the replaced one is left as it was. -/
theorem Word.field_overwrite_of_disjoint {n low start width : Nat} (v : BitVec n) (w : Word)
    (h : start + width ≤ low ∨ low + n ≤ start) :
    (w.overwrite low v).field start width = w.field start width :=
  (Pattern.agreeOff_overwrite ⟨low, n, v⟩ w).field h

/-! ## No group looks at the bits that it fixes -/

namespace Layout

variable {u w : Word}

theorem Conditional.ofWord_congr (h : Group.conditional.pattern.AgreeOff u w) :
    ofWord u = ofWord w := by
  have ho1 : u.bit 24 = w.bit 24 := h 24 (by decide)
  have himm19 : u.field 5 19 = w.field 5 19 := h.field (by decide)
  have ho0 : u.bit 4 = w.bit 4 := h 4 (by decide)
  have hcond : u.field 0 4 = w.field 0 4 := h.field (by decide)
  simp only [ofWord, ho1, himm19, ho0, hcond]

theorem Unconditional.ofWord_congr (h : Group.unconditional.pattern.AgreeOff u w) :
    ofWord u = ofWord w := by
  have hop : u.bit 31 = w.bit 31 := h 31 (by decide)
  have himm26 : u.field 0 26 = w.field 0 26 := h.field (by decide)
  simp only [ofWord, hop, himm26]

theorem Compare.ofWord_congr (h : Group.compare.pattern.AgreeOff u w) : ofWord u = ofWord w := by
  have hsf : u.bit 31 = w.bit 31 := h 31 (by decide)
  have hop : u.bit 24 = w.bit 24 := h 24 (by decide)
  have himm19 : u.field 5 19 = w.field 5 19 := h.field (by decide)
  have hrt : u.field 0 5 = w.field 0 5 := h.field (by decide)
  simp only [ofWord, hsf, hop, himm19, hrt]

theorem Test.ofWord_congr (h : Group.test.pattern.AgreeOff u w) : ofWord u = ofWord w := by
  have hb5 : u.bit 31 = w.bit 31 := h 31 (by decide)
  have hop : u.bit 24 = w.bit 24 := h 24 (by decide)
  have hb40 : u.field 19 5 = w.field 19 5 := h.field (by decide)
  have himm14 : u.field 5 14 = w.field 5 14 := h.field (by decide)
  have hrt : u.field 0 5 = w.field 0 5 := h.field (by decide)
  simp only [ofWord, hb5, hop, hb40, himm14, hrt]

theorem Indirect.ofWord_congr (h : Group.register.pattern.AgreeOff u w) : ofWord u = ofWord w := by
  have hopc : u.field 21 4 = w.field 21 4 := h.field (by decide)
  have hop2 : u.field 16 5 = w.field 16 5 := h.field (by decide)
  have hop3 : u.field 10 6 = w.field 10 6 := h.field (by decide)
  have hrn : u.field 5 5 = w.field 5 5 := h.field (by decide)
  have hop4 : u.field 0 5 = w.field 0 5 := h.field (by decide)
  simp only [ofWord, hopc, hop2, hop3, hrn, hop4]

end Layout

namespace Group

/-- **No group looks at a bit that it fixes**: words that agree on the other bits are decoded alike. -/
theorem decode_congr {g : Group} {u w : Word} (h : g.pattern.AgreeOff u w) :
    g.decode u = g.decode w := by
  cases g with
  | conditional => simp only [decode, Conditional.ofWord_congr h]
  | unconditional => simp only [decode, Unconditional.ofWord_congr h]
  | compare => simp only [decode, Compare.ofWord_congr h]
  | test => simp only [decode, Test.ofWord_congr h]
  | register => simp only [decode, Indirect.ofWord_congr h]

/-! ## The member that a word becomes -/

/-- The word with the bits that the group fixes put to the group's pattern. -/
def normalize (g : Group) (w : Word) : Word := w.overwrite g.pattern.low g.pattern.value

theorem agreeOff_normalize (g : Group) (w : Word) : g.pattern.AgreeOff (g.normalize w) w :=
  Pattern.agreeOff_overwrite g.pattern w

theorem matches_normalize (g : Group) (w : Word) : g.pattern.Matches (g.normalize w) := by
  have hwidth : g.pattern.low + g.pattern.width ≤ 32 := by cases g <;> decide
  exact Word.field_overwrite_self g.pattern.value w hwidth

/-- The full decoder makes of the member what the group makes of the word. -/
theorem full_decode_normalize (g : Group) (w : Word) :
    Decoder.full.decode (g.normalize w) = g.decode w := by
  rw [Decoder.full_decode_of_matches (matches_normalize g w)]
  exact decode_congr (agreeOff_normalize g w)

/-- **Decoding a word as a member of a group** is decoding it with the bits of the group's pattern put in.
For every group and every word, be it a member or not, the word so changed is a member of the group and
differs from the first one in the bits of the pattern at most; and the full decoder gives for it what the group
gives for the first one, instruction or error. The five lines at the end say the same group by group, with the
patterns and the decoders of the fields written out. -/
theorem decode_eq_full_decode_normalize (w : Word) :
    (∀ g : Group,
      g.pattern.Matches (g.normalize w) ∧
      (∀ i, ¬ (g.pattern.low ≤ i ∧ i < g.pattern.low + g.pattern.width) →
        (g.normalize w).bit i = w.bit i) ∧
      Group.ofWord? (g.normalize w) = some g ∧
      Decoder.full.decode (g.normalize w) = g.decode w) ∧
    Decoder.full.decode (w.overwrite 25 0b0101010#7) = (Conditional.ofWord w).decode ∧
    Decoder.full.decode (w.overwrite 26 0b00101#5) = .ok (Unconditional.ofWord w).decode ∧
    Decoder.full.decode (w.overwrite 25 0b011010#6) = .ok (Compare.ofWord w).decode ∧
    Decoder.full.decode (w.overwrite 25 0b011011#6) = .ok (Test.ofWord w).decode ∧
    Decoder.full.decode (w.overwrite 25 0b1101011#7) = (Indirect.ofWord w).decode := by
  refine ⟨?_, full_decode_normalize .conditional w, full_decode_normalize .unconditional w,
    full_decode_normalize .compare w, full_decode_normalize .test w, full_decode_normalize .register w⟩
  intro g
  have hmember := matches_normalize g w
  exact ⟨hmember, agreeOff_normalize g w, ofWord?_eq_some_iff.mpr hmember, full_decode_normalize g w⟩

/-- All ones, read as a branch through a register, is the member 0xd7ffffff; its `opc` is unallocated. -/
example : Group.register.normalize 0xffffffff#32 = 0xd7ffffff#32 ∧
    Group.register.decode 0xffffffff#32 = .error (.unallocated .register "opc" 15) :=
  ⟨by decide, rfl⟩

end Group

end BranchWord
