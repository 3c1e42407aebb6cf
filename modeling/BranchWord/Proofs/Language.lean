/-
# `BranchWord.Proofs.Language` — exactly which words are instructions.

The accepted words are listed here by their bits, without a decoder: four regions of the word space, each
a condition on fields. `Region.Contains` is that list, and its last region is the table of the register
group in the form "these values of `op3`, `Rn` and `op4` under that `opc`" (`RegisterAllocated`).

The decoder is brought to the same form in three steps:

* `exists_row_iff` — the rows of the register group are the values in the list;
* `exists_decode_register_iff` and `exists_decode_conditional_iff` — the two groups that can refuse a word;
* `Region.contains_iff` — a region is the set of accepted members of its groups.

Groups do not overlap, so neither do regions, and a word is accepted exactly when one region has it.
-/
import Mathlib.Logic.ExistsUnique
import BranchWord.Proofs.Decoding

namespace BranchWord

open Layout

/-! ## The list of allocated words -/

/-- The form without authentication: no key and an empty last field. -/
def Plain (op3 : BitVec 6) (op4 : BitVec 5) : Prop := op3 = 0b000000#6 ∧ op4 = 0b00000#5

/-- The forms with key A and key B. -/
def Keyed (op3 : BitVec 6) : Prop := op3 = 0b000010#6 ∨ op3 = 0b000011#6

/-- The allocated values of the fields behind `op2` in the register group. -/
def RegisterAllocated (opc : BitVec 4) (op3 : BitVec 6) (rn op4 : BitVec 5) : Prop :=
  (opc = 0b0000#4 ∧ (Plain op3 op4 ∨ Keyed op3 ∧ op4 = 0b11111#5)) ∨
  (opc = 0b1000#4 ∧ Keyed op3) ∨
  ((opc = 0b0001#4 ∨ opc = 0b1001#4) ∧ (Plain op3 op4 ∨ Keyed op3)) ∨
  (opc = 0b0010#4 ∧ (Plain op3 op4 ∨ Keyed op3 ∧ rn = 0b11111#5 ∧ op4 = 0b11111#5)) ∨
  (opc = 0b0100#4 ∧ rn = 0b11111#5 ∧ (Plain op3 op4 ∨ Keyed op3 ∧ op4 = 0b11111#5)) ∨
  opc = 0b0101#4

/-- The four regions of the word space that hold instructions. -/
inductive Region where
  /-- conditional branches whose reserved bit is zero -/
  | conditional
  /-- unconditional branches -/
  | unconditional
  /-- compare and branch, test and branch -/
  | compareOrTest
  /-- branches through a register with allocated fields -/
  | register
  deriving DecidableEq, Repr

/-- The bits that put a word into a region. -/
def Region.Contains (r : Region) (w : Word) : Prop :=
  match r with
  | .conditional => w.field 24 8 = 0b01010100#8
  | .unconditional => w.field 26 5 = 0b00101#5
  | .compareOrTest => w.field 25 6 = 0b011010#6 ∨ w.field 25 6 = 0b011011#6
  | .register => w.field 25 7 = 0b1101011#7 ∧ w.field 16 5 = 0b11111#5 ∧
      RegisterAllocated (w.field 21 4) (w.field 10 6) (w.field 5 5) (w.field 0 5)

/-! ## The register group -/

/-- **The rows are the list**: a row admits the last two fields exactly when the list has the values. -/
theorem exists_row_iff {opc : BitVec 4} {op3 : BitVec 6} {rn op4 : BitVec 5} :
    (∃ form, Indirect.Row opc op3 form ∧ form.Admits rn op4) ↔ RegisterAllocated opc op3 rn op4 := by
  refine ⟨?_, ?_⟩
  · rintro ⟨form, hrow, hadmits⟩
    cases hrow with
    | br => exact .inl ⟨rfl, .inl ⟨rfl, hadmits.op4 _ rfl⟩⟩
    | braaz => exact .inl ⟨rfl, .inr ⟨.inl rfl, hadmits.op4 _ rfl⟩⟩
    | brabz => exact .inl ⟨rfl, .inr ⟨.inr rfl, hadmits.op4 _ rfl⟩⟩
    | braa => exact .inr (.inl ⟨rfl, .inl rfl⟩)
    | brab => exact .inr (.inl ⟨rfl, .inr rfl⟩)
    | blr hopc => exact .inr (.inr (.inl ⟨hopc, .inl ⟨rfl, hadmits.op4 _ rfl⟩⟩))
    | blraa hopc => exact .inr (.inr (.inl ⟨hopc, .inr (.inl rfl)⟩))
    | blrab hopc => exact .inr (.inr (.inl ⟨hopc, .inr (.inr rfl)⟩))
    | ret => exact .inr (.inr (.inr (.inl ⟨rfl, .inl ⟨rfl, hadmits.op4 _ rfl⟩⟩)))
    | retaa =>
      exact .inr (.inr (.inr (.inl
        ⟨rfl, .inr ⟨.inl rfl, hadmits.rn _ rfl, hadmits.op4 _ rfl⟩⟩)))
    | retab =>
      exact .inr (.inr (.inr (.inl
        ⟨rfl, .inr ⟨.inr rfl, hadmits.rn _ rfl, hadmits.op4 _ rfl⟩⟩)))
    | eret =>
      exact .inr (.inr (.inr (.inr (.inl
        ⟨rfl, hadmits.rn _ rfl, .inl ⟨rfl, hadmits.op4 _ rfl⟩⟩))))
    | eretaa =>
      exact .inr (.inr (.inr (.inr (.inl
        ⟨rfl, hadmits.rn _ rfl, .inr ⟨.inl rfl, hadmits.op4 _ rfl⟩⟩))))
    | eretab =>
      exact .inr (.inr (.inr (.inr (.inl
        ⟨rfl, hadmits.rn _ rfl, .inr ⟨.inr rfl, hadmits.op4 _ rfl⟩⟩))))
    | drps => exact .inr (.inr (.inr (.inr (.inr rfl))))
  · rintro (⟨rfl, hfields⟩ | ⟨rfl, hkey⟩ | ⟨hopc, hfields⟩ | ⟨rfl, hfields⟩ | ⟨rfl, rfl, hfields⟩ | rfl)
    · rcases hfields with ⟨rfl, rfl⟩ | ⟨rfl | rfl, rfl⟩
      · exact ⟨_, .br, Indirect.Form.admits_op4 ..⟩
      · exact ⟨_, .braaz, Indirect.Form.admits_op4 ..⟩
      · exact ⟨_, .brabz, Indirect.Form.admits_op4 ..⟩
    · rcases hkey with rfl | rfl
      · exact ⟨_, .braa, Indirect.Form.admits_none ..⟩
      · exact ⟨_, .brab, Indirect.Form.admits_none ..⟩
    · rcases hfields with ⟨rfl, rfl⟩ | rfl | rfl
      · exact ⟨_, .blr hopc, Indirect.Form.admits_op4 ..⟩
      · exact ⟨_, .blraa hopc, Indirect.Form.admits_none ..⟩
      · exact ⟨_, .blrab hopc, Indirect.Form.admits_none ..⟩
    · rcases hfields with ⟨rfl, rfl⟩ | ⟨rfl | rfl, rfl, rfl⟩
      · exact ⟨_, .ret, Indirect.Form.admits_op4 ..⟩
      · exact ⟨_, .retaa, Indirect.Form.admits_rn_op4 ..⟩
      · exact ⟨_, .retab, Indirect.Form.admits_rn_op4 ..⟩
    · rcases hfields with ⟨rfl, rfl⟩ | ⟨rfl | rfl, rfl⟩
      · exact ⟨_, .eret, Indirect.Form.admits_rn_op4 ..⟩
      · exact ⟨_, .eretaa, Indirect.Form.admits_rn_op4 ..⟩
      · exact ⟨_, .eretab, Indirect.Form.admits_rn_op4 ..⟩
    · exact ⟨_, .drps op3, Indirect.Form.admits_none ..⟩

/-- The register group accepts exactly the listed fields behind an `op2` of ones. -/
theorem exists_decode_register_iff {w : Word} :
    (∃ i, Group.register.decode w = .ok i) ↔ w.field 16 5 = 0b11111#5 ∧
      RegisterAllocated (w.field 21 4) (w.field 10 6) (w.field 5 5) (w.field 0 5) := by
  rw [← exists_row_iff]
  refine ⟨?_, ?_⟩
  · rintro ⟨i, h⟩
    obtain ⟨hop2, form, hrow, hadmits, _⟩ := Indirect.decode_eq_ok_iff.mp h
    exact ⟨hop2, form, hrow, hadmits⟩
  · rintro ⟨hop2, form, hrow, hadmits⟩
    exact ⟨_, Indirect.decode_eq_ok_iff.mpr ⟨hop2, form, hrow, hadmits, rfl⟩⟩

/-! ## The conditional group -/

/-- The top eight bits of an accepted conditional branch: the pattern of the group and a zero `o1`. -/
theorem conditional_region_iff {w : Word} :
    w.field 24 8 = 0b01010100#8 ↔ Group.conditional.pattern.Matches w ∧ w.bit 24 = false := by
  have hsplit := Word.field_eq_append_iff w 24 0b0101010#7 (BitVec.ofBool false)
  rw [Word.field_one] at hsplit
  have hflag : BitVec.ofBool (w.bit 24) = BitVec.ofBool false ↔ w.bit 24 = false := by
    cases w.bit 24 <;> decide
  rw [hflag] at hsplit
  exact hsplit

theorem exists_decode_conditional_iff {w : Word} :
    (∃ i, Group.conditional.decode w = .ok i) ↔ w.bit 24 = false := by
  refine ⟨?_, ?_⟩
  · rintro ⟨i, h⟩
    exact (Group.conditional_decode_eq_ok_iff.mp h).1
  · intro h
    exact ⟨_, Group.conditional_decode_eq_ok_iff.mpr ⟨h, rfl⟩⟩

/-! ## Regions and groups -/

/-- The region of a group's accepted words. -/
def Group.region : Group → Region
  | .conditional => .conditional
  | .unconditional => .unconditional
  | .compare | .test => .compareOrTest
  | .register => .register

/-- **A region is the accepted words of its groups.** -/
theorem Region.contains_iff {r : Region} {w : Word} :
    r.Contains w ↔
      ∃ g : Group, g.region = r ∧ g.pattern.Matches w ∧ ∃ i, g.decode w = .ok i := by
  refine ⟨?_, ?_⟩
  · intro h
    cases r with
    | conditional =>
      obtain ⟨hg, ho1⟩ := conditional_region_iff.mp h
      exact ⟨.conditional, rfl, hg, exists_decode_conditional_iff.mpr ho1⟩
    | unconditional => exact ⟨.unconditional, rfl, h, _, rfl⟩
    | compareOrTest =>
      rcases h with h | h
      · exact ⟨.compare, rfl, h, _, rfl⟩
      · exact ⟨.test, rfl, h, _, rfl⟩
    | register => exact ⟨.register, rfl, h.1, exists_decode_register_iff.mpr h.2⟩
  · rintro ⟨g, rfl, hg, hdecode⟩
    cases g with
    | conditional => exact conditional_region_iff.mpr ⟨hg, exists_decode_conditional_iff.mp hdecode⟩
    | unconditional => exact hg
    | compare => exact .inl hg
    | test => exact .inr hg
    | register => exact ⟨hg, exists_decode_register_iff.mp hdecode⟩

/-- A word lies in at most one region. -/
theorem Region.eq_of_contains {r s : Region} {w : Word} (hr : r.Contains w) (hs : s.Contains w) :
    r = s := by
  obtain ⟨g, rfl, hg, _⟩ := contains_iff.mp hr
  obtain ⟨h, rfl, hh, _⟩ := contains_iff.mp hs
  rw [Group.eq_of_matches hg hh]

/-- A word is accepted exactly when exactly one region has it. -/
theorem exists_full_decode_iff {w : Word} :
    (∃ i, Decoder.full.decode w = .ok i) ↔ ∃! r : Region, r.Contains w := by
  refine ⟨?_, ?_⟩
  · rintro ⟨i, h⟩
    obtain ⟨g, hg, hi⟩ := Decoder.full_decode_eq_ok_iff.mp h
    have hr : g.region.Contains w := Region.contains_iff.mpr ⟨g, rfl, hg, i, hi⟩
    exact ⟨g.region, hr, fun s hs => Region.eq_of_contains hs hr⟩
  · rintro ⟨r, hr, _⟩
    obtain ⟨g, _, hg, i, hi⟩ := Region.contains_iff.mp hr
    exact ⟨i, Decoder.full_decode_eq_ok_iff.mpr ⟨g, hg, hi⟩⟩

/-! ## The accepted language -/

/-- **The accepted language.** The full decoder accepts a word exactly when one region has it and no
other. The five patterns exclude each other, the group of a word is the one whose pattern it matches,
found in whatever order the groups are tried, and a word is no branch exactly when it matches none. -/
theorem accepted_language (w : Word) :
    ((∃ i, Decoder.full.decode w = .ok i) ↔ ∃! r : Region, r.Contains w) ∧
    (∀ g h : Group, g ≠ h → ¬ (g.pattern.Matches w ∧ h.pattern.Matches w)) ∧
    ((Group.ofWord? w = some .conditional ↔ w.field 25 7 = 0b0101010#7) ∧
      (Group.ofWord? w = some .unconditional ↔ w.field 26 5 = 0b00101#5) ∧
      (Group.ofWord? w = some .compare ↔ w.field 25 6 = 0b011010#6) ∧
      (Group.ofWord? w = some .test ↔ w.field 25 6 = 0b011011#6) ∧
      (Group.ofWord? w = some .register ↔ w.field 25 7 = 0b1101011#7)) ∧
    (∀ order : List Group, (∀ g, g ∈ order) →
      order.find? (fun g => g.pattern.Matches w) = Group.ofWord? w) ∧
    (Decoder.full.decode w = .error .notBranch ↔ ∀ g : Group, ¬ g.pattern.Matches w) := by
  -- the five patterns are the values of `Group.pattern`
  refine ⟨exists_full_decode_iff, ?_,
    ⟨Group.ofWord?_eq_some_iff, Group.ofWord?_eq_some_iff, Group.ofWord?_eq_some_iff,
      Group.ofWord?_eq_some_iff, Group.ofWord?_eq_some_iff⟩, ?_,
    Decoder.full_decode_eq_notBranch_iff⟩
  · rintro g h hne ⟨hg, hh⟩
    exact hne (Group.eq_of_matches hg hh)
  · intro order horder
    exact Group.find?_matches_eq_ofWord? w horder

end BranchWord
