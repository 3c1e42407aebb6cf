/-
# `BranchWord.Word` — instruction words and the fields inside them.

An A64 instruction is one 32-bit word, fetched as four little-endian bytes. Its parts are bit fields,
named by their lowest bit and their width. This module has both directions:

* reading: `Word.field` and `Word.bit` cut a field out of a word;
* writing: `Word.place` stands a field at its position in an otherwise empty word, and words built from
  disjoint fields are joined with `|||`.

The laws say that reading back a placed field returns it (`field_place_self`), that a field elsewhere is
not disturbed (`field_place_of_le`, `field_place_of_add_le`), and that words which agree on two adjacent fields
agree on the field that spans them (`field_add_congr`), so a word is determined by the fields that tile it.

`displacement` is the rule for every branch offset: a signed count of instructions, four bytes each.
-/

namespace BranchWord

/-- A byte of the instruction stream. -/
abbrev Byte := BitVec 8

/-- A 32-bit instruction word; bit 0 is the least significant. -/
abbrev Word := BitVec 32

/-- A 64-bit code address. Address arithmetic wraps. -/
abbrev Address := BitVec 64

namespace Word

/-! ## Reading -/

/-- The `width` bits of a word from bit `low` upwards. -/
def field (w : Word) (low width : Nat) : BitVec width := w.extractLsb' low width

/-- Bit `n` of a word. -/
def bit (w : Word) (n : Nat) : Bool := w.getLsbD n

/-! ## Writing -/

/-- The word that holds `v` from bit `low` upwards and zeros elsewhere. -/
def place {n : Nat} (low : Nat) (v : BitVec n) : Word := v.setWidth 32 <<< low

/-- The word that holds the flag `b` at bit `n` and zeros elsewhere. -/
def placeBit (n : Nat) (b : Bool) : Word := place n (BitVec.ofBool b)

/-! ## Bytes -/

/-- The word whose little-endian bytes are `b₀`, `b₁`, `b₂`, `b₃`. -/
def ofBytes (b₀ b₁ b₂ b₃ : Byte) : Word := b₃ ++ b₂ ++ b₁ ++ b₀

/-- The four bytes of a word, least significant first. -/
def toBytes (w : Word) : List Byte := [w.field 0 8, w.field 8 8, w.field 16 8, w.field 24 8]

/-! ## How reading and writing interact -/

theorem getLsbD_field (w : Word) (low width i : Nat) :
    (w.field low width).getLsbD i = (decide (i < width) && w.getLsbD (low + i)) :=
  BitVec.getLsbD_extractLsb' ..

theorem getLsbD_place {n : Nat} (low : Nat) (v : BitVec n) (i : Nat) :
    (place low v).getLsbD i = (decide (i < 32) && !decide (i < low) && v.getLsbD (i - low)) := by
  simp only [place, BitVec.getLsbD_shiftLeft, BitVec.getLsbD_setWidth]
  by_cases h : i < 32
  · have : i - low < 32 := by omega
    simp [h, this]
  · simp [h]

/-- Fields of a union are unions of fields. -/
theorem field_or (u w : Word) (low width : Nat) :
    field (u ||| w) low width = u.field low width ||| w.field low width :=
  BitVec.extractLsb'_or

/-- Fields of a difference are differences of fields. -/
theorem field_xor (u w : Word) (low width : Nat) :
    field (u ^^^ w) low width = u.field low width ^^^ w.field low width := by
  apply BitVec.eq_of_getLsbD_eq
  intro i hi
  simp only [getLsbD_field, BitVec.getLsbD_xor, hi, decide_true, Bool.true_and]

/-- A field that fits into the word is read back as it was placed. -/
theorem field_place_self {n low : Nat} (v : BitVec n) (h : low + n ≤ 32) :
    (place low v).field low n = v := by
  apply BitVec.eq_of_getLsbD_eq
  intro i hi
  have h₁ : low + i < 32 := by omega
  have h₂ : ¬ low + i < low := by omega
  simp only [getLsbD_field, getLsbD_place, hi, h₁, h₂, decide_true, decide_false, Bool.not_false,
    Bool.true_and, Nat.add_sub_cancel_left]

/-- A field above a placed one reads as zero. -/
theorem field_place_of_le {n low start width : Nat} (v : BitVec n) (h : low + n ≤ start) :
    (place low v).field start width = 0 := by
  apply BitVec.eq_of_getLsbD_eq
  intro i _
  have : v.getLsbD (start + i - low) = false := BitVec.getLsbD_of_ge _ _ (by omega)
  simp [getLsbD_field, getLsbD_place, this]

/-- A field below a placed one reads as zero. -/
theorem field_place_of_add_le {n low start width : Nat} (v : BitVec n) (h : start + width ≤ low) :
    (place low v).field start width = 0 := by
  apply BitVec.eq_of_getLsbD_eq
  intro i hi
  have : start + i < low := by omega
  simp [getLsbD_field, getLsbD_place, this]

/-- A value is read back from the word that holds it in its low bits. -/
theorem setWidth_back {n : Nat} (v : BitVec n) (h : n ≤ 32) : (v.setWidth 32).setWidth n = v := by
  rw [BitVec.setWidth_setWidth_of_le v h, BitVec.setWidth_eq]

/-- Values of one width that are equal as words are equal. -/
theorem setWidth_eq_iff {n : Nat} (h : n ≤ 32) (a b : BitVec n) :
    a.setWidth 32 = b.setWidth 32 ↔ a = b := by
  refine ⟨?_, congrArg _⟩
  intro heq
  have hback := congrArg (BitVec.setWidth n) heq
  simpa only [setWidth_back _ h] using hback

theorem bit_or (u w : Word) (n : Nat) : bit (u ||| w) n = (u.bit n || w.bit n) :=
  BitVec.getLsbD_or

theorem bit_xor (u w : Word) (n : Nat) : bit (u ^^^ w) n = (u.bit n ^^ w.bit n) :=
  BitVec.getLsbD_xor

theorem bit_place_of_le {n low k : Nat} (v : BitVec n) (h : low + n ≤ k) :
    (place low v).bit k = false := by
  have : v.getLsbD (k - low) = false := BitVec.getLsbD_of_ge _ _ (by omega)
  simp [bit, getLsbD_place, this]

theorem bit_place_of_lt {n low k : Nat} (v : BitVec n) (h : k < low) :
    (place low v).bit k = false := by
  simp [bit, getLsbD_place, h]

/-- A flag inside the word is read back as it was placed. -/
theorem bit_place_ofBool_self {n : Nat} (b : Bool) (h : n < 32) :
    (place n (BitVec.ofBool b)).bit n = b := by
  simp only [bit, getLsbD_place, h, decide_true, Nat.lt_irrefl, decide_false, Bool.not_false,
    Bool.true_and, Nat.sub_self]
  cases b <;> rfl

/-- A flag is a field of one bit. -/
theorem field_one (w : Word) (n : Nat) : w.field n 1 = BitVec.ofBool (w.bit n) := by
  apply BitVec.eq_of_getLsbD_eq
  intro i hi
  obtain rfl : i = 0 := by omega
  simp only [getLsbD_field, bit, hi, decide_true, Bool.true_and, Nat.add_zero]
  cases w.getLsbD n <;> rfl

/-- Words that agree on two adjacent fields agree on the field that spans them. -/
theorem field_add_congr {u w : Word} {low a b : Nat} (h₁ : u.field low a = w.field low a)
    (h₂ : u.field (low + a) b = w.field (low + a) b) :
    u.field low (a + b) = w.field low (a + b) := by
  apply BitVec.eq_of_getLsbD_eq
  intro i hi
  by_cases hlow : i < a
  · have := congrArg (·.getLsbD i) h₁
    simpa only [getLsbD_field, hi, hlow, decide_true, Bool.true_and] using this
  · have hoff : i - a < b := by omega
    have hsum : low + a + (i - a) = low + i := by omega
    have := congrArg (·.getLsbD (i - a)) h₂
    simpa only [getLsbD_field, hi, hoff, hsum, decide_true, Bool.true_and] using this

/-- A field inside a field is a field of the word. -/
theorem extractLsb'_field (w : Word) (low : Nat) {width start len : Nat} (h : start + len ≤ width) :
    (w.field low width).extractLsb' start len = w.field (low + start) len := by
  apply BitVec.eq_of_getLsbD_eq
  intro i hi
  have hin : start + i < width := by omega
  simp only [BitVec.getLsbD_extractLsb', getLsbD_field, hi, hin, decide_true, Bool.true_and,
    Nat.add_assoc]

/-- A field is its upper part above its lower part. -/
theorem field_append_field (w : Word) (low a b : Nat) :
    w.field (low + a) b ++ w.field low a = w.field low (b + a) :=
  BitVec.extractLsb'_append_extractLsb'_eq_extractLsb' rfl

/-- A field holds a value made of two parts exactly when its own two parts hold them. -/
theorem field_eq_append_iff (w : Word) (low : Nat) {a b : Nat} (upper : BitVec b) (lower : BitVec a) :
    w.field low (b + a) = upper ++ lower ↔
      w.field (low + a) b = upper ∧ w.field low a = lower := by
  refine ⟨?_, ?_⟩
  · intro h
    have hup := extractLsb'_field w low (show a + b ≤ b + a by omega)
    have hlow := extractLsb'_field w low (show 0 + a ≤ b + a by omega)
    rw [h] at hup hlow
    rw [BitVec.extractLsb'_append_eq_left] at hup
    rw [BitVec.extractLsb'_append_eq_right, Nat.add_zero] at hlow
    exact ⟨hup.symm, hlow.symm⟩
  · rintro ⟨rfl, rfl⟩
    exact (field_append_field w low a b).symm

/-- A word is the field of all its bits. -/
theorem place_field_all (w : Word) : place 0 (w.field 0 32) = w := by
  apply BitVec.eq_of_getLsbD_eq
  intro i hi
  simp only [getLsbD_place, getLsbD_field, hi, decide_true, Nat.not_lt_zero, decide_false,
    Bool.not_false, Bool.true_and, Nat.sub_zero, Nat.zero_add]

/-- Words that agree on all 32 bits are equal. -/
theorem eq_of_field_all {u w : Word} (h : u.field 0 32 = w.field 0 32) : u = w := by
  rw [← place_field_all u, ← place_field_all w, h]

end Word

/-! ## Branch displacements -/

/-- The byte displacement that an offset field encodes: the field is a signed number of instructions, and
an instruction has four bytes. -/
def displacement {n : Nat} (imm : BitVec n) : Int64 :=
  Int64.ofBitVec ((imm ++ 0b00#2).signExtend 64)

end BranchWord
