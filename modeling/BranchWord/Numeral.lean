/-
# `BranchWord.Numeral` — how words are written in messages.

A field value is written in binary, `0b` followed by as few digits as the value needs; zero is `0b0`.
A whole instruction word is written in hexadecimal, `0x` followed by exactly eight lower-case digits.
-/
import BranchWord.Word

namespace BranchWord.Numeral

/-- The binary digits of a number, most significant first and without leading zeros. -/
def binaryDigits (n : Nat) : List Char := Nat.toDigits 2 n

/-- A field value in binary. -/
def binary (v : Word) : String := "0b" ++ String.ofList (binaryDigits v.toNat)

/-- The lower-case hexadecimal digit of four bits. -/
def hexDigit (d : BitVec 4) : Char := Nat.digitChar d.toNat

/-- The eight hexadecimal digits of a word, most significant first. -/
def hexDigits (w : Word) : List Char :=
  [28, 24, 20, 16, 12, 8, 4, 0].map fun low => hexDigit (w.field low 4)

/-- An instruction word in hexadecimal. -/
def hexadecimal (w : Word) : String := "0x" ++ String.ofList (hexDigits w)

/-! ## Digits are unambiguous -/

/-- The binary digits of a number tell the number: read from the left, they are the number again. -/
theorem binaryDigits_inj {m n : Nat} (h : binaryDigits m = binaryDigits n) : m = n := by
  have hread (k : Nat) : Nat.ofDigitChars 2 (binaryDigits k) 0 = k :=
    Nat.ofDigitChars_toDigits (by decide) (by decide)
  rw [← hread m, h, hread n]

theorem toList_binary (v : Word) : (binary v).toList = '0' :: 'b' :: binaryDigits v.toNat := by
  simp [binary]

/-- Values that are written alike are the same value. -/
theorem binary_inj {u v : Word} (h : binary u = binary v) : u = v := by
  have hdigits : binaryDigits u.toNat = binaryDigits v.toNat := by
    simpa only [toList_binary, List.cons.injEq, true_and] using congrArg String.toList h
  exact BitVec.eq_of_toNat_eq (binaryDigits_inj hdigits)

/-- A value is written without a space. -/
theorem space_not_mem_binary (v : Word) : ' ' ∉ (binary v).toList := by
  intro hmem
  have hdigits : ' ' ∈ binaryDigits v.toNat := by
    simpa [toList_binary] using hmem
  have hdigit : ' '.isDigit = true := Nat.isDigit_of_mem_toDigits (by decide) (by decide) hdigits
  exact absurd hdigit (by decide)

/-- Different groups of four bits have different digits. -/
theorem hexDigit_inj : ∀ c d : BitVec 4, hexDigit c = hexDigit d → c = d := by decide

theorem toList_hexadecimal (w : Word) : (hexadecimal w).toList = '0' :: 'x' :: hexDigits w := by
  simp [hexadecimal]

theorem length_hexDigits (w : Word) : (hexDigits w).length = 8 := rfl

/-- Words with the same eight digits are the same word: the digits cover its fields of four bits. -/
theorem hexDigits_inj {u w : Word} (h : hexDigits u = hexDigits w) : u = w := by
  simp only [hexDigits, List.map_cons, List.map_nil, List.cons.injEq, and_true] at h
  obtain ⟨h₇, h₆, h₅, h₄, h₃, h₂, h₁, h₀⟩ := h
  apply Word.eq_of_field_all
  have f₁ := Word.field_add_congr (hexDigit_inj _ _ h₀) (hexDigit_inj _ _ h₁)
  have f₂ := Word.field_add_congr f₁ (hexDigit_inj _ _ h₂)
  have f₃ := Word.field_add_congr f₂ (hexDigit_inj _ _ h₃)
  have f₄ := Word.field_add_congr f₃ (hexDigit_inj _ _ h₄)
  have f₅ := Word.field_add_congr f₄ (hexDigit_inj _ _ h₅)
  have f₆ := Word.field_add_congr f₅ (hexDigit_inj _ _ h₆)
  exact Word.field_add_congr f₆ (hexDigit_inj _ _ h₇)

end BranchWord.Numeral
