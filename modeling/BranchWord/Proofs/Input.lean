/-
# `BranchWord.Proofs.Input` — streams as positions in an input.

A stream holds the bytes that are left. Statements about a whole input want the other view: the input is fixed,
and a stream is a position in it. `Stream.openAt` is the stream at a position, and reading from it is looking
the input up there: `wordAt?` is the word that four bytes spell, least significant byte first.

* `readByte_openAt` and `readWord_openAt` — a read is a look-up, and moves the position past what it returns;
* `fetchInto_openAt` — a fetch is a look-up and a decoding, and what it leaves depends on the record held
  before only if there is no word;
* `Word.ofByteList` — all words of an input from its start, four bytes each.
-/
import BranchWord.Fetch
import BranchWord.Proofs.Decoding

namespace BranchWord

/-! ## The words of an input -/

/-- The word that the four bytes from position `p` on spell, least significant byte first. -/
def wordAt? (bytes : List Byte) (p : Nat) : Option Word := do
  let b₀ ← bytes[p]?
  let b₁ ← bytes[p + 1]?
  let b₂ ← bytes[p + 2]?
  let b₃ ← bytes[p + 3]?
  return Word.ofBytes b₀ b₁ b₂ b₃

theorem wordAt?_of_drop {bytes rest : List Byte} {p : Nat} {b₀ b₁ b₂ b₃ : Byte}
    (h : bytes.drop p = b₀ :: b₁ :: b₂ :: b₃ :: rest) :
    wordAt? bytes p = some (Word.ofBytes b₀ b₁ b₂ b₃) := by
  have hbyte : ∀ k, bytes[p + k]? = (b₀ :: b₁ :: b₂ :: b₃ :: rest)[k]? := by
    intro k
    rw [← h, List.getElem?_drop]
  unfold wordAt?
  rw [show bytes[p]? = some b₀ from hbyte 0, hbyte 1, hbyte 2, hbyte 3]
  rfl

/-- A list of four bytes or more starts with four bytes. -/
theorem exists_four_of_length_le {bytes : List Byte} (h : 4 ≤ bytes.length) :
    ∃ b₀ b₁ b₂ b₃ rest, bytes = b₀ :: b₁ :: b₂ :: b₃ :: rest := by
  match bytes with
  | b₀ :: b₁ :: b₂ :: b₃ :: rest => exact ⟨b₀, b₁, b₂, b₃, rest, rfl⟩
  | [] | [_] | [_, _] | [_, _, _] => exact absurd h (by simp)

/-- Four bytes left are a word. -/
theorem exists_wordAt? {bytes : List Byte} {p : Nat} (h : p + 4 ≤ bytes.length) :
    ∃ w, wordAt? bytes p = some w := by
  have hlen : 4 ≤ (bytes.drop p).length := by
    rw [List.length_drop]
    omega
  obtain ⟨b₀, b₁, b₂, b₃, rest, hdrop⟩ := exists_four_of_length_le hlen
  exact ⟨_, wordAt?_of_drop hdrop⟩

/-- Fewer bytes are none. -/
theorem wordAt?_eq_none {bytes : List Byte} {p : Nat} (h : bytes.length < p + 4) :
    wordAt? bytes p = none := by
  have hlast : bytes[p + 3]? = none := List.getElem?_eq_none (by omega)
  unfold wordAt?
  rw [hlast]
  cases bytes[p]? <;> cases bytes[p + 1]? <;> cases bytes[p + 2]? <;> rfl

/-- A word that is found lies within the input. -/
theorem le_of_wordAt? {bytes : List Byte} {p : Nat} {w : Word} (h : wordAt? bytes p = some w) :
    p + 4 ≤ bytes.length := by
  rcases Nat.lt_or_ge bytes.length (p + 4) with hshort | hlong
  · rw [wordAt?_eq_none hshort] at h
    cases h
  · exact hlong

/-! ## Streams at a position -/

namespace Stream

/-- The stream over an input at a position, with a mark. -/
def openAt (bytes : List Byte) (position mark : Nat) : Stream :=
  { rest := bytes.drop position, position, mark }

/-- A stream over an input: what is left of the input at the stream's position is left in the stream. -/
def Over (bytes : List Byte) (s : Stream) : Prop := s.rest = bytes.drop s.position

theorem over_openAt (bytes : List Byte) (position mark : Nat) :
    (openAt bytes position mark).Over bytes := rfl

/-- A stream over an input is the stream at its position. -/
theorem Over.eq_openAt {bytes : List Byte} {s : Stream} (h : s.Over bytes) :
    s = openAt bytes s.position s.mark := by
  rw [openAt, ← h]

/-- **Reading a word looks it up**, and moves past it. -/
theorem readWord_openAt (bytes : List Byte) (p m : Nat) :
    (openAt bytes p m).readWord =
      match wordAt? bytes p with
      | some w => .ok (w, openAt bytes (p + 4) m)
      | none => .error .exhausted := by
  rcases Nat.lt_or_ge bytes.length (p + 4) with hshort | hlong
  · rw [wordAt?_eq_none hshort]
    refine readWord_eq_error_iff.mpr ⟨?_, rfl⟩
    rw [openAt, List.length_drop]
    omega
  · have hlen : 4 ≤ (bytes.drop p).length := by
      rw [List.length_drop]
      omega
    obtain ⟨b₀, b₁, b₂, b₃, rest, hdrop⟩ := exists_four_of_length_le hlen
    have hrest : bytes.drop (p + 4) = rest := by
      rw [← List.drop_drop, hdrop]
      rfl
    rw [wordAt?_of_drop hdrop]
    simp only [openAt, readWord, hdrop, hrest]

/-- **Reading a byte looks it up**, and moves past it. -/
theorem readByte_openAt (bytes : List Byte) (p m : Nat) :
    (openAt bytes p m).readByte =
      match bytes[p]? with
      | some b => .ok (b, openAt bytes (p + 1) m)
      | none => .error .exhausted := by
  have hhead : bytes[p]? = (bytes.drop p).head? := by
    rw [List.head?_drop]
  have htail : bytes.drop (p + 1) = (bytes.drop p).tail := by
    rw [List.tail_drop]
  rw [hhead]
  unfold readByte openAt
  rw [htail]
  cases bytes.drop p <;> rfl

end Stream

/-! ## Fetching at a position -/

namespace Decoder

/-- What a fetch of a word leaves behind, with the stream after the word. -/
def deliver (d : Decoder) (w : Word) (after : Stream) : Fetch :=
  match d.decode w with
  | .ok i => { result := .ok (), record := i, stream := after, log := [] }
  | .error e => { result := .error e, record := .blank, stream := after, log := [⟨w, e⟩] }

variable (d : Decoder) (w : Word) (after : Stream)

theorem deliver_stream : (d.deliver w after).stream = after := by
  unfold deliver
  cases d.decode w <;> rfl

/-- The instruction delivered is the word decoded. -/
theorem deliver_instruction : (d.deliver w after).instruction = d.decode w := by
  unfold deliver
  cases d.decode w <;> rfl

theorem deliver_record : (d.deliver w after).record = (d.decode w).toOption.getD .blank := by
  unfold deliver
  cases d.decode w <;> rfl

/-- A delivery never asks for more input. -/
theorem deliver_result_ne_exhausted : (d.deliver w after).result ≠ .error .exhaustedInput := by
  unfold deliver
  cases h : d.decode w with
  | ok i => exact fun he => nomatch he
  | error e =>
    intro he
    cases he
    exact d.decode_ne_exhausted w h

/-- A fetch that reads a word delivers it, whatever the record it was given. -/
theorem fetchInto_of_readWord {d : Decoder} {i : Instruction} {s t : Stream} {w : Word}
    (h : s.readWord = .ok (w, t)) : d.fetchInto i s = d.deliver w t := by
  simp only [fetchInto, h]
  rfl

/-- **A fetch looks a word up and decodes it.** Where there is no word it changes nothing. -/
theorem fetchInto_openAt (i : Instruction) (bytes : List Byte) (p m : Nat) :
    d.fetchInto i (.openAt bytes p m) =
      match wordAt? bytes p with
      | some w => d.deliver w (.openAt bytes (p + 4) m)
      | none => ⟨.error .exhaustedInput, i, .openAt bytes p m, []⟩ := by
  have hread := Stream.readWord_openAt bytes p m
  cases hw : wordAt? bytes p with
  | none =>
    rw [hw] at hread
    exact fetchInto_of_error hread
  | some w =>
    rw [hw] at hread
    exact fetchInto_of_readWord hread

end Decoder

/-! ## All words of an input -/

namespace Word

/-- The words that a list of bytes spells, four bytes each. Up to three bytes at the end spell nothing. -/
def ofByteList : List Byte → List Word
  | b₀ :: b₁ :: b₂ :: b₃ :: rest => ofBytes b₀ b₁ b₂ b₃ :: ofByteList rest
  | _ => []

/-- Fewer than four bytes spell no word. -/
theorem ofByteList_of_length_lt {bytes : List Byte} (h : bytes.length < 4) : ofByteList bytes = [] := by
  match bytes with
  | [] | [_] | [_, _] | [_, _, _] => rfl
  | _ :: _ :: _ :: _ :: rest => exact absurd h (by simp)

/-- The bytes of a word spell the word. -/
theorem ofBytes_toBytes (w : Word) :
    ofBytes (w.field 0 8) (w.field 8 8) (w.field 16 8) (w.field 24 8) = w := by
  have h₂ : w.field 24 8 ++ w.field 16 8 = w.field 16 16 := field_append_field w 16 8 8
  have h₁ : w.field 16 16 ++ w.field 8 8 = w.field 8 24 := field_append_field w 8 8 16
  have h₀ : w.field 8 24 ++ w.field 0 8 = w.field 0 32 := field_append_field w 0 8 24
  unfold ofBytes
  rw [h₂, h₁, h₀]
  exact BitVec.extractLsb'_eq_self

/-- The bytes of a list of words spell the list. -/
theorem ofByteList_flatMap_toBytes (words : List Word) :
    ofByteList (words.flatMap toBytes) = words := by
  induction words with
  | nil => rfl
  | cons w words ih =>
    show ofBytes _ _ _ _ :: ofByteList (words.flatMap toBytes) = w :: words
    rw [ih, ofBytes_toBytes]

/-- Bytes after a whole number of words start a new word. -/
theorem ofByteList_append {a : List Byte} (b : List Byte) (h : 4 ∣ a.length) :
    ofByteList (a ++ b) = ofByteList a ++ ofByteList b := by
  induction a using ofByteList.induct with
  | case1 b₀ b₁ b₂ b₃ rest ih =>
    have hrest : 4 ∣ rest.length := by
      simp only [List.length_cons] at h
      omega
    simp only [List.cons_append, ofByteList, ih hrest]
  | case2 a hshort =>
    match a with
    | [] => rfl
    | [_] | [_, _] | [_, _, _] => simp at h
    | b₀ :: b₁ :: b₂ :: b₃ :: rest => exact absurd rfl (hshort b₀ b₁ b₂ b₃ rest)

end Word

end BranchWord
