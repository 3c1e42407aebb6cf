/-
# `BranchWord.Stream` — a byte stream with a position and a mark.

Instruction words are read from a stream of bytes, least significant byte first. A read is all or nothing:
if fewer bytes remain than are asked for, nothing is consumed. The stream counts the bytes consumed so far
and remembers one earlier position, the mark.
-/
import BranchWord.Word
import BranchWord.DecodeError

namespace BranchWord

/-- The bytes that remain, and where in the input they start. -/
structure Stream where
  /-- the bytes not yet consumed -/
  rest : List Byte
  /-- how many bytes have been consumed -/
  position : Nat := 0
  /-- the position that was marked last -/
  mark : Nat := 0
  deriving DecidableEq, Repr

namespace Stream

/-- A stream over bytes, at its start and marked there. -/
def ofBytes (bytes : List Byte) : Stream := { rest := bytes }

/-- How many bytes have been consumed since the mark. -/
def offset (s : Stream) : Nat := s.position - s.mark

/-- The stream with the mark at its position. -/
def setMark (s : Stream) : Stream := { s with mark := s.position }

/-- The next byte, and the stream after it. -/
def readByte (s : Stream) : Except ReadError (Byte × Stream) :=
  match s.rest with
  | b :: rest => .ok (b, { s with rest := rest, position := s.position + 1 })
  | [] => .error .exhausted

/-- The next four bytes as a word, and the stream after them. -/
def readWord (s : Stream) : Except ReadError (Word × Stream) :=
  match s.rest with
  | b₀ :: b₁ :: b₂ :: b₃ :: rest =>
    .ok (Word.ofBytes b₀ b₁ b₂ b₃, { s with rest := rest, position := s.position + 4 })
  | _ => .error .exhausted

/-! ## Reading moves along the input -/

/-- A word that was read is the next four bytes, and the position moves past them. -/
theorem readWord_eq_ok {s t : Stream} {w : Word} (h : s.readWord = .ok (w, t)) :
    (∃ b₀ b₁ b₂ b₃, s.rest = b₀ :: b₁ :: b₂ :: b₃ :: t.rest ∧ w = Word.ofBytes b₀ b₁ b₂ b₃) ∧
      t.position = s.position + 4 ∧ t.mark = s.mark := by
  unfold readWord at h
  split at h
  · next b₀ b₁ b₂ b₃ rest hs =>
    cases h
    exact ⟨⟨b₀, b₁, b₂, b₃, hs, rfl⟩, rfl, rfl⟩
  · cases h

/-- A word can be read exactly when four bytes remain. -/
theorem readWord_eq_error_iff {s : Stream} {e : ReadError} :
    s.readWord = .error e ↔ s.rest.length < 4 ∧ e = .exhausted := by
  unfold readWord
  split
  · next hs =>
    constructor
    · intro h
      cases h
    · rintro ⟨hlen, _⟩
      rw [hs] at hlen
      simp only [List.length_cons] at hlen
      omega
  · next hs =>
    constructor
    · intro h
      cases h
      refine ⟨?_, rfl⟩
      match hr : s.rest with
      | [] | [_] | [_, _] | [_, _, _] => simp
      | b₀ :: b₁ :: b₂ :: b₃ :: rest => exact absurd hr (hs b₀ b₁ b₂ b₃ rest)
    · rintro ⟨_, rfl⟩
      rfl

end Stream

end BranchWord
