/-
# `BranchWord.Fetch` — one instruction from a stream.

A fetch reads a word and decodes it into a record that the caller keeps. It ends in one of three ways:

* the word decodes: the record is the instruction, whatever it held before;
* the word is refused: its four bytes are consumed all the same, the record is blanked, and the refusal is
  logged, so that decoding goes on with the next word;
* fewer than four bytes remain: nothing is consumed, logged or changed.
-/
import BranchWord.Decoder
import BranchWord.Stream

namespace BranchWord

/-- A log entry: a word and why it was refused. -/
structure Rejection where
  word : Word
  error : DecodeError
  deriving DecidableEq, Repr

/-- The text of a log entry. -/
def Rejection.text (r : Rejection) : String :=
  "rejected " ++ Numeral.hexadecimal r.word ++ ": " ++ r.error.message

/-- What a fetch leaves behind. -/
structure Fetch where
  /-- nothing, or why the record holds no new instruction -/
  result : Except DecodeError Unit
  /-- the caller's record -/
  record : Instruction
  /-- the stream after the fetch -/
  stream : Stream
  /-- what was logged -/
  log : List Rejection

namespace Decoder

/-- Fetches the next instruction of a stream into a record. -/
def fetchInto (d : Decoder) (record : Instruction) (s : Stream) : Fetch :=
  match s.readWord with
  | .error e =>
    { result := .error (.ofReadError e), record := record, stream := s, log := [] }
  | .ok (w, rest) =>
    match d.decode w with
    | .ok i => { result := .ok (), record := i, stream := rest, log := [] }
    | .error e => { result := .error e, record := .blank, stream := rest, log := [⟨w, e⟩] }

/-- Fetches the next instruction of a stream into a fresh record. -/
def fetch (d : Decoder) (s : Stream) : Fetch := d.fetchInto .blank s

end Decoder

namespace Fetch

/-- The instruction fetched, or why there is none. -/
def instruction (f : Fetch) : Except DecodeError Instruction := f.result.map fun _ => f.record

end Fetch

/-! ## The three ways a fetch can end -/

namespace Decoder

theorem fetchInto_of_error {d : Decoder} {i : Instruction} {s : Stream} {e : ReadError}
    (h : s.readWord = .error e) : d.fetchInto i s = ⟨.error (.ofReadError e), i, s, []⟩ := by
  simp only [fetchInto, h]

theorem fetchInto_of_decode_ok {d : Decoder} {i j : Instruction} {s t : Stream} {w : Word}
    (hs : s.readWord = .ok (w, t)) (hw : d.decode w = .ok j) :
    d.fetchInto i s = ⟨.ok (), j, t, []⟩ := by
  simp only [fetchInto, hs, hw]

theorem fetchInto_of_decode_error {d : Decoder} {i : Instruction} {s t : Stream} {w : Word}
    {e : DecodeError} (hs : s.readWord = .ok (w, t)) (hw : d.decode w = .error e) :
    d.fetchInto i s = ⟨.error e, .blank, t, [⟨w, e⟩]⟩ := by
  simp only [fetchInto, hs, hw]

end Decoder

end BranchWord
