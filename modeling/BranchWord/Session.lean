/-
# `BranchWord.Session` — a conversation with a decoder over one stream.

A session owns a stream, a decoder that can be reconfigured between steps, and a current record. Steps come
in any order. Only `decodeInto` writes the current record; `decode` uses a record of its own and
`decodeWord` touches neither stream nor log.
-/
import BranchWord.Fetch

namespace BranchWord

/-- The state of a session. -/
structure Session where
  stream : Stream
  decoder : Decoder := .full
  record : Instruction := .blank

/-- A step of a session. -/
inductive Step where
  /-- fetch into the current record -/
  | decodeInto
  /-- fetch into a fresh record -/
  | decode
  /-- decode a word that is given, not read -/
  | decodeWord (w : Word)
  /-- read one byte -/
  | next
  /-- set the mark -/
  | mark
  /-- change the decoder -/
  | configure (s : Decoder.Settings)
  /-- describe the current record as an instruction at an address -/
  | describe (address : Address)
  deriving DecidableEq, Repr

/-- The answer to a step. -/
inductive Answer where
  | done
  | failed (e : DecodeError)
  | decoded (r : Except DecodeError Instruction)
  | byte (b : Byte)
  | description (i : Instruction) (address : Address)

/-- The answer to a step, the state after it and the log entries made on the way. -/
structure Report where
  answer : Answer
  session : Session
  log : List Rejection := []

namespace Session

/-- A session at the start of a stream of bytes. -/
def start (bytes : List Byte) (settings : Decoder.Settings) : Session where
  stream := .ofBytes bytes
  decoder := Decoder.full.configure settings

/-- One step. -/
def step (s : Session) : Step → Report
  | .decodeInto =>
    let f := s.decoder.fetchInto s.record s.stream
    { answer := match f.result with
        | .ok () => .done
        | .error e => .failed e
      session := { s with stream := f.stream, record := f.record }
      log := f.log }
  | .decode =>
    let f := s.decoder.fetch s.stream
    { answer := .decoded f.instruction
      session := { s with stream := f.stream }
      log := f.log }
  | .decodeWord w => { answer := .decoded (s.decoder.decode w), session := s }
  | .next =>
    match s.stream.readByte with
    | .ok (b, rest) => { answer := .byte b, session := { s with stream := rest } }
    | .error e => { answer := .failed (.ofReadError e), session := s }
  | .mark => { answer := .done, session := { s with stream := s.stream.setMark } }
  | .configure settings =>
    { answer := .done, session := { s with decoder := s.decoder.configure settings } }
  | .describe address => { answer := .description s.record address, session := s }

/-- The reports of steps taken one after the other. -/
def run (s : Session) : List Step → List Report
  | [] => []
  | step :: steps =>
    let report := s.step step
    report :: run report.session steps

/-- The state after steps taken one after the other. -/
def after (s : Session) (steps : List Step) : Session :=
  steps.foldl (fun s step => (s.step step).session) s

end Session

end BranchWord
