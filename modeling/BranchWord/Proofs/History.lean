/-
# `BranchWord.Proofs.History` — what the state of a session owes to its past.

The steps of a session come in any order: bytes read one by one move the stream out of step with the words, and
the decoder changes between fetches. Still the state is a function of a few turns of the past. The position
counts the words and bytes taken up; the record is that of the last turn that wrote one, decoded by the decoder
of that turn; the log has an entry for each rejected word.

A turn is a step with the state it was taken in. `Turn.account` is the step lemma: it says once what a turn does
to every part of the state. `Ledger` is the invariant: how the parts add up over a past. One turn preserves it
(`Ledger.turn`), so a history does (`Ledger.history`), by induction on its steps.

The decoder in the ledger is still a fold over all changes made. `Session.features_from_past` takes it apart: what is
left of the changes is, for each feature, the last thing said about it.
-/
import BranchWord.Session
import BranchWord.Proofs.Input

namespace BranchWord

/-! ## Turns -/

/-- The error of a result, if it is one. -/
def errorOf? {α : Type} : Except DecodeError α → Option DecodeError
  | .ok _ => none
  | .error e => some e

theorem errorOf?_eq_some_iff {α : Type} {r : Except DecodeError α} {e : DecodeError} :
    errorOf? r = some e ↔ r = .error e := by
  cases r <;> simp [errorOf?]

namespace Decoder

variable (d : Decoder) (w : Word) (after : Stream)

theorem errorOf?_deliver : errorOf? (d.deliver w after).result = errorOf? (d.decode w) := by
  unfold deliver
  cases d.decode w <;> rfl

theorem deliver_log :
    (d.deliver w after).log = ((errorOf? (d.decode w)).map (Rejection.mk w)).toList := by
  unfold deliver
  cases d.decode w <;> rfl

theorem errorOf?_decode_ne_exhausted : errorOf? (d.decode w) ≠ some .exhaustedInput :=
  fun h => d.decode_ne_exhausted w (errorOf?_eq_some_iff.mp h)

end Decoder

/-- The error that an answer reports. -/
def Answer.error? : Answer → Option DecodeError
  | .failed e => some e
  | .decoded r => errorOf? r
  | _ => none

/-- Whether a step decodes a word that it takes from the stream. -/
def Step.fetches : Step → Bool
  | .decodeInto | .decode => true
  | _ => false

/-- A step of a session, with the state it was taken in. -/
structure Turn where
  before : Session
  step : Step

namespace Turn

/-- The report on a turn. -/
def report (t : Turn) : Report := t.before.step t.step

/-- The state after a turn. -/
def after (t : Turn) : Session := t.report.session

/-- Whether a turn took up a word: a fetch that did not find the input exhausted. -/
def takesWord (t : Turn) : Bool :=
  t.step.fetches && t.report.answer.error? ≠ some .exhaustedInput

/-- Whether a turn took up a byte: a byte was asked for and returned. -/
def takesByte (t : Turn) : Bool :=
  match t.step, t.report.answer with
  | .next, .byte _ => true
  | _, _ => false

/-- Whether a turn wrote the current record, be it with an instruction or blank. -/
def writes (t : Turn) : Bool := t.step = .decodeInto && t.takesWord

/-- The change of decoder that a turn made. -/
def settings? (t : Turn) : Option Decoder.Settings :=
  match t.step with
  | .configure settings => some settings
  | _ => none

/-- The word that a fetch finds in the input. -/
def word? (bytes : List Byte) (t : Turn) : Option Word :=
  if t.step.fetches then wordAt? bytes t.before.stream.position else none

theorem word?_of_fetches {bytes : List Byte} {t : Turn} (h : t.step.fetches = true) :
    t.word? bytes = wordAt? bytes t.before.stream.position := if_pos h

/-- The rejection of the word that a fetch finds, if the decoder in force rejects it. -/
def rejection? (bytes : List Byte) (t : Turn) : Option Rejection :=
  (t.word? bytes).bind fun w => (errorOf? (t.before.decoder.decode w)).map (Rejection.mk w)

/-! ## What a turn does -/

/-- What a turn did to each part of the state, with its answer and its log. -/
structure Account (bytes : List Byte) (t : Turn) : Prop where
  /-- A fetch ends as the decoding of its word, or for want of one. -/
  answer : t.step.fetches = true → t.report.answer.error? =
    match t.word? bytes with
    | some w => errorOf? (t.before.decoder.decode w)
    | none => some .exhaustedInput
  /-- The word that is taken up is the one that is there. -/
  word : t.takesWord = (t.word? bytes).isSome
  stream : t.after.stream = .openAt bytes
    (t.before.stream.position + (4 * t.takesWord.toNat + t.takesByte.toNat))
    (if t.step = .mark then t.before.stream.position else t.before.stream.mark)
  /-- What is taken up is there. -/
  fits : t.before.stream.position ≤ bytes.length → t.after.stream.position ≤ bytes.length
  decoder : t.after.decoder = t.settings?.elim t.before.decoder t.before.decoder.configure
  record : t.after.record =
    if t.writes then ((t.word? bytes).bind fun w => (t.before.decoder.decode w).toOption).getD .blank
    else t.before.record
  log : t.report.log = (t.rejection? bytes).toList

/-- The fetch of a turn, into the current record or a fresh one. -/
def fetch (t : Turn) : Fetch :=
  t.before.decoder.fetchInto (if t.step = .decodeInto then t.before.record else .blank) t.before.stream

/-- The two steps that fetch differ in the record alone. -/
theorem report_of_fetches {t : Turn} (h : t.step.fetches = true) :
    t.report.answer.error? = errorOf? t.fetch.result ∧ t.after.stream = t.fetch.stream ∧
      t.after.decoder = t.before.decoder ∧
      t.after.record = (if t.step = .decodeInto then t.fetch.record else t.before.record) ∧
      t.report.log = t.fetch.log := by
  obtain ⟨s, step⟩ := t
  cases step with
  | decodeInto =>
    refine ⟨?_, rfl, rfl, rfl, rfl⟩
    show (s.step .decodeInto).answer.error? = errorOf? (s.decoder.fetchInto s.record s.stream).result
    simp only [Session.step]
    cases (s.decoder.fetchInto s.record s.stream).result <;> rfl
  | decode =>
    refine ⟨?_, rfl, rfl, rfl, rfl⟩
    show errorOf? (s.decoder.fetch s.stream).instruction = errorOf? (s.decoder.fetch s.stream).result
    unfold Fetch.instruction
    cases (s.decoder.fetch s.stream).result <;> rfl
  | decodeWord _ | next | mark | configure _ | describe _ => cases h

/-- A fetch is none of the other steps. -/
theorem not_other_of_fetches {t : Turn} (h : t.step.fetches = true) :
    t.takesByte = false ∧ t.settings? = none ∧ t.step ≠ .mark := by
  obtain ⟨s, step⟩ := t
  cases step with
  | decodeInto => exact ⟨rfl, rfl, fun he => nomatch he⟩
  | decode => exact ⟨rfl, rfl, fun he => nomatch he⟩
  | decodeWord _ | next | mark | configure _ | describe _ => cases h

variable {bytes : List Byte} {t : Turn}

theorem fetch_eq (hs : t.before.stream.Over bytes) (hstep : t.step.fetches = true) :
    t.fetch = match t.word? bytes with
      | some w => t.before.decoder.deliver w
          (.openAt bytes (t.before.stream.position + 4) t.before.stream.mark)
      | none => ⟨.error .exhaustedInput, if t.step = .decodeInto then t.before.record else .blank,
          t.before.stream, []⟩ := by
  have hfetch := t.before.decoder.fetchInto_openAt
    (if t.step = .decodeInto then t.before.record else .blank) bytes t.before.stream.position
    t.before.stream.mark
  rw [← hs.eq_openAt, ← fetch, ← word?_of_fetches hstep] at hfetch
  exact hfetch

theorem takesWord_of_fetches (hs : t.before.stream.Over bytes) (hstep : t.step.fetches = true) :
    t.takesWord = (t.word? bytes).isSome := by
  rw [takesWord, hstep, (report_of_fetches hstep).1, fetch_eq hs hstep]
  cases t.word? bytes with
  | none => rfl
  | some w =>
    show decide (errorOf? (t.before.decoder.deliver w _).result ≠ some .exhaustedInput) = true
    rw [Decoder.errorOf?_deliver]
    exact decide_eq_true (t.before.decoder.errorOf?_decode_ne_exhausted w)

theorem account_of_fetches (hs : t.before.stream.Over bytes) (hstep : t.step.fetches = true) :
    t.Account bytes := by
  obtain ⟨hanswer, hstream, hdecoder, hrecord, hlog⟩ := report_of_fetches hstep
  obtain ⟨hbyte, hsettings, hmark⟩ := not_other_of_fetches hstep
  have hfetch := fetch_eq hs hstep
  have htakes := takesWord_of_fetches hs hstep
  refine ⟨fun _ => ?_, htakes, ?_, ?_, ?_, ?_, ?_⟩
  · rw [hanswer, hfetch]
    cases t.word? bytes with
    | none => rfl
    | some w => exact Decoder.errorOf?_deliver ..
  · rw [hstream, hfetch, htakes, hbyte, if_neg hmark]
    cases t.word? bytes with
    | none => exact hs.eq_openAt
    | some w => exact Decoder.deliver_stream ..
  · rw [hstream, hfetch]
    cases hw : t.word? bytes with
    | none => exact id
    | some w =>
      rw [Decoder.deliver_stream]
      exact fun _ => le_of_wordAt? (word?_of_fetches hstep ▸ hw)
  · rw [hdecoder, hsettings]
    rfl
  · rw [hrecord, hfetch, writes, htakes]
    cases t.word? bytes with
    | none =>
      rw [Option.isSome_none, Bool.and_false, if_neg Bool.false_ne_true]
      split <;> rfl
    | some w =>
      rw [Option.isSome_some, Bool.and_true, Decoder.deliver_record, Option.bind_some]
      simp only [decide_eq_true_eq]
  · rw [hlog, hfetch, rejection?]
    cases t.word? bytes with
    | none => rfl
    | some w => exact Decoder.deliver_log ..

theorem account_of_next {s : Session} (hs : s.stream.Over bytes) : Account bytes ⟨s, .next⟩ := by
  have hread := Stream.readByte_openAt bytes s.stream.position s.stream.mark
  rw [← hs.eq_openAt] at hread
  cases hb : bytes[s.stream.position]? with
  | none =>
    simp only [hb] at hread
    have hreport : report ⟨s, .next⟩ = { answer := .failed .exhaustedInput, session := s } := by
      simp only [report, Session.step, hread]
      rfl
    have hbyte : takesByte ⟨s, .next⟩ = false := by
      simp only [takesByte, hreport]
    exact
      { answer := fun h => nomatch h
        word := rfl
        stream := by rw [after, hreport, hbyte]; exact hs.eq_openAt
        fits := by rw [after, hreport]; exact id
        decoder := by rw [after, hreport]; rfl
        record := by rw [after, hreport]; rfl
        log := by rw [hreport]; rfl }
  | some b =>
    simp only [hb] at hread
    have hreport : report ⟨s, .next⟩ =
        { answer := .byte b
          session := { s with stream := .openAt bytes (s.stream.position + 1) s.stream.mark } } := by
      simp only [report, Session.step, hread]
    have hbyte : takesByte ⟨s, .next⟩ = true := by
      simp only [takesByte, hreport]
    exact
      { answer := fun h => nomatch h
        word := rfl
        stream := by rw [after, hreport, hbyte]; rfl
        fits := by rw [after, hreport]; exact fun _ => (List.getElem?_eq_some_iff.mp hb).1
        decoder := by rw [after, hreport]; rfl
        record := by rw [after, hreport]; rfl
        log := by rw [hreport]; rfl }

/-- **What one turn does.** -/
theorem account (hs : t.before.stream.Over bytes) : t.Account bytes := by
  obtain ⟨s, step⟩ := t
  cases step with
  | decodeInto => exact account_of_fetches hs rfl
  | decode => exact account_of_fetches hs rfl
  | next => exact account_of_next hs
  | mark =>
    exact ⟨fun h => (nomatch h), rfl, congrArg Stream.setMark hs.eq_openAt, id, rfl, rfl, rfl⟩
  | configure _ | decodeWord _ | describe _ =>
    exact ⟨fun h => (nomatch h), rfl, hs.eq_openAt, id, rfl, rfl, rfl⟩

/-- A turn that wrote the record found a word where it stood. -/
theorem Account.exists_word (ha : t.Account bytes) (h : t.writes = true) :
    ∃ w, wordAt? bytes t.before.stream.position = some w ∧ t.word? bytes = some w := by
  have htakes : t.takesWord = true := (Bool.and_eq_true _ _ ▸ h).2
  have hfetches : t.step.fetches = true := (Bool.and_eq_true _ _ ▸ htakes).1
  obtain ⟨w, hw⟩ := Option.isSome_iff_exists.mp (ha.word ▸ htakes)
  exact ⟨w, word?_of_fetches hfetches ▸ hw, hw⟩

end Turn

/-! ## Histories -/

namespace Session

/-- The turns of a run. -/
def history (s : Session) : List Step → List Turn
  | [] => []
  | step :: steps => ⟨s, step⟩ :: history (s.step step).session steps

/-- The reports of a run are those on its turns. -/
theorem map_report_history (s : Session) (steps : List Step) :
    (s.history steps).map Turn.report = s.run steps := by
  induction steps generalizing s with
  | nil => rfl
  | cons step steps ih =>
    rw [history, List.map_cons, ih]
    rfl

/-- The first turns of a run are the turns of its first steps. -/
theorem take_history (s : Session) (steps : List Step) (k : Nat) :
    (s.history steps).take k = s.history (steps.take k) := by
  induction steps generalizing s k with
  | nil => simp only [history, List.take_nil]
  | cons step steps ih =>
    cases k with
    | zero => rfl
    | succ k => simp only [history, List.take_succ_cons, ih]

/-- The k-th turn of a run takes its step in the state after the steps before it. -/
theorem getElem?_history (s : Session) (steps : List Step) (k : Nat) :
    (s.history steps)[k]? = steps[k]?.map (Turn.mk (s.after (steps.take k))) := by
  induction steps generalizing s k with
  | nil => rfl
  | cons step steps ih =>
    cases k with
    | zero => rfl
    | succ k => simp only [history, List.getElem?_cons_succ, ih, List.take_succ_cons, after, List.foldl_cons]

end Session

theorem filterMap_singleton {α β : Type} (f : α → Option β) (a : α) :
    [a].filterMap f = (f a).toList := by
  rw [List.filterMap_cons, List.filterMap_nil]
  cases f a <;> rfl

/-- One element more counts one if it has the property. -/
theorem countP_concat {α : Type} (p : α → Bool) (past : List α) (a : α) :
    (past ++ [a]).countP p = past.countP p + (p a).toNat := by
  rw [List.countP_append, List.countP_singleton]
  cases p a <;> rfl

/-- A part of a state that each step sets to what the step says about it, or else leaves alone, holds in the end what
was said last. -/
theorem foldl_last_setting {σ α β : Type} {f : σ → α → σ} {part : σ → β} {said? : α → Option β}
    (hf : ∀ state a, part (f state a) = (said? a).getD (part state)) (state : σ) (l : List α) :
    part (l.foldl f state) = (l.filterMap said?).getLast?.getD (part state) := by
  induction l generalizing state with
  | nil => rfl
  | cons a l ih =>
    rw [List.foldl_cons, ih, hf]
    cases ha : said? a with
    | none => rw [List.filterMap_cons_none ha, Option.getD_none]
    | some b => rw [List.filterMap_cons_some ha, List.getLast?_cons, Option.getD_some, Option.getD_some]

/-- After some changes, a feature is as the last of them says that says something about it. -/
theorem Decoder.foldl_configure (d : Decoder) (changes : List Settings) :
    changes.foldl configure d =
      { pointerAuth := (changes.filterMap Settings.pointerAuth?).getLast?.getD d.pointerAuth
        hintedBranches := (changes.filterMap Settings.hintedBranches?).getLast?.getD d.hintedBranches } := by
  have hauth : (changes.foldl configure d).pointerAuth =
      (changes.filterMap Settings.pointerAuth?).getLast?.getD d.pointerAuth :=
    foldl_last_setting (fun d s => by rw [configure_eq]) d changes
  have hhinted : (changes.foldl configure d).hintedBranches =
      (changes.filterMap Settings.hintedBranches?).getLast?.getD d.hintedBranches :=
    foldl_last_setting (fun d s => by rw [configure_eq]) d changes
  rw [← hauth, ← hhinted]

/-- The last of some turns that wrote the current record. -/
def lastWrite? (past : List Turn) : Option Turn := (past.filter Turn.writes).getLast?

theorem lastWrite?_concat (past : List Turn) (t : Turn) :
    lastWrite? (past ++ [t]) = if t.writes then some t else lastWrite? past := by
  unfold lastWrite?
  rw [List.filter_append, List.filter_cons, List.filter_nil]
  split
  · rw [List.getLast?_concat]
  · rw [List.append_nil]

theorem of_lastWrite? {past : List Turn} {t : Turn} (h : lastWrite? past = some t) :
    t ∈ past ∧ t.writes = true :=
  List.mem_filter.mp (List.mem_of_getLast? h)

/-- The record that some turns over an input leave behind. -/
def recordAfter (bytes : List Byte) (past : List Turn) : Instruction :=
  ((lastWrite? past).bind fun t =>
    (t.word? bytes).bind fun w => (t.before.decoder.decode w).toOption).getD .blank

/-- **How the state of a session adds up over its past.** -/
structure Ledger (bytes : List Byte) (settings : Decoder.Settings) (past : List Turn) (s : Session) : Prop where
  stream : s.stream.Over bytes
  mark_le : s.stream.mark ≤ s.stream.position
  position_le : s.stream.position ≤ bytes.length
  position : s.stream.position = 4 * past.countP Turn.takesWord + past.countP Turn.takesByte
  decoder : s.decoder =
    (past.filterMap Turn.settings?).foldl Decoder.configure (Decoder.full.configure settings)
  record : s.record = recordAfter bytes past
  log : (past.flatMap fun t => t.report.log) = past.filterMap (Turn.rejection? bytes)
  turns : ∀ t ∈ past, t.Account bytes

namespace Ledger

variable {bytes : List Byte} {settings : Decoder.Settings} {past : List Turn} {s : Session}

theorem start : Ledger bytes settings [] (.start bytes settings) where
  stream := rfl
  mark_le := Nat.le_refl 0
  position_le := Nat.zero_le _
  position := rfl
  decoder := rfl
  record := rfl
  log := rfl
  turns := fun _ h => nomatch h

/-- **One turn** keeps the books. -/
theorem turn {t : Turn} (h : Ledger bytes settings past t.before) :
    Ledger bytes settings (past ++ [t]) t.after := by
  have ha := Turn.account h.stream
  have hposition : t.after.stream.position =
      t.before.stream.position + (4 * t.takesWord.toNat + t.takesByte.toNat) := by rw [ha.stream]; rfl
  have hmark : t.after.stream.mark =
      if t.step = .mark then t.before.stream.position else t.before.stream.mark := by rw [ha.stream]; rfl
  refine ⟨?_, ?_, ha.fits h.position_le, ?_, ?_, ?_, ?_, ?_⟩
  · rw [ha.stream]
    exact Stream.over_openAt ..
  · have hbefore := h.mark_le
    rw [hposition, hmark]
    split <;> omega
  · rw [hposition, h.position, countP_concat, countP_concat]
    omega
  · rw [ha.decoder, h.decoder, List.filterMap_append, List.foldl_append, filterMap_singleton]
    cases t.settings? <;> rfl
  · rw [ha.record, h.record, recordAfter, recordAfter, lastWrite?_concat]
    split <;> rfl
  · rw [List.flatMap_append, List.filterMap_append, h.log, List.flatMap_singleton, ha.log,
      filterMap_singleton]
  · intro u hu
    rcases List.mem_append.mp hu with hu | hu
    · exact h.turns u hu
    · rw [List.mem_singleton.mp hu]
      exact ha

/-- **A history** keeps the books: by induction on its steps, with the past growing at its end. -/
theorem history (h : Ledger bytes settings past s) (steps : List Step) :
    Ledger bytes settings (past ++ s.history steps) (s.after steps) := by
  induction steps generalizing past s with
  | nil =>
    rw [Session.history, List.append_nil]
    exact h
  | cons step steps ih =>
    have hnext := ih (h.turn (t := ⟨s, step⟩))
    rw [List.append_assoc] at hnext
    exact hnext

/-- **A session** keeps its books from the start. -/
theorem session (bytes : List Byte) (settings : Decoder.Settings) (steps : List Step) :
    Ledger bytes settings ((Session.start bytes settings).history steps)
      ((Session.start bytes settings).after steps) :=
  start.history steps

end Ledger

/-- **The state of a session, from its past.** For every input, every decoder to start with and every sequence
of steps, after each number `k` of steps:

* the past is the steps so far, each with the state that the steps before it led to;
* mark, position and end of the input are in order, and the position counts four for each fetch that did not
  find the input exhausted and one for each byte returned;
* the record is blank if no fetch into it got past the read; otherwise it is what the last one made of its
  word, the four bytes at its position, under the decoder of that moment: the instruction, or blank if the word
  was rejected;
* the decoder is the first one with all changes made since;
* the log so far has one entry for each fetch whose word was rejected, in the order of the steps, which names
  the word and the error, and nothing else;
* a fetch ends as the decoding of the word at its position, or, where there is none, with the input exhausted. -/
theorem Session.state_from_past (bytes : List Byte) (settings : Decoder.Settings) (steps : List Step) (k : Nat) :
    let s₀ := Session.start bytes settings
    let s := s₀.after (steps.take k)
    let past := (s₀.history steps).take k
    (∀ j, (s₀.history steps)[j]? = steps[j]?.map (Turn.mk (s₀.after (steps.take j)))) ∧
      (s.stream.mark ≤ s.stream.position ∧ s.stream.position ≤ bytes.length) ∧
      s.stream.Over bytes ∧
      s.stream.position = 4 * past.countP Turn.takesWord + past.countP Turn.takesByte ∧
      (lastWrite? past = none → s.record = .blank) ∧
      (∀ t, lastWrite? past = some t → ∃ w, wordAt? bytes t.before.stream.position = some w ∧
        s.record = (t.before.decoder.decode w).toOption.getD .blank) ∧
      s.decoder = (past.filterMap Turn.settings?).foldl Decoder.configure s₀.decoder ∧
      ((s₀.run steps).take k).flatMap Report.log = past.filterMap (Turn.rejection? bytes) ∧
      (∀ t ∈ past, t.step.fetches = true → t.report.answer.error? =
        match wordAt? bytes t.before.stream.position with
        | some w => errorOf? (t.before.decoder.decode w)
        | none => some .exhaustedInput) := by
  intro s₀ s past
  have hledger : Ledger bytes settings past s := by
    have hbooks := Ledger.session bytes settings (steps.take k)
    rw [← Session.take_history] at hbooks
    exact hbooks
  have hlogs : ((s₀.run steps).take k).flatMap Report.log = past.flatMap fun t => t.report.log := by
    rw [← Session.map_report_history, ← List.map_take, List.flatMap_map]
  refine ⟨s₀.getElem?_history steps, ⟨hledger.mark_le, hledger.position_le⟩, hledger.stream,
    hledger.position, ?_, ?_, hledger.decoder, ?_, ?_⟩
  · intro hnone
    rw [hledger.record, recordAfter, hnone]
    rfl
  · intro t hlast
    obtain ⟨hmem, hwrites⟩ := of_lastWrite? hlast
    obtain ⟨w, hfound, hw⟩ := (hledger.turns t hmem).exists_word hwrites
    refine ⟨w, hfound, ?_⟩
    rw [hledger.record, recordAfter, hlast, Option.bind_some, hw, Option.bind_some]
  · rw [hlogs, hledger.log]
  · intro t hmem hfetches
    rw [(hledger.turns t hmem).answer hfetches, Turn.word?_of_fetches hfetches]

/-- A byte, a word with a reserved bit, a return, and an attempt at a word that is not there: the return is
what the record holds, the reserved bit is what the log holds, and the last answer is that the input ended. -/
theorem Session.state_after_byte_and_words :
    let bytes : List Byte := [0xff, 0x00, 0x00, 0x00, 0x55, 0xc0, 0x03, 0x5f, 0xd6]
    let s₀ := Session.start bytes {}
    let steps : List Step := [.next, .decodeInto, .mark, .decodeInto, .decode]
    let returning : Turn := ⟨s₀.after (steps.take 3), .decodeInto⟩
    let ending : Turn := ⟨s₀.after (steps.take 4), .decode⟩
    (s₀.after (steps.take 5)).stream.position = 9 ∧
      lastWrite? ((s₀.history steps).take 5) = some returning ∧
      (s₀.after (steps.take 5)).record = { mnemonic := .ret, category := .ret } ∧
      ((s₀.run steps).take 5).flatMap Report.log = [⟨0x55000000, .reservedBit .conditional "o1"⟩] ∧
      ending ∈ (s₀.history steps).take 5 ∧ ending.report.answer.error? = some .exhaustedInput := by
  intro bytes s₀ steps returning ending
  obtain ⟨_, _, _, hposition, _, hwritten, _, hlog, hanswers⟩ := Session.state_from_past bytes {} steps 5
  have hlast : lastWrite? ((s₀.history steps).take 5) = some returning := rfl
  obtain ⟨w, hw, hrecord⟩ := hwritten returning hlast
  obtain rfl : 0xd65f03c0#32 = w := Option.some.inj hw
  have hending : ending ∈ (s₀.history steps).take 5 := List.mem_of_getElem? (i := 4) rfl
  refine ⟨hposition.trans ?_, hlast, hrecord.trans rfl, hlog.trans ?_, hending, ?_⟩
  · decide
  · decide
  · exact hanswers ending hending rfl

/-- **The features of a session, from the changes of its decoder.** Opening the session counts as the first change.
Each feature is as the last change says that says something about it, and accepted if none does; the words and bytes
that are read in between have no part in it. -/
theorem Session.features_from_past (bytes : List Byte) (settings : Decoder.Settings) (steps : List Step) :
    let s₀ := Session.start bytes settings
    let changes := settings :: (s₀.history steps).filterMap Turn.settings?
    (s₀.after steps).decoder =
      { pointerAuth := (changes.filterMap Decoder.Settings.pointerAuth?).getLast?.getD true
        hintedBranches := (changes.filterMap Decoder.Settings.hintedBranches?).getLast?.getD true } := by
  intro s₀ changes
  have hfold : (s₀.after steps).decoder = changes.foldl Decoder.configure .full :=
    (Ledger.session bytes settings steps).decoder
  rw [hfold]
  exact Decoder.foldl_configure .full changes

end BranchWord
