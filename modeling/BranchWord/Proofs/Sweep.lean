/-
# `BranchWord.Proofs.Sweep` — decoding a stream is decoding its words.

A sweep fetches from a stream until there is no word left. The fetches hand a record from one to the next and
a rejected word blanks it, but no fetch looks at the record it is given, so the k-th fetch of a sweep depends
on the k-th word alone (`nthFetch_of_lt`): a sweep is the list of the words, decoded one by one
(`map_instruction_sweep`). A rejected word is consumed like any other, which keeps the words in step.

Once fewer than four bytes are left, a fetch changes nothing, so neither does any number of them
(`nthFetch_of_le`). The inductions along an input are on the number of words that are left, which `Spans` ties
to the position.
-/
import BranchWord.Proofs.Input

namespace BranchWord

/-- Whether a fetch found no word. -/
def Fetch.isExhausted (f : Fetch) : Bool :=
  match f.result with
  | .error .exhaustedInput => true
  | _ => false

theorem Fetch.isExhausted_iff {f : Fetch} :
    f.isExhausted = true ↔ f.result = .error .exhaustedInput := by
  unfold isExhausted
  split
  next h => exact iff_of_true rfl h
  next h => exact iff_of_false Bool.false_ne_true h

namespace Decoder

theorem isExhausted_deliver (d : Decoder) (w : Word) (after : Stream) :
    (d.deliver w after).isExhausted = false :=
  Bool.eq_false_iff.mpr fun h =>
    d.deliver_result_ne_exhausted w after (Fetch.isExhausted_iff.mp h)

/-! ## Fetching again and again -/

/-- The k-th of the fetches that follow one another, counted from 0. Each takes over the record and the stream
that the one before it left. -/
def nthFetch (d : Decoder) : Nat → Instruction → Stream → Fetch
  | 0, i, s => d.fetchInto i s
  | k + 1, i, s => d.nthFetch k (d.fetchInto i s).record (d.fetchInto i s).stream

theorem isExhausted_fetchInto_iff {d : Decoder} {i : Instruction} {s : Stream} :
    (d.fetchInto i s).isExhausted = true ↔ s.rest.length < 4 := by
  cases hread : s.readWord with
  | error e =>
    obtain ⟨hlen, rfl⟩ := Stream.readWord_eq_error_iff.mp hread
    rw [fetchInto_of_error hread]
    exact iff_of_true rfl hlen
  | ok read =>
    obtain ⟨w, t⟩ := read
    rw [fetchInto_of_readWord hread, isExhausted_deliver]
    refine iff_of_false Bool.false_ne_true fun hlen => ?_
    have herror := Stream.readWord_eq_error_iff.mpr ⟨hlen, rfl⟩
    rw [hread] at herror
    cases herror

/-- A fetch that found a word has consumed it, so a sweep comes to an end. -/
theorem length_fetchInto_lt {d : Decoder} {i : Instruction} {s : Stream}
    (h : ¬(d.fetchInto i s).isExhausted = true) :
    (d.fetchInto i s).stream.rest.length < s.rest.length := by
  cases hread : s.readWord with
  | error e =>
    exact absurd (isExhausted_fetchInto_iff.mpr (Stream.readWord_eq_error_iff.mp hread).1) h
  | ok read =>
    obtain ⟨w, t⟩ := read
    obtain ⟨⟨_, _, _, _, hrest, _⟩, _, _⟩ := Stream.readWord_eq_ok hread
    rw [fetchInto_of_readWord hread, deliver_stream, hrest]
    simp only [List.length_cons]
    omega

/-- The fetches from a stream up to the first that finds no word, which is left out. -/
def sweep (d : Decoder) (i : Instruction) (s : Stream) : List Fetch :=
  if _h : (d.fetchInto i s).isExhausted then []
  else d.fetchInto i s :: d.sweep (d.fetchInto i s).record (d.fetchInto i s).stream
termination_by s.rest.length
decreasing_by exact length_fetchInto_lt _h

/-- What a sweep over an input, from its start, makes of each word. -/
def results (d : Decoder) (i : Instruction) (bytes : List Byte) : List (Except DecodeError Instruction) :=
  (d.sweep i (.ofBytes bytes)).map Fetch.instruction

variable {d : Decoder} {i : Instruction} {bytes : List Byte} {p m : Nat}

theorem sweep_of_wordAt? {w : Word} (hw : wordAt? bytes p = some w) :
    d.sweep i (.openAt bytes p m) =
      d.deliver w (.openAt bytes (p + 4) m) ::
        d.sweep (d.deliver w (.openAt bytes (p + 4) m)).record (.openAt bytes (p + 4) m) := by
  have hfetch := d.fetchInto_openAt i bytes p m
  simp only [hw] at hfetch
  rw [sweep, hfetch, dif_neg (Bool.eq_false_iff.mp (d.isExhausted_deliver w _)), deliver_stream]

theorem sweep_of_wordAt?_none (hw : wordAt? bytes p = none) :
    d.sweep i (.openAt bytes p m) = [] := by
  have hfetch := d.fetchInto_openAt i bytes p m
  simp only [hw] at hfetch
  rw [sweep, hfetch]
  rfl

/-- The fetches of a sweep are the first ones of those that follow one another. -/
theorem getElem?_sweep {s : Stream} {k : Nat} (hk : k < (d.sweep i s).length) :
    (d.sweep i s)[k]? = some (d.nthFetch k i s) := by
  induction k generalizing i s with
  | zero =>
    unfold sweep at hk ⊢
    split at hk
    next h => exact absurd hk (by simp)
    next h =>
      rw [dif_neg h]
      rfl
  | succ k ih =>
    unfold sweep at hk ⊢
    split at hk
    next h => exact absurd hk (by simp)
    next h =>
      rw [dif_neg h]
      exact ih (Nat.lt_of_succ_lt_succ hk)

/-! ## The words that are left -/

/-- From position `p` on, an input holds `n` whole words, and less than a word after them. -/
structure Spans (bytes : List Byte) (p n : Nat) : Prop where
  fits : p + 4 * n ≤ bytes.length
  ends : bytes.length < p + 4 * n + 4

theorem spans_of_le (hp : p ≤ bytes.length) : Spans bytes p ((bytes.length - p) / 4) where
  fits := by omega
  ends := by omega

theorem Spans.wordAt?_eq_none (h : Spans bytes p 0) : wordAt? bytes p = none :=
  BranchWord.wordAt?_eq_none h.ends

/-- Where words are left there is a next one, and one less from its end on. -/
theorem Spans.next {n : Nat} (h : Spans bytes p (n + 1)) :
    (∃ w, wordAt? bytes p = some w) ∧ Spans bytes (p + 4) n := by
  have hfits := h.fits
  have hends := h.ends
  exact ⟨exists_wordAt? (by omega), ⟨by omega, by omega⟩⟩

/-- **A sweep has a fetch for each word.** -/
theorem length_sweep {n : Nat} (h : Spans bytes p n) :
    (d.sweep i (.openAt bytes p m)).length = n := by
  induction n generalizing i p with
  | zero =>
    rw [sweep_of_wordAt?_none h.wordAt?_eq_none]
    rfl
  | succ n ih =>
    obtain ⟨⟨w, hw⟩, hnext⟩ := h.next
    rw [sweep_of_wordAt? hw, List.length_cons, ih hnext]

/-- **The k-th fetch delivers the k-th word**, whatever the words before it were and whatever record it was
handed. -/
theorem nthFetch_of_lt {n k : Nat} (h : Spans bytes p n) (hk : k < n) :
    ∃ w, wordAt? bytes (p + 4 * k) = some w ∧
      d.nthFetch k i (.openAt bytes p m) = d.deliver w (.openAt bytes (p + 4 * (k + 1)) m) := by
  induction k generalizing i p n with
  | zero =>
    obtain ⟨n, rfl⟩ := Nat.exists_eq_succ_of_ne_zero (Nat.ne_of_gt hk)
    obtain ⟨⟨w, hw⟩, _⟩ := h.next
    refine ⟨w, hw, ?_⟩
    rw [nthFetch, fetchInto_openAt]
    simp only [hw]
  | succ k ih =>
    obtain ⟨n, rfl⟩ := Nat.exists_eq_succ_of_ne_zero (Nat.ne_of_gt (Nat.zero_lt_of_lt hk))
    obtain ⟨⟨w, hw⟩, hnext⟩ := h.next
    obtain ⟨v, hv, hfetch⟩ := ih (i := (d.deliver w (.openAt bytes (p + 4) m)).record) hnext
      (Nat.lt_of_succ_lt_succ hk)
    have hword : p + 4 * (k + 1) = p + 4 + 4 * k := by omega
    have hafter : p + 4 * (k + 1 + 1) = p + 4 + 4 * (k + 1) := by omega
    refine ⟨v, hword ▸ hv, ?_⟩
    rw [nthFetch, fetchInto_openAt, hafter, ← hfetch]
    simp only [hw, deliver_stream]

/-- The record after a sweep: that of its last fetch, or the one it started with. -/
def lastRecord (d : Decoder) (i : Instruction) (s : Stream) : Instruction :=
  ((d.sweep i s).getLast?.map Fetch.record).getD i

theorem lastRecord_of_wordAt? {w : Word} (hw : wordAt? bytes p = some w) :
    d.lastRecord i (.openAt bytes p m) =
      d.lastRecord (d.deliver w (.openAt bytes (p + 4) m)).record (.openAt bytes (p + 4) m) := by
  unfold lastRecord
  rw [sweep_of_wordAt? hw, List.getLast?_cons]
  cases (d.sweep (d.deliver w (.openAt bytes (p + 4) m)).record (.openAt bytes (p + 4) m)).getLast? <;>
    rfl

/-- **After the words, nothing changes any more**, however often one fetches. -/
theorem nthFetch_of_le {n k : Nat} (h : Spans bytes p n) (hk : n ≤ k) :
    d.nthFetch k i (.openAt bytes p m) =
      ⟨.error .exhaustedInput, d.lastRecord i (.openAt bytes p m), .openAt bytes (p + 4 * n) m, []⟩ := by
  induction n generalizing i p k with
  | zero =>
    have hw := h.wordAt?_eq_none
    have hfetch := d.fetchInto_openAt i bytes p m
    simp only [hw] at hfetch
    have hlast : d.lastRecord i (.openAt bytes p m) = i := by
      rw [lastRecord, sweep_of_wordAt?_none hw]
      rfl
    rw [hlast]
    clear hk
    induction k with
    | zero => exact hfetch
    | succ k ih => rw [nthFetch, hfetch, ih]
  | succ n ih =>
    obtain ⟨k, rfl⟩ := Nat.exists_eq_succ_of_ne_zero (Nat.ne_of_gt (Nat.lt_of_lt_of_le n.succ_pos hk))
    obtain ⟨⟨w, hw⟩, hnext⟩ := h.next
    have hend : p + 4 * (n + 1) = p + 4 + 4 * n := by omega
    rw [nthFetch, fetchInto_openAt, lastRecord_of_wordAt? hw, hend]
    simp only [hw, deliver_stream]
    exact ih hnext (Nat.le_of_succ_le_succ hk)

/-- **A sweep decodes the words of its stream**, one by one. -/
theorem map_instruction_sweep (s : Stream) :
    (d.sweep i s).map Fetch.instruction = (Word.ofByteList s.rest).map d.decode := by
  induction i, s using sweep.induct d with
  | case1 i s hend =>
    rw [sweep, dif_pos hend, Word.ofByteList_of_length_lt (isExhausted_fetchInto_iff.mp hend)]
    rfl
  | case2 i s hmore ih =>
    cases hread : s.readWord with
    | error e =>
      exact absurd (isExhausted_fetchInto_iff.mpr (Stream.readWord_eq_error_iff.mp hread).1) hmore
    | ok read =>
      obtain ⟨w, t⟩ := read
      obtain ⟨⟨b₀, b₁, b₂, b₃, hrest, hw⟩, _, _⟩ := Stream.readWord_eq_ok hread
      rw [fetchInto_of_readWord hread, deliver_stream] at ih
      rw [sweep, dif_neg hmore, List.map_cons, fetchInto_of_readWord hread, deliver_stream,
        deliver_instruction, ih, hrest, Word.ofByteList, List.map_cons, ← hw]

/-- The results over an input are its words, decoded. -/
theorem results_eq (d : Decoder) (i : Instruction) (bytes : List Byte) :
    d.results i bytes = (Word.ofByteList bytes).map d.decode :=
  map_instruction_sweep (.ofBytes bytes)

/-! ## The whole sweep -/

/-- **Decoding a stream is decoding its words.** Fetching from position `p` of an input, again and again, gives
a result for each whole word that is left, and then finds the input exhausted.

* The k-th result is the k-th word decoded, and the record is the instruction, or blank if the word is
  rejected; either way its four bytes are consumed.
* From there on no fetch changes anything: record and position stay, and the last bytes are never consumed.

So the results over the bytes of words are the words decoded, and the results over two inputs in a row, the
first of whole words, are the results over the one and then those over the other. -/
theorem sweep_decodes_words (d : Decoder) (i : Instruction) (bytes : List Byte) (p m : Nat)
    (hp : p ≤ bytes.length) :
    let s := Stream.openAt bytes p m
    let n := (bytes.length - p) / 4
    (d.sweep i s).length = n ∧
      (∀ k < n, ∃ w, wordAt? bytes (p + 4 * k) = some w ∧
        (d.sweep i s)[k]? = some (d.nthFetch k i s) ∧
        (d.nthFetch k i s).instruction = d.decode w ∧
        (d.nthFetch k i s).result ≠ .error .exhaustedInput ∧
        (d.nthFetch k i s).record = (d.decode w).toOption.getD .blank ∧
        (d.nthFetch k i s).stream = .openAt bytes (p + 4 * (k + 1)) m) ∧
      (∀ k, n ≤ k → d.nthFetch k i s =
        { result := .error .exhaustedInput
          record := d.lastRecord i s
          stream := .openAt bytes (bytes.length - (bytes.length - p) % 4) m
          log := [] }) ∧
      (∀ words : List Word, d.results i (words.flatMap Word.toBytes) = words.map d.decode) ∧
      (∀ a b : List Byte, 4 ∣ a.length → d.results i (a ++ b) = d.results i a ++ d.results i b) := by
  have hspans := spans_of_le hp
  have hlength : (d.sweep i (.openAt bytes p m)).length = (bytes.length - p) / 4 := length_sweep hspans
  have hend : p + 4 * ((bytes.length - p) / 4) = bytes.length - (bytes.length - p) % 4 := by omega
  refine ⟨hlength, ?_, ?_, ?_, ?_⟩
  · intro k hk
    obtain ⟨w, hw, hfetch⟩ := nthFetch_of_lt (d := d) (i := i) (m := m) hspans hk
    refine ⟨w, hw, getElem?_sweep (hlength ▸ hk), ?_⟩
    rw [hfetch]
    exact ⟨d.deliver_instruction w _, d.deliver_result_ne_exhausted w _, d.deliver_record w _,
      d.deliver_stream w _⟩
  · intro k hk
    rw [nthFetch_of_le hspans hk, hend]
  · intro words
    rw [results_eq, Word.ofByteList_flatMap_toBytes]
  · intro a b ha
    rw [results_eq, results_eq, results_eq, Word.ofByteList_append b ha, List.map_append]

/-- From the second of ten bytes: a word with a reserved bit, a return, and one byte that stays. -/
theorem sweep_past_rejected_word :
    let bytes : List Byte := [0xff, 0x00, 0x00, 0x00, 0x55, 0xc0, 0x03, 0x5f, 0xd6, 0xaa]
    let s := Stream.openAt bytes 1 0
    1 ≤ bytes.length ∧ (Decoder.full.sweep .blank s).length = 2 ∧
      (∃ w, wordAt? bytes 5 = some w ∧ (Decoder.full.nthFetch 1 .blank s).instruction = Decoder.full.decode w) ∧
      (Decoder.full.nthFetch 6 .blank s).result = .error .exhaustedInput ∧
      (Decoder.full.nthFetch 6 .blank s).stream.position = 9 := by
  intro bytes s
  have hp : 1 ≤ bytes.length := by decide
  obtain ⟨hlength, hwords, hafter, _⟩ := sweep_decodes_words .full .blank bytes 1 0 hp
  obtain ⟨w, hw, _, hdecoded, _⟩ := hwords 1 (by decide)
  have hsixth := hafter 6 (by decide)
  have hend : bytes.length - (bytes.length - 1) % 4 = 9 := by decide
  refine ⟨hp, hlength.trans (by decide), ⟨w, hw, hdecoded⟩, ?_, ?_⟩
  · rw [hsixth]
  · rw [hsixth]
    exact hend

end Decoder

end BranchWord
