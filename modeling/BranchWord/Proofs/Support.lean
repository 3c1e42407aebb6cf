/-
# `BranchWord.Proofs.Support` — a record never holds an instruction that the decoder has no feature for.

The first filter of a decoder looks at raw fields, and the instructions that authenticate come out of four tables;
the second filter looks at the record. What they are for is a property of records: `Decoder.Supports` says that a
decoder has the features that an instruction needs. The blank record needs none, every decoded word is supported
(`supports_of_decode`), and a fetch leaves a supported record supported, whether the word decodes, is rejected or
is not there (`supports_fetchInto`). So do all fetches from a stream, by induction on their number, and all steps
of a session but a change of decoder, by induction on the steps.
-/
import BranchWord.Session
import BranchWord.Proofs.Features
import BranchWord.Proofs.Sweep

namespace BranchWord

namespace Decoder

/-- The decoder has the features that an instruction needs. -/
structure Supports (d : Decoder) (i : Instruction) : Prop where
  pointerAuth : i.mnemonic.authenticates = true → d.pointerAuth = true
  hintedBranches : i.mnemonic = .bc → d.hintedBranches = true

/-- The blank record needs no feature. -/
theorem supports_blank (d : Decoder) : d.Supports .blank where
  pointerAuth := fun h => nomatch h
  hintedBranches := fun h => nomatch h

variable {d : Decoder} {w : Word} {i : Instruction}

/-- What a supported instruction is not, without the features. -/
theorem Supports.without (h : d.Supports i) :
    (d.pointerAuth = false → i.mnemonic.authenticates = false) ∧
      (d.hintedBranches = false → i.mnemonic ≠ .bc) := by
  refine ⟨?_, ?_⟩
  · intro hoff
    refine Bool.eq_false_iff.mpr fun hm => ?_
    exact Bool.false_ne_true (hoff.symm.trans (h.pointerAuth hm))
  · intro hoff hm
    exact Bool.false_ne_true (hoff.symm.trans (h.hintedBranches hm))

/-! ## Words -/

/-- **A decoded word is supported.** An instruction that authenticates has its word in the authenticated space,
and a hinted branch in the hinted space; the filters let such a word pass only with the feature. -/
theorem supports_of_decode (h : d.decode w = .ok i) : d.Supports i := by
  have hfull := full_decode_of_decode h
  obtain ⟨hauth, hhint⟩ := (decode_eq_ok_iff_of_full hfull).mp h
  refine ⟨?_, ?_⟩
  · intro hm
    have hspace := (inAuthenticatedSpace_iff_of_full_decode hfull).mpr (.inl hm)
    exact hauth.resolve_right (not_not_intro hspace)
  · intro hm
    obtain ⟨g, hg, hi⟩ := full_decode_eq_ok_iff.mp hfull
    have hspace := (Group.mnemonic_eq_bc_iff hg hi).mp hm
    exact hhint.resolve_right (not_not_intro hspace)

/-! ## Fetches -/

/-- **A fetch leaves a supported record supported**: it writes what it decoded, or a blank record, or nothing. -/
theorem supports_fetchInto (h : d.Supports i) (s : Stream) : d.Supports (d.fetchInto i s).record := by
  cases hread : s.readWord with
  | error e =>
    rw [fetchInto_of_error hread]
    exact h
  | ok read =>
    obtain ⟨w, t⟩ := read
    cases hw : d.decode w with
    | ok j =>
      rw [fetchInto_of_decode_ok hread hw]
      exact supports_of_decode hw
    | error e =>
      rw [fetchInto_of_decode_error hread hw]
      exact supports_blank d

/-- **Any number of fetches** from a stream leave a supported record supported. -/
theorem supports_nthFetch (h : d.Supports i) (s : Stream) (k : Nat) :
    d.Supports (d.nthFetch k i s).record := by
  induction k generalizing i s with
  | zero => exact supports_fetchInto h s
  | succ k ih => exact ih (supports_fetchInto h s) _

end Decoder

/-! ## Sessions -/

/-- Whether a step changes the decoder. -/
def Step.configures : Step → Bool
  | .configure _ => true
  | _ => false

namespace Session

variable {s : Session}

/-- **A step that does not change the decoder** keeps it, and leaves the record supported. -/
theorem supports_step {step : Step} (hstep : step.configures = false) (h : s.decoder.Supports s.record) :
    (s.step step).session.decoder = s.decoder ∧
      s.decoder.Supports (s.step step).session.record := by
  cases step with
  | decodeInto => exact ⟨rfl, Decoder.supports_fetchInto h s.stream⟩
  | decode | decodeWord _ | mark | describe _ => exact ⟨rfl, h⟩
  | next =>
    unfold Session.step
    cases s.stream.readByte <;> exact ⟨rfl, h⟩
  | configure _ => cases hstep

/-- **Steps that do not change the decoder**, in any order, leave the record supported. -/
theorem supports_after {steps : List Step} (hsteps : ∀ step ∈ steps, step.configures = false)
    (h : s.decoder.Supports s.record) :
    (s.after steps).decoder = s.decoder ∧ s.decoder.Supports (s.after steps).record := by
  induction steps generalizing s with
  | nil => exact ⟨rfl, h⟩
  | cons step steps ih =>
    obtain ⟨hdecoder, hrecord⟩ := supports_step (hsteps step List.mem_cons_self) h
    rw [← hdecoder] at hrecord ⊢
    exact ih (fun other hmem => hsteps other (List.mem_cons_of_mem step hmem)) hrecord

end Session

/-! ## Soundness of the features -/

/-- **A decoder without a feature never gives an instruction of the feature.** For every decoder,

* a decoded instruction that authenticates takes pointer authentication, and a decoded `bc` takes hinted branches;
* from the blank record and over any stream, no number of fetches leaves a record that authenticates if the
  decoder is without pointer authentication, nor a `bc` if it is without hinted branches;
* nor does a session that leaves its decoder as it is, whatever its steps. -/
theorem Decoder.features_sound (d : Decoder) :
    (∀ (w : Word) (i : Instruction), d.decode w = .ok i →
      (i.mnemonic.authenticates = true → d.pointerAuth = true) ∧
      (i.mnemonic = .bc → d.hintedBranches = true)) ∧
    (∀ (s : Stream) (k : Nat),
      (d.pointerAuth = false → (d.nthFetch k .blank s).record.mnemonic.authenticates = false) ∧
      (d.hintedBranches = false → (d.nthFetch k .blank s).record.mnemonic ≠ .bc)) ∧
    (∀ (s : Stream) (steps : List Step), (∀ step ∈ steps, step.configures = false) →
      let final := Session.after { stream := s, decoder := d } steps
      (d.pointerAuth = false → final.record.mnemonic.authenticates = false) ∧
      (d.hintedBranches = false → final.record.mnemonic ≠ .bc)) := by
  refine ⟨?_, ?_, ?_⟩
  · intro w i h
    have hsupports := supports_of_decode h
    exact ⟨hsupports.pointerAuth, hsupports.hintedBranches⟩
  · intro s k
    exact (supports_nthFetch (supports_blank d) s k).without
  · intro s steps hsteps
    have hrun := Session.supports_after (s := { stream := s, decoder := d }) hsteps (supports_blank d)
    exact hrun.2.without

end BranchWord
