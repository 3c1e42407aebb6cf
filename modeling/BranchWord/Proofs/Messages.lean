/-
# `BranchWord.Proofs.Messages` — the text of an error tells the error.

The message of an error with a group is put together from four parts: the title of the group and a colon, an opening,
a linking word and a closing word. No title has a colon in it, so the first colon ends the title. The linking and the
closing word have no space in them, so the last two spaces find them, whatever the name of the field is: the field
stands in the opening, and the text is read from the end towards it.

* `message_eq` — a message as its four parts;
* `eq_of_parts` — the parts tell the error: the linking word its cause, the opening and the closing word the rest;
* `message_injective` — different errors have different messages;
* `Rejection.text_injective` — and different log entries different texts, as a word is written with eight digits.
-/
import Mathlib.Data.List.Basic
import BranchWord.Fetch

namespace BranchWord

/-! ## Cutting a text at a mark -/

section Cut

variable {α : Type} {mark : α} {a a' b b' : List α}

/-- The first mark cuts a text in one way. -/
theorem eq_of_first_mark (ha : mark ∉ a) (ha' : mark ∉ a') (h : a ++ mark :: b = a' ++ mark :: b') :
    a = a' ∧ b = b' := by
  -- when one front ends before the other, its mark lies in the other front
  induction a generalizing a' with
  | nil =>
    cases a' with
    | nil => exact ⟨rfl, (List.cons.inj h).2⟩
    | cons c a' =>
      obtain ⟨rfl, -⟩ := List.cons.inj h
      exact absurd List.mem_cons_self ha'
  | cons c a ih =>
    cases a' with
    | nil =>
      obtain ⟨rfl, -⟩ := List.cons.inj h
      exact absurd List.mem_cons_self ha
    | cons c' a' =>
      obtain ⟨rfl, htail⟩ := List.cons.inj h
      obtain ⟨rfl, hb⟩ := ih (List.not_mem_of_not_mem_cons ha) (List.not_mem_of_not_mem_cons ha') htail
      exact ⟨rfl, hb⟩

/-- The last mark cuts a text in one way. -/
theorem eq_of_last_mark (hb : mark ∉ b) (hb' : mark ∉ b') (h : a ++ mark :: b = a' ++ mark :: b') :
    a = a' ∧ b = b' := by
  have hreverse : b.reverse ++ mark :: a.reverse = b'.reverse ++ mark :: a'.reverse := by
    simpa using congrArg List.reverse h
  obtain ⟨hback, hfront⟩ := eq_of_first_mark (by simpa using hb) (by simpa using hb') hreverse
  exact ⟨List.reverse_inj.mp hfront, List.reverse_inj.mp hback⟩

end Cut

/-- The last word of a text, found by the last space. -/
theorem eq_of_last_space {s s' word word' : String} (hword : ' ' ∉ word.toList) (hword' : ' ' ∉ word'.toList)
    (h : s ++ " " ++ word = s' ++ " " ++ word') : s = s' ∧ word = word' := by
  have hlist : s.toList ++ ' ' :: word.toList = s'.toList ++ ' ' :: word'.toList := by
    simpa using congrArg String.toList h
  obtain ⟨hs, hw⟩ := eq_of_last_mark hword hword' hlist
  exact ⟨String.toList_inj.mp hs, String.toList_inj.mp hw⟩

/-! ## The title of the group -/

namespace Group

theorem colon_not_mem_title (g : Group) : ':' ∉ g.title.toList := by
  cases g <;> decide

/-- Different groups have different titles. -/
theorem title_injective : Function.Injective title := by
  have hall : ∀ g ∈ all, ∀ g' ∈ all, g.title = g'.title → g = g' := by decide
  intro g g' h
  exact hall g (mem_all g) g' (mem_all g') h

/-- The first colon of a text ends the title in front of it. -/
theorem eq_of_title {g g' : Group} {s s' : String} (h : g.title ++ ": " ++ s = g'.title ++ ": " ++ s') :
    g = g' ∧ s = s' := by
  have hlist : g.title.toList ++ ':' :: (' ' :: s.toList) = g'.title.toList ++ ':' :: (' ' :: s'.toList) := by
    simpa using congrArg String.toList h
  obtain ⟨htitle, hrest⟩ := eq_of_first_mark g.colon_not_mem_title g'.colon_not_mem_title hlist
  exact ⟨title_injective (String.toList_inj.mp htitle), String.toList_inj.mp (List.cons.inj hrest).2⟩

end Group

/-! ## The parts of a message -/

namespace DecodeError

/-- What a message says after the title, up to the linking word: the field, and what was expected of it. -/
def opening : DecodeError → String
  | .exhaustedInput | .notBranch => ""
  | .reservedBit _ f => "reserved bit " ++ f
  | .unallocated _ f _ => "unallocated " ++ f
  | .malformedField _ f e _ => f ++ " must be" ++ " " ++ (Numeral.binary e ++ ",")

/-- The word before the last, of a message with a group. -/
def Kind.link : Kind → String
  | .exhaustedInput | .notBranch => ""
  | .reservedBit => "is"
  | .unallocated => "="
  | .malformedField => "was"

/-- The last word of a message: the value of the field, if the message has one. -/
def closing : DecodeError → String
  | .exhaustedInput | .notBranch => ""
  | .reservedBit .. => "set"
  | .unallocated _ _ v | .malformedField _ _ _ v => Numeral.binary v

theorem Kind.space_not_mem_link (k : Kind) : ' ' ∉ k.link.toList := by
  cases k <;> decide

theorem space_not_mem_closing (e : DecodeError) : ' ' ∉ e.closing.toList := by
  cases e with
  | exhaustedInput | notBranch => decide
  | reservedBit => simp [closing]
  | unallocated | malformedField => exact Numeral.space_not_mem_binary _

/-- The last word of an opening that asks for a constant. -/
theorem space_not_mem_expected (v : Word) : ' ' ∉ (Numeral.binary v ++ ",").toList := by
  rw [String.toList_append, List.mem_append, not_or]
  exact ⟨Numeral.space_not_mem_binary v, by decide⟩

/-- **A message as its parts.** -/
theorem message_eq {e : DecodeError} {g : Group} (h : e.group? = some g) :
    e.message = g.title ++ ": " ++ (e.opening ++ " " ++ e.kind.link ++ " " ++ e.closing) := by
  apply String.toList_inj.mp
  cases e with
  | exhaustedInput | notBranch => cases h
  | reservedBit | unallocated | malformedField =>
    cases h
    simp [message, opening, kind, Kind.link, closing]

/-- The last two spaces of a text find its last two words. -/
theorem parts_eq {e e' : DecodeError}
    (h : e.opening ++ " " ++ e.kind.link ++ " " ++ e.closing =
      e'.opening ++ " " ++ e'.kind.link ++ " " ++ e'.closing) :
    e.opening = e'.opening ∧ e.kind.link = e'.kind.link ∧ e.closing = e'.closing := by
  obtain ⟨hfront, hclosing⟩ := eq_of_last_space e.space_not_mem_closing e'.space_not_mem_closing h
  obtain ⟨hopening, hlink⟩ := eq_of_last_space e.kind.space_not_mem_link e'.kind.space_not_mem_link hfront
  exact ⟨hopening, hlink, hclosing⟩

/-- **The parts tell the error.** The linking word tells the cause, and the values are read off the closing word and
the end of the opening. -/
theorem eq_of_parts {e e' : DecodeError} {g : Group} (hg : e.group? = some g) (hg' : e'.group? = some g)
    (hopening : e.opening = e'.opening) (hlink : e.kind.link = e'.kind.link)
    (hclosing : e.closing = e'.closing) : e = e' := by
  cases e with
  | exhaustedInput | notBranch => cases hg
  | reservedBit _ f =>
    cases e' with
    | exhaustedInput | notBranch => cases hg'
    | unallocated | malformedField => simp [kind, Kind.link] at hlink
    | reservedBit _ f' =>
      cases hg
      cases hg'
      obtain rfl := (String.append_right_inj "reserved bit ").mp hopening
      rfl
  | unallocated _ f v =>
    cases e' with
    | exhaustedInput | notBranch => cases hg'
    | reservedBit | malformedField => simp [kind, Kind.link] at hlink
    | unallocated _ f' v' =>
      cases hg
      cases hg'
      obtain rfl := (String.append_right_inj "unallocated ").mp hopening
      obtain rfl := Numeral.binary_inj hclosing
      rfl
  | malformedField _ f x v =>
    cases e' with
    | exhaustedInput | notBranch => cases hg'
    | reservedBit | unallocated => simp [kind, Kind.link] at hlink
    | malformedField _ f' x' v' =>
      cases hg
      cases hg'
      -- here the field is not at the end: the constant and its comma stand behind it
      obtain ⟨hf, hx⟩ := eq_of_last_space (space_not_mem_expected x) (space_not_mem_expected x') hopening
      obtain rfl := (String.append_left_inj " must be").mp hf
      obtain rfl := Numeral.binary_inj ((String.append_left_inj ",").mp hx)
      obtain rfl := Numeral.binary_inj hclosing
      rfl

/-! ## Different errors have different messages -/

/-- Only the message of an error with a group has a colon. -/
theorem colon_mem_message_iff {e : DecodeError} : ':' ∈ e.message.toList ↔ e.group?.isSome = true := by
  cases hg : e.group? with
  | none =>
    cases e with
    | exhaustedInput | notBranch => decide
    | reservedBit | unallocated | malformedField => cases hg
  | some g => simp [message_eq hg]

/-- The messages of the two errors without a group are two. -/
theorem eq_of_message_of_no_group {e e' : DecodeError} (hg : e.group? = none) (hg' : e'.group? = none)
    (h : e.message = e'.message) : e = e' := by
  cases e with
  | reservedBit | unallocated | malformedField => cases hg
  | exhaustedInput =>
    cases e' with
    | reservedBit | unallocated | malformedField => cases hg'
    | exhaustedInput => rfl
    | notBranch => exact absurd h (by decide)
  | notBranch =>
    cases e' with
    | reservedBit | unallocated | malformedField => cases hg'
    | exhaustedInput => exact absurd h (by decide)
    | notBranch => rfl

/-- **The message tells the error**, whatever the name of the field is. -/
theorem message_injective : Function.Injective message := by
  intro e e' h
  -- a colon ends a title only where there is one, so both errors have a group or neither has
  have hsome : e.group?.isSome = true ↔ e'.group?.isSome = true := by
    rw [← colon_mem_message_iff, ← colon_mem_message_iff, h]
  cases hg : e.group? with
  | none =>
    have hg' : e'.group? = none := by simpa [hg] using hsome
    exact eq_of_message_of_no_group hg hg' h
  | some g =>
    obtain ⟨g', hg'⟩ : ∃ g', e'.group? = some g' := by
      simpa [hg, Option.isSome_iff_exists] using hsome
    rw [message_eq hg, message_eq hg'] at h
    obtain ⟨rfl, hdetail⟩ := Group.eq_of_title h
    obtain ⟨hopening, hlink, hclosing⟩ := parts_eq hdetail
    exact eq_of_parts hg hg' hopening hlink hclosing

end DecodeError

/-! ## Log entries -/

theorem Rejection.toList_text (r : Rejection) :
    r.text.toList = "rejected 0x".toList ++ (Numeral.hexDigits r.word ++ (": ".toList ++ r.error.message.toList)) := by
  simp [text, Numeral.toList_hexadecimal]

/-- **The text of a log entry tells the entry**: the word from its eight digits, the error from its message. -/
theorem Rejection.text_injective : Function.Injective text := by
  intro r r' h
  have hlist := congrArg String.toList h
  rw [toList_text, toList_text, List.append_cancel_left_eq] at hlist
  have hlength : (Numeral.hexDigits r.word).length = (Numeral.hexDigits r'.word).length := by
    rw [Numeral.length_hexDigits, Numeral.length_hexDigits]
  obtain ⟨hdigits, hrest⟩ := List.append_inj hlist hlength
  have hmessage := String.toList_inj.mp (List.append_cancel_left hrest)
  cases r
  cases r'
  obtain rfl := Numeral.hexDigits_inj hdigits
  obtain rfl := DecodeError.message_injective hmessage
  rfl

/-- A fetch that refuses a word logs one text. -/
theorem Decoder.logged_text {d : Decoder} {s t : Stream} {w : Word} {e : DecodeError} (i : Instruction)
    (hread : s.readWord = .ok (w, t)) (hrefused : d.decode w = .error e) :
    (d.fetchInto i s).log.map Rejection.text = [Rejection.text ⟨w, e⟩] := by
  rw [fetchInto_of_decode_error hread hrefused]
  rfl

/-- **Diagnostics are unambiguous.**

* Two errors with the same message are the same error, whatever the names of their fields are.
* A fetch that refuses a word logs one text, with the word in eight digits and the message of the error.
* Two fetches that refuse their words, by any two decoders, log the same text only for the same word and the same
  error. -/
theorem messages_unambiguous :
    (∀ e e' : DecodeError, e.message = e'.message → e = e') ∧
    (∀ (d : Decoder) (i : Instruction) (s t : Stream) (w : Word) (e : DecodeError),
      s.readWord = .ok (w, t) → d.decode w = .error e →
        (d.fetchInto i s).log.map Rejection.text =
          ["rejected 0x" ++ String.ofList (Numeral.hexDigits w) ++ ": " ++ e.message]) ∧
    (∀ (d d' : Decoder) (i i' : Instruction) (s s' t t' : Stream) (w w' : Word) (e e' : DecodeError),
      s.readWord = .ok (w, t) → d.decode w = .error e →
      s'.readWord = .ok (w', t') → d'.decode w' = .error e' →
      (d.fetchInto i s).log.map Rejection.text = (d'.fetchInto i' s').log.map Rejection.text →
        w = w' ∧ e = e') := by
  refine ⟨DecodeError.message_injective, ?_, ?_⟩
  · intro d i s t w e hread hrefused
    rw [Decoder.logged_text i hread hrefused, Rejection.text, Numeral.hexadecimal, ← String.append_assoc]
    rfl
  · intro d d' i i' s s' t t' w w' e e' hread hrefused hread' hrefused' htext
    rw [Decoder.logged_text i hread hrefused, Decoder.logged_text i' hread' hrefused'] at htext
    have hentry : (⟨w, e⟩ : Rejection) = ⟨w', e'⟩ := Rejection.text_injective (List.cons.inj htext).1
    exact Rejection.mk.inj hentry

/-- The full decoder at the start of its input and the base decoder four bytes into its own log the same text, each
for a word with `o1` set. -/
theorem reserved_bit_logged :
    let s : Stream := { rest := [0x00, 0x00, 0x00, 0x55] }
    let s' : Stream := { rest := [0x00, 0x00, 0x00, 0x55, 0xff], position := 4 }
    let e : DecodeError := .reservedBit .conditional "o1"
    (s.readWord = .ok (0x55000000#32, { rest := [], position := 4 }) ∧
      Decoder.full.decode 0x55000000#32 = .error e) ∧
    (s'.readWord = .ok (0x55000000#32, { rest := [0xff], position := 8 }) ∧
      Decoder.baseline.decode 0x55000000#32 = .error e) ∧
    (Decoder.full.fetchInto .blank s).log.map Rejection.text =
      ["rejected 0x55000000: conditional branch (immediate): reserved bit o1 is set"] ∧
    (Decoder.full.fetchInto .blank s).log.map Rejection.text =
      (Decoder.baseline.fetchInto .blank s').log.map Rejection.text ∧
    (0x55000000#32 = 0x55000000#32 ∧ e = e) := by
  intro s s' e
  have hread : s.readWord = .ok (0x55000000#32, { rest := [], position := 4 }) := rfl
  have hread' : s'.readWord = .ok (0x55000000#32, { rest := [0xff], position := 8 }) := rfl
  have hrefused : Decoder.full.decode 0x55000000#32 = .error e := rfl
  have hrefused' : Decoder.baseline.decode 0x55000000#32 = .error e := rfl
  obtain ⟨_, hlogged, hsame⟩ := messages_unambiguous
  have htext := hlogged .full .blank s _ _ e hread hrefused
  have htexts : (Decoder.full.fetchInto .blank s).log.map Rejection.text =
      (Decoder.baseline.fetchInto .blank s').log.map Rejection.text :=
    htext.trans (hlogged .baseline .blank s' _ _ e hread' hrefused').symm
  exact ⟨⟨hread, hrefused⟩, ⟨hread', hrefused'⟩, htext.trans (by decide), htexts,
    hsame .full .baseline .blank .blank s s' _ _ _ _ e e hread hrefused hread' hrefused' htexts⟩

end BranchWord
