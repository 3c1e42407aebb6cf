/-
# `BranchWord.Proofs.Viability` — an error of the register group names the first field at fault.

The fields of the register group are checked in the order `op2`, `opc`, `op3`, `Rn`, `op4`. Five checks nested in
tables and rows would allow an error to depend on fields that come later, or to name a field that is not to blame
yet. Neither happens. With the fields of a word cut off after the first `n`, call what is left viable if some
word that goes on in the same way is accepted (`Word.Viable`). An error at field `f` is the same for every word
with these fields up to `f`, so what is left there is not viable; and what is left before `f` is.

* `AgreeOnFirst` — two words have the same first `n` fields;
* `Refusal.exists_field` — what a refusal depends on and what it leaves possible, a case for each constructor;
* `viable_iff_le_rank` — the viable lengths are those up to the field that the error names;
* `Decoder.exists_field_of_decode` — the first half under every configuration. The second needs the full decoder:
  without pointer authentication the `opc` 1000 is refused at `op3`, and no word under it is accepted.
-/
import BranchWord.Proofs.Features
import BranchWord.Proofs.Layouts

namespace BranchWord

open Layout

namespace Layout.Indirect

/-! ## Fields in the order of the checks -/

/-- The fields of the register group, in the order in which they are checked. -/
inductive Field where
  | op2 | opc | op3 | rn | op4
  deriving DecidableEq, Repr

namespace Field

/-- The name of a field in errors. -/
def name : Field → String
  | op2 => "op2"
  | opc => "opc"
  | op3 => "op3"
  | rn => "Rn"
  | op4 => "op4"

/-- How many fields are checked before a field. -/
def rank : Field → Nat
  | op2 => 0
  | opc => 1
  | op3 => 2
  | rn => 3
  | op4 => 4

def width : Field → Nat
  | opc => 4
  | op3 => 6
  | op2 | rn | op4 => 5

/-- What a layout holds in a field. -/
def read (l : Indirect) : (f : Field) → BitVec f.width
  | op2 => l.op2
  | opc => l.opc
  | op3 => l.op3
  | rn => l.rn
  | op4 => l.op4

theorem name_inj {f g : Field} (h : f.name = g.name) : f = g := by
  revert h
  cases f <;> cases g <;> decide

end Field

/-- The layouts hold the same in the first `n` fields. -/
def AgreeOnFirst (n : Nat) (k l : Indirect) : Prop :=
  ∀ f : Field, f.rank < n → f.read k = f.read l

/-- The first `n` fields of `l`, and from there on those of `k`. -/
def splice (n : Nat) (l k : Indirect) : Indirect where
  op2 := if 0 < n then l.op2 else k.op2
  opc := if 1 < n then l.opc else k.opc
  op3 := if 2 < n then l.op3 else k.op3
  rn := if 3 < n then l.rn else k.rn
  op4 := if 4 < n then l.op4 else k.op4

variable {n : Nat} {k l : Indirect}

theorem agreeOnFirst_splice (n : Nat) (l k : Indirect) : AgreeOnFirst n (splice n l k) l := by
  intro f hf
  cases f <;> exact if_pos hf

theorem eq_ite_of_imp {α : Type} {p : Prop} [Decidable p] {a b : α} (h : p → a = b) :
    a = if p then b else a := by
  split
  next hp => exact h hp
  next => rfl

/-- A layout that agrees with `l` on the first `n` fields goes on from them. -/
theorem AgreeOnFirst.eq_splice (h : AgreeOnFirst n k l) : k = splice n l k := by
  obtain ⟨opc, op2, op3, rn, op4⟩ := k
  simp only [splice, Indirect.mk.injEq]
  exact ⟨eq_ite_of_imp (h .opc), eq_ite_of_imp (h .op2), eq_ite_of_imp (h .op3),
    eq_ite_of_imp (h .rn), eq_ite_of_imp (h .op4)⟩

theorem AgreeOnFirst.mono {m : Nat} (h : AgreeOnFirst n k l) (hle : m ≤ n) : AgreeOnFirst m k l :=
  fun f hf => h f (Nat.lt_of_lt_of_le hf hle)

theorem AgreeOnFirst.refl (n : Nat) (l : Indirect) : AgreeOnFirst n l l := fun _ _ => rfl

/-! ## What can still be decoded -/

variable {form : Form}

/-- Every table has a row: there is one under `op3 = 2` in each family. -/
theorem exists_row {opc : BitVec 4} {table : Table} (h : table? opc = some table) :
    ∃ op3 form, Row opc op3 form := by
  obtain ⟨family, -, rfl⟩ := Option.map_eq_some_iff.mp h
  have hrow : ∃ form, family.table 2#6 = some form := by
    cases family <;> exact ⟨_, rfl⟩
  obtain ⟨form, hform⟩ := hrow
  exact ⟨2#6, form, row_of_table h hform⟩

/-- A constant, where there is one, meets itself. -/
theorem eq_getD_of_mem {constant? : Option (BitVec 5)} (value : BitVec 5) :
    ∀ expected ∈ constant?, constant?.getD value = expected := by
  rintro expected rfl
  rfl

/-- With the right `Rn`, a row admits its own `op4`. -/
theorem Form.admits_getD {rn : BitVec 5} (op4 : BitVec 5) (h : ∀ expected ∈ form.rn?, rn = expected) :
    form.Admits rn (form.op4?.getD op4) :=
  ⟨h, eq_getD_of_mem op4⟩

theorem exists_decode_of_row (hop2 : l.op2 = 31#5) (hrow : Row l.opc l.op3 form)
    (hadmits : form.Admits l.rn l.op4) : ∃ i, l.decode = .ok i :=
  ⟨_, decode_eq_ok_iff.mpr ⟨hop2, form, hrow, hadmits, rfl⟩⟩

/-! ## Refusals -/

/-- **What a refusal depends on, and what it leaves possible.** It names a field. However the fields after it
are replaced, the refusal stays the same; and with the fields from it on replaced, something decodes. -/
theorem Refusal.exists_field {e : DecodeError} (h : Refusal l e) :
    ∃ f : Field, e.field? = some f.name ∧ (∀ k, Refusal (splice (f.rank + 1) l k) e) ∧
      ∃ k i, (splice f.rank l k).decode = .ok i := by
  cases h with
  | op2 hne =>
    refine ⟨.op2, rfl, fun k => .op2 hne, { l with op2 := 31#5, opc := 0b0101#4 }, ?_⟩
    exact exists_decode_of_row rfl (.drps _) (Form.admits_none ..)
  | opc hop2 hnone =>
    refine ⟨.opc, rfl, fun k => .opc hop2 hnone, { l with opc := 0b0101#4 }, ?_⟩
    exact exists_decode_of_row hop2 (.drps _) (Form.admits_none ..)
  | op3 hop2 htable hnone =>
    obtain ⟨op3, form, hrow⟩ := exists_row htable
    refine ⟨.op3, rfl, fun k => .op3 hop2 htable hnone,
      { l with op3, rn := form.rn?.getD 0#5, op4 := form.op4?.getD 0#5 }, ?_⟩
    exact exists_decode_of_row hop2 hrow (Form.admits_getD _ (eq_getD_of_mem _))
  | @rn form expected hop2 hrow hmem hne =>
    refine ⟨.rn, rfl, fun k => .rn hop2 hrow hmem hne,
      { l with rn := form.rn?.getD 0#5, op4 := form.op4?.getD 0#5 }, ?_⟩
    exact exists_decode_of_row hop2 hrow (Form.admits_getD _ (eq_getD_of_mem _))
  | @op4 form expected hop2 hrow hrn hmem hne =>
    refine ⟨.op4, rfl, fun k => .op4 hop2 hrow hrn hmem hne,
      { l with op4 := form.op4?.getD 0#5 }, ?_⟩
    exact exists_decode_of_row hop2 hrow (Form.admits_getD _ hrn)

/-- Every `opc` of the authenticated space has a table. -/
theorem table?_ne_none_of_authenticated {opc : BitVec 4} {op3 : BitVec 6}
    (h : AuthenticatedFields opc op3) : table? opc ≠ none := by
  rcases h with (rfl | rfl) | ⟨rfl | rfl | rfl | rfl, _⟩ <;> exact Option.some_ne_none _

/-- In the authenticated space no word is refused before `op3`. -/
theorem Refusal.two_le_rank {w : Word} {e : DecodeError} {f : Field} (hw : w.InAuthenticatedSpace)
    (h : Refusal (ofWord w) e) (hf : e.field? = some f.name) : 2 ≤ f.rank := by
  have hname : ∀ {g : Field}, some g.name = some f.name → g = f :=
    fun heq => Field.name_inj (Option.some.inj heq)
  cases h with
  | op2 hne => exact absurd hw.2.1 hne
  | opc _ hnone => exact absurd hnone (table?_ne_none_of_authenticated hw.2.2)
  | op3 =>
    obtain rfl := hname (g := .op3) hf
    decide
  | rn =>
    obtain rfl := hname (g := .rn) hf
    decide
  | op4 =>
    obtain rfl := hname (g := .op4) hf
    decide

end Layout.Indirect

open Indirect

/-! ## Words that can be completed -/

/-- Two words have the same first `n` fields of the register group. -/
def Word.AgreeOnFirst (n : Nat) (u w : Word) : Prop := Indirect.AgreeOnFirst n (ofWord u) (ofWord w)

/-- The first `n` fields of a word can be completed to a word that the register group accepts. -/
def Word.Viable (n : Nat) (w : Word) : Prop :=
  ∃ u, Word.AgreeOnFirst n u w ∧ ∃ i, Group.register.decode u = .ok i

namespace Group

variable {w : Word} {e : DecodeError}

/-- **An error of the register group names the first field at fault**: all words with the same fields up to it
have the error, and some word of the group with the same fields before it is accepted. -/
theorem exists_field_of_decode_register (h : register.decode w = .error e) :
    ∃ f : Field, e.field? = some f.name ∧
      (∀ u, Word.AgreeOnFirst (f.rank + 1) u w → register.decode u = .error e) ∧
      ∃ u, Word.AgreeOnFirst f.rank u w ∧ register.pattern.Matches u ∧
        ∃ i, register.decode u = .ok i := by
  obtain ⟨f, hname, hsame, k, i, hk⟩ := (decode_eq_error_iff.mp h).exists_field
  refine ⟨f, hname, ?_, (splice f.rank (ofWord w) k).toWord, ?_, matches_toWord _, i, ?_⟩
  · intro u hu
    have hrefusal := hsame (ofWord u)
    rw [← hu.eq_splice] at hrefusal
    exact decode_eq_error_iff.mpr hrefusal
  · rw [Word.AgreeOnFirst, ofWord_toWord]
    exact agreeOnFirst_splice _ _ _
  · show (ofWord _).decode = .ok i
    rw [ofWord_toWord, hk]

/-- The viable lengths are those up to the field that the error names. -/
theorem viable_iff_le_rank {f : Field}
    (hsame : ∀ u, Word.AgreeOnFirst (f.rank + 1) u w → register.decode u = .error e)
    (hviable : w.Viable f.rank) (n : Nat) : w.Viable n ↔ n ≤ f.rank := by
  constructor
  · rintro ⟨u, hu, i, hi⟩
    refine Nat.le_of_not_lt fun hlt => ?_
    have herror := hsame u (hu.mono hlt)
    rw [hi] at herror
    cases herror
  · intro hle
    obtain ⟨u, hu, hi⟩ := hviable
    exact ⟨u, hu.mono hle, hi⟩

/-- A word is accepted by the register group exactly when each of its lengths is viable. -/
theorem exists_decode_register_iff_viable :
    (∃ i, register.decode w = .ok i) ↔ ∀ n, w.Viable n := by
  constructor
  · intro h n
    exact ⟨w, AgreeOnFirst.refl n _, h⟩
  · intro hviable
    cases h : register.decode w with
    | ok i => exact ⟨i, rfl⟩
    | error e =>
      obtain ⟨f, _, hsame, _⟩ := exists_field_of_decode_register h
      -- the length that reaches past the named field is not viable
      obtain ⟨u, hu, i, hi⟩ := hviable (f.rank + 1)
      have herror := hsame u hu
      rw [hi] at herror
      cases herror

end Group

/-! ## Any decoder -/

/-- Whether a word of the register group lies in the authenticated space is read off its first three fields. -/
theorem Word.AgreeOnFirst.inAuthenticatedSpace {u w : Word} (h : Word.AgreeOnFirst 3 u w)
    (hu : u.InAuthenticatedSpace) (hg : Group.register.pattern.Matches w) : w.InAuthenticatedSpace := by
  have hop2 : u.field 16 5 = w.field 16 5 := h .op2 (by decide)
  have hopc : u.field 21 4 = w.field 21 4 := h .opc (by decide)
  have hop3 : u.field 10 6 = w.field 10 6 := h .op3 (by decide)
  refine ⟨hg, hop2 ▸ hu.2.1, ?_⟩
  rw [← hopc, ← hop3]
  exact hu.2.2

theorem Word.AgreeOnFirst.symm {n : Nat} {u w : Word} (h : Word.AgreeOnFirst n u w) :
    Word.AgreeOnFirst n w u :=
  fun f hf => (h f hf).symm

namespace Decoder

variable {d : Decoder} {u w : Word} {e : DecodeError}

/-- **Under every configuration an error names a field up to which it depends on the word.** -/
theorem exists_field_of_decode (hg : Group.register.pattern.Matches w) (h : d.decode w = .error e) :
    ∃ f : Field, e.field? = some f.name ∧ ∀ u, Group.register.pattern.Matches u →
      Word.AgreeOnFirst (f.rank + 1) u w → d.decode u = .error e := by
  rw [decode_register d hg] at h
  split at h
  next hauth =>
    -- the filter looks at the first three fields and names the third
    cases h
    refine ⟨.op3, rfl, ?_⟩
    intro u hgu hu
    have hop3 : u.field 10 6 = w.field 10 6 := hu .op3 (by decide)
    have hspace := hu.symm.inAuthenticatedSpace hauth.2 hgu
    rw [decode_register d hgu, if_pos ⟨hauth.1, hspace⟩, hop3]
  next hauth =>
    obtain ⟨f, hname, hsame, _⟩ := Group.exists_field_of_decode_register h
    refine ⟨f, hname, ?_⟩
    intro u hgu hu
    have hue := hsame u hu
    rw [decode_register d hgu, if_neg, hue]
    rintro ⟨hoff, hspace⟩
    -- in the space the error comes at `op3` or later, so the other word is in the space as well
    have hrank := (decode_eq_error_iff.mp hue).two_le_rank hspace hname
    have hfirst : Word.AgreeOnFirst 3 u w := AgreeOnFirst.mono hu (by omega)
    exact hauth ⟨hoff, hfirst.inAuthenticatedSpace hspace hg⟩

end Decoder

/-- **An error of the register group names the first field that makes the word undecodable**, in the order
`op2`, `opc`, `op3`, `Rn`, `op4`. If the group refuses a word with an error at field `f`, then

* every word with the same fields up to `f` gets the same error, so none of them is accepted;
* some word with the same fields before `f` is accepted;
* so the first `n` fields of the word can be completed to an accepted word just for `n` up to the place of `f`.

A word is accepted exactly when each of its lengths can be completed. The first point holds for every decoder on
the words of the group. -/
theorem Group.register_error_names_first_field (w : Word) :
    (∀ e, register.decode w = .error e → ∃ f : Field, e.field? = some f.name ∧
      (∀ u, Word.AgreeOnFirst (f.rank + 1) u w → register.decode u = .error e) ∧
      (∃ u, Word.AgreeOnFirst f.rank u w ∧ register.pattern.Matches u ∧
        ∃ i, register.decode u = .ok i) ∧
      ∀ n, w.Viable n ↔ n ≤ f.rank) ∧
    ((∃ i, register.decode w = .ok i) ↔ ∀ n, w.Viable n) ∧
    (∀ (d : Decoder) (e : DecodeError), register.pattern.Matches w → d.decode w = .error e →
      ∃ f : Field, e.field? = some f.name ∧ ∀ u, register.pattern.Matches u →
        Word.AgreeOnFirst (f.rank + 1) u w → d.decode u = .error e) := by
  refine ⟨?_, exists_decode_register_iff_viable, ?_⟩
  · intro e h
    obtain ⟨f, hname, hsame, u, hu, hgu, hi⟩ := exists_field_of_decode_register h
    exact ⟨f, hname, hsame, ⟨u, hu, hgu, hi⟩, viable_iff_le_rank hsame ⟨u, hu, hi⟩⟩
  · intro d e hg h
    exact Decoder.exists_field_of_decode hg h

/-- A return from an exception with two wrong constants: the error is that of `Rn`, which is checked first. -/
example : Group.register.decode 0xd69f0001#32 = .error (.malformedField .register "Rn" 31 0) := rfl

end BranchWord
