/-
# `BranchWord.Decoder` — decoding a word, with features switched on or off.

A word is decoded as a member of its group. Two features can be missing from a processor, and a decoder
without one of them reads the feature's encodings as unallocated:

* without pointer authentication, the whole space that it adds to the register group is refused at `op3`,
  before any field of the group is checked;
* without hinted branches, an instruction that turns out to be `bc` is refused at `o0`, after every other
  check of its group has passed.

A change of decoder may name a preset and switch single features. Each feature follows what is said about it alone
(`configure_eq`).
-/
import BranchWord.Layout.Immediate
import BranchWord.Layout.Indirect

namespace BranchWord

/-! ## Members of a group -/

/-- The instruction of a word read as a member of a group. Bits that the group fixes are not looked at, so
the word need not be a member. -/
def Group.decode (g : Group) (w : Word) : Except DecodeError Instruction :=
  match g with
  | .conditional => (Layout.Conditional.ofWord w).decode
  | .unconditional => .ok (Layout.Unconditional.ofWord w).decode
  | .compare => .ok (Layout.Compare.ofWord w).decode
  | .test => .ok (Layout.Test.ofWord w).decode
  | .register => (Layout.Indirect.ofWord w).decode

/-! ## Features -/

/-- Which features a decoder accepts. -/
structure Decoder where
  /-- branches that authenticate their target -/
  pointerAuth : Bool := true
  /-- the hinted conditional branch `bc` -/
  hintedBranches : Bool := true
  deriving DecidableEq, Repr

namespace Decoder

/-- The decoder that accepts every feature. -/
def full : Decoder := {}

/-- The decoder of the base instruction set: neither feature. -/
def baseline : Decoder := { pointerAuth := false, hintedBranches := false }

instance : Inhabited Decoder := ⟨full⟩

/-- The decoders that can be asked for by name. -/
inductive Preset where
  | full | baseline
  deriving DecidableEq, Repr

/-- The decoder of a name. -/
def Preset.decoder : Preset → Decoder
  | .full => Decoder.full
  | .baseline => Decoder.baseline

/-- A change of decoder: a preset to start from, then switches for single features. What is not mentioned
stays as it is. -/
structure Settings where
  preset : Option Preset := none
  pointerAuth : Option Bool := none
  hintedBranches : Option Bool := none
  deriving DecidableEq, Repr

/-- The decoder after a change. -/
def configure (d : Decoder) (s : Settings) : Decoder :=
  let start := (s.preset.map Preset.decoder).getD d
  { pointerAuth := s.pointerAuth.getD start.pointerAuth
    hintedBranches := s.hintedBranches.getD start.hintedBranches }

/-! ## What a change sets -/

/-- Whether a preset has the features: each has both or neither. -/
def Preset.hasFeatures : Preset → Bool
  | .full => true
  | .baseline => false

/-- What a change says about pointer authentication, with its switch, or else with its preset. -/
def Settings.pointerAuth? (s : Settings) : Option Bool :=
  s.pointerAuth.or (s.preset.map Preset.hasFeatures)

/-- What a change says about hinted branches, with its switch, or else with its preset. -/
def Settings.hintedBranches? (s : Settings) : Option Bool :=
  s.hintedBranches.or (s.preset.map Preset.hasFeatures)

/-- **What a change sets**: each feature on its own, to what is said about it, and a feature about which nothing is
said stays as it is. -/
theorem configure_eq (d : Decoder) (s : Settings) :
    d.configure s =
      { pointerAuth := s.pointerAuth?.getD d.pointerAuth
        hintedBranches := s.hintedBranches?.getD d.hintedBranches } := by
  obtain ⟨preset, pointerAuth, hintedBranches⟩ := s
  have hstart : (preset.map Preset.decoder).getD d =
      { pointerAuth := (preset.map Preset.hasFeatures).getD d.pointerAuth
        hintedBranches := (preset.map Preset.hasFeatures).getD d.hintedBranches } := by
    cases preset with
    | none => rfl
    | some p => cases p <;> rfl
  unfold configure Settings.pointerAuth? Settings.hintedBranches?
  rw [hstart, Option.getD_or, Option.getD_or]

/-- A change that mentions nothing changes nothing. -/
theorem configure_nothing (d : Decoder) : d.configure {} = d := rfl

/-! ## Decoding -/

/-- Whether a word of group `g` is refused before it is decoded, for want of pointer authentication. -/
def lacksPointerAuth (d : Decoder) (g : Group) (w : Word) : Bool :=
  !d.pointerAuth && g = .register && (Layout.Indirect.ofWord w).isAuthenticated

/-- Whether a decoded instruction is refused, for want of hinted branches. -/
def lacksHintedBranches (d : Decoder) (i : Instruction) : Bool :=
  !d.hintedBranches && i.mnemonic = .bc

/-- **The instruction of a word**, or why it has none under this decoder. -/
def decode (d : Decoder) (w : Word) : Except DecodeError Instruction :=
  match Group.ofWord? w with
  | none => .error .notBranch
  | some g =>
    if d.lacksPointerAuth g w then
      .error (Layout.Indirect.unallocated "op3" (Layout.Indirect.ofWord w).op3)
    else
      match g.decode w with
      | .error e => .error e
      | .ok i => if d.lacksHintedBranches i then .error (.unallocated g "o0" 1) else .ok i

/-! ## The full decoder -/

/-- With every feature accepted, decoding a member of a group is decoding it in that group. -/
theorem decode_full (w : Word) :
    full.decode w = match Group.ofWord? w with
      | none => .error .notBranch
      | some g => g.decode w := by
  unfold decode
  cases Group.ofWord? w with
  | none => rfl
  | some g =>
    show (match g.decode w with | .error e => .error e | .ok i => .ok i) = g.decode w
    cases g.decode w <;> rfl

end Decoder

end BranchWord
