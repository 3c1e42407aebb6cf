/-
# `BranchWord.Proofs.Rows` — the rows of the register group, and what decoding makes of them.

The tables of the register group are functions, chosen by `opc` and applied to `op3`. What a family does besides
makes no difference (`decode_eq_tables`), so decoding is known once its rows are. `Row` is the same set of rows
as a relation with one constructor per instruction, so that a statement about every row is proved by one case per
instruction and not by taking the tables apart again:

* `row_iff` — the relation and the tables have the same rows;
* `Form.decode_eq_ok_iff` — a row decodes exactly when the last two fields hold its constants;
* `decode_eq_ok_iff` — the fields of a word decode exactly when `op2` is 31 and there is such a row;
* `decode_eq_error_iff` — they are refused exactly for the reasons that `Refusal` lists, field by field.

The second look at `op2` is there all the same, and `Family.decode_eq_op2_iff` says what it is worth to a caller that
skips the first: one family of the six notices.
-/
import BranchWord.Layout.Indirect

namespace BranchWord.Layout.Indirect

/-! ## The rows as a relation -/

/-- The two values of `opc` that share the table of branches with link. -/
def IsCall (opc : BitVec 4) : Prop := opc = 0b0001#4 ∨ opc = 0b1001#4

/-- **The rows of the register group**: under `opc` and `op3` there is the row `form`. -/
inductive Row : BitVec 4 → BitVec 6 → Form → Prop
  | br : Row 0b0000#4 0#6 { op4? := some 0#5, shape := .jump .br }
  | braaz : Row 0b0000#4 2#6 { op4? := some 31#5, shape := .jump .braaz }
  | brabz : Row 0b0000#4 3#6 { op4? := some 31#5, shape := .jump .brabz }
  | braa : Row 0b1000#4 2#6 { shape := .jumpModified .braa }
  | brab : Row 0b1000#4 3#6 { shape := .jumpModified .brab }
  | blr {opc : BitVec 4} : IsCall opc → Row opc 0#6 { op4? := some 0#5, shape := .jump .blr }
  | blraa {opc : BitVec 4} : IsCall opc → Row opc 2#6 { shape := .jumpEither .blraaz .blraa }
  | blrab {opc : BitVec 4} : IsCall opc → Row opc 3#6 { shape := .jumpEither .blrabz .blrab }
  | ret : Row 0b0010#4 0#6 { op4? := some 0#5, shape := .returnTo .ret }
  | retaa : Row 0b0010#4 2#6
      { rn? := some 31#5, op4? := some 31#5, shape := .impliedReturn .retaa }
  | retab : Row 0b0010#4 3#6
      { rn? := some 31#5, op4? := some 31#5, shape := .impliedReturn .retab }
  | eret : Row 0b0100#4 0#6
      { rn? := some 31#5, op4? := some 0#5, shape := .impliedReturn .eret }
  | eretaa : Row 0b0100#4 2#6
      { rn? := some 31#5, op4? := some 31#5, shape := .impliedReturn .eretaa }
  | eretab : Row 0b0100#4 3#6
      { rn? := some 31#5, op4? := some 31#5, shape := .impliedReturn .eretab }
  | drps (op3 : BitVec 6) : Row 0b0101#4 op3 { shape := .restore }

variable {opc : BitVec 4} {op3 : BitVec 6} {form : Form}

theorem row_of_branchTable (h : branchTable op3 = some form) : Row 0b0000#4 op3 form := by
  unfold branchTable at h
  split at h <;> cases h
  · exact .br
  · exact .braaz
  · exact .brabz

theorem row_of_modifiedBranchTable (h : modifiedBranchTable op3 = some form) :
    Row 0b1000#4 op3 form := by
  unfold modifiedBranchTable at h
  split at h <;> cases h
  · exact .braa
  · exact .brab

theorem row_of_callTable (hopc : IsCall opc) (h : callTable op3 = some form) :
    Row opc op3 form := by
  unfold callTable at h
  split at h <;> cases h
  · exact .blr hopc
  · exact .blraa hopc
  · exact .blrab hopc

theorem row_of_returnTable (h : returnTable op3 = some form) : Row 0b0010#4 op3 form := by
  unfold returnTable at h
  split at h <;> cases h
  · exact .ret
  · exact .retaa
  · exact .retab

theorem row_of_exceptionReturnTable (h : exceptionReturnTable op3 = some form) :
    Row 0b0100#4 op3 form := by
  unfold exceptionReturnTable at h
  split at h <;> cases h
  · exact .eret
  · exact .eretaa
  · exact .eretab

/-- A row found in the tables is a row of the relation. -/
theorem row_of_table {table : Table} (htable : table? opc = some table)
    (hform : table op3 = some form) : Row opc op3 form := by
  obtain ⟨family, hfamily, rfl⟩ := Option.map_eq_some_iff.mp htable
  unfold family? at hfamily
  split at hfamily <;> cases hfamily
  · exact row_of_branchTable hform
  · exact row_of_callTable (.inl rfl) hform
  · exact row_of_returnTable hform
  · exact row_of_exceptionReturnTable hform
  · cases hform
    exact .drps op3
  · exact row_of_modifiedBranchTable hform
  · exact row_of_callTable (.inr rfl) hform

/-- Both values of `opc` for branches with link choose the same table. -/
theorem table?_of_isCall (h : IsCall opc) : table? opc = some callTable := by
  rcases h with rfl | rfl <;> rfl

/-- The values of `opc` that have no table. -/
theorem table?_eq_none_of_not_mem
    (h : opc ∉ [0b0000#4, 0b0001#4, 0b0010#4, 0b0100#4, 0b0101#4, 0b1000#4, 0b1001#4]) :
    table? opc = none := by
  rw [table?, Option.map_eq_none_iff]
  unfold family?
  split <;> first | rfl | exact absurd (by decide) h

/-- **The relation has the rows of the tables**, no more and no fewer. -/
theorem row_iff : (∃ table, table? opc = some table ∧ table op3 = some form) ↔ Row opc op3 form := by
  refine ⟨?_, ?_⟩
  · rintro ⟨table, htable, hform⟩
    exact row_of_table htable hform
  · intro h
    -- each row names its table; the two calls choose theirs by `opc`
    cases h with
    | br | braaz | brabz => exact ⟨branchTable, rfl, rfl⟩
    | braa | brab => exact ⟨modifiedBranchTable, rfl, rfl⟩
    | blr hopc | blraa hopc | blrab hopc => exact ⟨callTable, table?_of_isCall hopc, rfl⟩
    | ret | retaa | retab => exact ⟨returnTable, rfl, rfl⟩
    | eret | eretaa | eretab => exact ⟨exceptionReturnTable, rfl, rfl⟩
    | drps => exact ⟨restoreTable, rfl, rfl⟩

/-! ## The constants of a row -/

/-- Where a row fixes `Rn`, it fixes it to 31. -/
theorem Row.rn_constant (hrow : Row opc op3 form) {expected : BitVec 5} (h : expected ∈ form.rn?) :
    expected = 31#5 := by
  cases hrow <;> cases h <;> rfl

/-- Where a row fixes `op4`, it fixes it to 0 or to 31. -/
theorem Row.op4_constant (hrow : Row opc op3 form) {expected : BitVec 5} (h : expected ∈ form.op4?) :
    expected = 0#5 ∨ expected = 31#5 := by
  cases hrow <;> cases h <;> simp

/-! ## Decoding a row -/

/-- The last two fields hold the constants of a row. -/
structure Form.Admits (form : Form) (rn op4 : BitVec 5) : Prop where
  rn : ∀ expected ∈ form.rn?, rn = expected
  op4 : ∀ expected ∈ form.op4?, op4 = expected

/-- A row without constants admits everything. -/
theorem Form.admits_none (shape : Shape) (rn op4 : BitVec 5) :
    Form.Admits { shape := shape } rn op4 := by
  refine ⟨?_, ?_⟩ <;> intro expected h <;> cases h

/-- A row with a constant for `op4` alone admits every register. -/
theorem Form.admits_op4 (shape : Shape) (rn op4 : BitVec 5) :
    Form.Admits { op4? := some op4, shape := shape } rn op4 := by
  refine ⟨?_, ?_⟩ <;> intro expected h <;> cases h
  rfl

theorem Form.admits_rn_op4 (shape : Shape) (rn op4 : BitVec 5) :
    Form.Admits { rn? := some rn, op4? := some op4, shape := shape } rn op4 := by
  refine ⟨?_, ?_⟩ <;> intro expected h <;> cases h <;> rfl

/-- A check against an optional constant passes exactly when the constant, if any, is met. -/
theorem filter_ne_eq_none_iff {constant? : Option (BitVec 5)} {value : BitVec 5} :
    constant?.filter (fun c => c ≠ value) = none ↔ ∀ expected ∈ constant?, value = expected := by
  rw [Option.filter_eq_none_iff]
  refine ⟨?_, ?_⟩
  · intro h expected hmem
    have heq : expected = value := by simpa using h expected hmem
    exact heq.symm
  · intro h expected hmem
    simp [h expected hmem]

/-- A check against an optional constant fails exactly when there is a constant and it is missed. -/
theorem filter_ne_eq_some_iff {constant? : Option (BitVec 5)} {value expected : BitVec 5} :
    constant?.filter (fun c => c ≠ value) = some expected ↔
      expected ∈ constant? ∧ value ≠ expected := by
  rw [Option.filter_eq_some_iff]
  have hswap : decide (expected ≠ value) = true ↔ value ≠ expected := by
    rw [decide_eq_true_eq]
    exact ne_comm
  rw [hswap]
  rfl

theorem Form.decode_of_admits {rn op4 : BitVec 5} (h : form.Admits rn op4) :
    form.decode rn op4 = .ok (form.shape.instruction rn op4) := by
  unfold Form.decode
  rw [filter_ne_eq_none_iff.mpr h.rn, filter_ne_eq_none_iff.mpr h.op4]

/-- A row decodes exactly when the last two fields hold its constants. -/
theorem Form.decode_eq_ok_iff {rn op4 : BitVec 5} {i : Instruction} :
    form.decode rn op4 = .ok i ↔ form.Admits rn op4 ∧ i = form.shape.instruction rn op4 := by
  refine ⟨?_, ?_⟩
  · intro h
    have hadmits : form.Admits rn op4 := by
      unfold Form.decode at h
      split at h
      · cases h
      · cases h
      · next hrn hop4 => exact ⟨filter_ne_eq_none_iff.mp hrn, filter_ne_eq_none_iff.mp hop4⟩
    rw [Form.decode_of_admits hadmits] at h
    exact ⟨hadmits, (Except.ok.inj h).symm⟩
  · rintro ⟨hadmits, rfl⟩
    exact Form.decode_of_admits hadmits

/-! ## Decoding the fields of a word -/

/-- Under a row, the fields are decoded by the row. -/
theorem decode_of_row {l : Indirect} (hop2 : l.op2 = 31#5) (hrow : Row l.opc l.op3 form) :
    l.decode = form.decode l.rn l.op4 := by
  obtain ⟨table, htable, hform⟩ := row_iff.mpr hrow
  rw [decode_eq_tables, if_neg (not_not_intro hop2), htable]
  simp only [decodeIn, hform]

/-- **What decodes in the register group**: `op2` is 31, there is a row under `opc` and `op3`, and the
last two fields hold the constants of the row. -/
theorem decode_eq_ok_iff {l : Indirect} {i : Instruction} :
    l.decode = .ok i ↔ l.op2 = 31#5 ∧ ∃ form, Row l.opc l.op3 form ∧ form.Admits l.rn l.op4 ∧
      i = form.shape.instruction l.rn l.op4 := by
  refine ⟨?_, ?_⟩
  · intro h
    rw [decode_eq_tables] at h
    split at h
    · cases h
    next hop2 =>
      split at h
      · cases h
      next table htable =>
        unfold decodeIn at h
        split at h
        · cases h
        next form hform =>
          obtain ⟨hadmits, hi⟩ := Form.decode_eq_ok_iff.mp h
          exact ⟨Decidable.of_not_not hop2, form, row_of_table htable hform, hadmits, hi⟩
  · rintro ⟨hop2, form, hrow, hadmits, rfl⟩
    rw [decode_of_row hop2 hrow]
    exact Form.decode_of_admits hadmits

/-! ## Refusing the fields of a word -/

/-- **Why fields do not decode**, one constructor per field: the fields before it are in order, and the
field itself is not. -/
inductive Refusal (l : Indirect) : DecodeError → Prop
  | op2 : l.op2 ≠ 31#5 → Refusal l (unallocated "op2" l.op2)
  | opc : l.op2 = 31#5 → table? l.opc = none → Refusal l (unallocated "opc" l.opc)
  | op3 {table : Table} : l.op2 = 31#5 → table? l.opc = some table → table l.op3 = none →
      Refusal l (unallocated "op3" l.op3)
  | rn {form : Form} {expected : BitVec 5} : l.op2 = 31#5 → Row l.opc l.op3 form →
      expected ∈ form.rn? → l.rn ≠ expected → Refusal l (malformed "Rn" expected l.rn)
  | op4 {form : Form} {expected : BitVec 5} : l.op2 = 31#5 → Row l.opc l.op3 form →
      (∀ c ∈ form.rn?, l.rn = c) → expected ∈ form.op4? → l.op4 ≠ expected →
      Refusal l (malformed "op4" expected l.op4)

/-- **What is refused in the register group**, and with which error. -/
theorem decode_eq_error_iff {l : Indirect} {e : DecodeError} : l.decode = .error e ↔ Refusal l e := by
  refine ⟨?_, ?_⟩
  · intro h
    -- down the checks in their order; every way out is one constructor of `Refusal`
    rw [decode_eq_tables] at h
    split at h
    · next hop2 =>
      cases h
      exact .op2 hop2
    next hop2 =>
      have hop2 : l.op2 = 31#5 := Decidable.of_not_not hop2
      split at h
      · next hopc =>
        cases h
        exact .opc hop2 hopc
      next table htable =>
        unfold decodeIn at h
        split at h
        · next hop3 =>
          cases h
          exact .op3 hop2 htable hop3
        next form hform =>
          have hrow : Row l.opc l.op3 form := row_of_table htable hform
          unfold Form.decode at h
          split at h
          · next hrn =>
            cases h
            obtain ⟨hmem, hne⟩ := filter_ne_eq_some_iff.mp hrn
            exact .rn hop2 hrow hmem hne
          · next hrn hop4 =>
            cases h
            obtain ⟨hmem, hne⟩ := filter_ne_eq_some_iff.mp hop4
            exact .op4 hop2 hrow (filter_ne_eq_none_iff.mp hrn) hmem hne
          · cases h
  · intro h
    cases h with
    | op2 hop2 => rw [decode_eq_tables, if_pos hop2]
    | opc hop2 hopc => rw [decode_eq_tables, if_neg (not_not_intro hop2), hopc]
    | op3 hop2 htable hop3 =>
      rw [decode_eq_tables, if_neg (not_not_intro hop2), htable]
      simp only [decodeIn, hop3]
    | rn hop2 hrow hmem hne =>
      rw [decode_of_row hop2 hrow, Form.decode, filter_ne_eq_some_iff.mpr ⟨hmem, hne⟩]
    | op4 hop2 hrow hrn hmem hne =>
      rw [decode_of_row hop2 hrow, Form.decode, filter_ne_eq_none_iff.mpr hrn,
        filter_ne_eq_some_iff.mpr ⟨hmem, hne⟩]

/-! ## A family on its own -/

/-- No table looks at `op2`. -/
theorem decodeIn_ne_op2 (l : Indirect) (table : Table) :
    l.decodeIn table ≠ .error (unallocated "op2" l.op2) := by
  intro h
  unfold decodeIn at h
  split at h
  · have hfield : "op3" = "op2" := (DecodeError.unallocated.inj (Except.error.inj h)).2.1
    exact absurd hfield (by decide)
  · unfold Form.decode at h
    split at h <;> cases h

/-- The other families go straight to their table. -/
theorem Family.decode_of_ne {family : Family} (h : family ≠ .exceptionReturn) (l : Indirect) :
    family.decode l = l.decodeIn family.table := by
  cases family with
  | exceptionReturn => exact absurd rfl h
  | branch | modifiedBranch | call | ret | restore => rfl

/-- **The one family that guards itself**: asked directly, only the returns from an exception refuse a wrong `op2`;
the others decode the word as if the field held its ones. -/
theorem Family.decode_eq_op2_iff (l : Indirect) (family : Family) :
    family.decode l = .error (unallocated "op2" l.op2) ↔
      family = .exceptionReturn ∧ l.op2 ≠ 31#5 := by
  refine ⟨?_, ?_⟩
  · intro h
    refine ⟨?_, ?_⟩
    · refine Decidable.byContradiction fun hfamily => ?_
      rw [decode_of_ne hfamily] at h
      exact l.decodeIn_ne_op2 _ h
    · intro hop2
      rw [decode_of_op2 hop2] at h
      exact l.decodeIn_ne_op2 _ h
  · rintro ⟨rfl, hop2⟩
    exact if_pos hop2

end BranchWord.Layout.Indirect
