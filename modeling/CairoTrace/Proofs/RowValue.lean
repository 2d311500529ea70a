import CairoTrace.Component.Basic
import CairoTrace.Proofs.Check

/-!
# The values of terms on rows

A constraint is a term that is zero on some rows of a trace. The value of a term on a row follows
its syntax (`Term.onRow_add` and the lemmas beside it), down to cells of virtual columns that do not
reach beyond the end of the trace (`Term.onRow_current`, `Term.onRow_next`). The rows of the domains
that components use are counted by their steps (`Constraint.holds_every_iff` and the lemmas beside
it), so that a constraint becomes a family of equations between cells.
-/

namespace CairoTrace

/-! ## Cells -/

/-- The cell of a column on a row, which is zero where there is none. -/
def traceCell (columns : List (Array Felt)) (column row : Nat) : Felt :=
  ((columns[column]?.getD #[])[row]?).getD 0

/-- The cell of a virtual column with a given index. -/
def VirtualColumn.cellAt (columns : List (Array Felt)) (c : VirtualColumn) (i : Nat) : Felt :=
  traceCell columns c.column (c.row i)

/-- The columns whose cells are given as numbers. -/
def columnsOfNumbers (columns : List (List Nat)) : List (Array Felt) :=
  columns.map fun cells => (cells.map .ofNat).toArray

/-- The columns of `n` rows whose cells are functions of the row. -/
def columnsOfRows (n : Nat) (columns : List (Nat → Felt)) : List (Array Felt) :=
  columns.map fun cell => ((List.range n).map cell).toArray

variable {n : Nat} {columns : List (Array Felt)} {periodic : List PeriodicColumn} {b : Bindings}
  {row : Nat}

theorem traceCell_columnsOfRows {cells : List (Nat → Felt)} {column : Nat} {cell : Nat → Felt}
    (hcell : cells[column]? = some cell) (hrow : row < n) :
    traceCell (columnsOfRows n cells) column row = cell row := by
  rw [traceCell, columnsOfRows, List.getElem?_map, hcell, Option.map_some, Option.getD_some,
    List.getElem?_toArray, List.getElem?_map, List.getElem?_range hrow, Option.map_some,
    Option.getD_some]

/-- The cells of a virtual column, in columns whose cells are functions of the row. -/
theorem VirtualColumn.cellAt_columnsOfRows {cells : List (Nat → Felt)} {c : VirtualColumn}
    {cell : Nat → Felt} {i : Nat} (hcell : cells[c.column]? = some cell) (hrow : c.row i < n) :
    c.cellAt (columnsOfRows n cells) i = cell (c.row i) :=
  traceCell_columnsOfRows hcell hrow

theorem VirtualColumn.cellAt_column {column i : Nat} :
    (⟨column, 1, 0⟩ : VirtualColumn).cellAt columns i = traceCell columns column i := by
  rw [cellAt, VirtualColumn.row, zero_add, one_mul]

theorem signedWord_of_lt {k : Nat} (hk : k < 2 ^ 63) : signedWord k = k := by
  have hword : 1 <<< 64 = 2 ^ 64 := Nat.one_shiftLeft 64
  unfold signedWord
  rw [hword]
  apply Int.bmod_eq_of_le
  · omega
  · omega

theorem wrapRow_of_lt {offset : Nat} (h : row + offset < n) :
    Composition.wrapRow n row offset = row + offset := by
  rw [Composition.wrapRow, ← Int.natCast_add, ← Int.natCast_emod, Int.toNat_natCast,
    Nat.mod_eq_of_lt h]

theorem rowCell_of_lt {column offset : Nat} (h : row + offset < n) :
    rowCell n columns row (column, (offset : Int)) = traceCell columns column (row + offset) := by
  rw [rowCell, wrapRow_of_lt h, traceCell]

theorem traceCell_set_of_ne {column column' : Nat} {values : Array Felt} (h : column ≠ column') :
    traceCell (columns.set column values) column' row = traceCell columns column' row := by
  rw [traceCell, traceCell, List.getElem?_set_ne h]

theorem VirtualColumn.cellAt_set_of_ne {c : VirtualColumn} {column i : Nat} {values : Array Felt}
    (h : column ≠ c.column) : c.cellAt (columns.set column values) i = c.cellAt columns i :=
  traceCell_set_of_ne h

/-! ## Terms -/

/-- The value of a hint in the list of all of them. -/
def Hint.value (h : Hint) (hints : List (Option Felt)) : Felt := hints[h.index]?.join.getD 0

theorem Hint.value_eq {h : Hint} {hints : List (Option Felt)} {v : Felt}
    (hv : hints[h.index]? = some (some v)) : h.value hints = v := by
  rw [value, hv, Option.join_some, Option.getD_some]

theorem Challenge.value_eq {c : Challenge} {challenges : List Felt} {v : Felt}
    (hv : challenges[c.index]? = some v) : c.value challenges = v := by
  rw [value, hv, Option.getD_some]

namespace Term

/-- The value of a term on a row of a trace. -/
def onRow (n : Nat) (columns : List (Array Felt)) (periodic : List PeriodicColumn) (b : Bindings)
    (row : Nat) (e : Term) : Felt :=
  e.eval (Leaf.read b (rowCell n columns row) (rowPeriodic periodic row))

theorem onRow_add (e f : Term) :
    onRow n columns periodic b row (e + f) =
      onRow n columns periodic b row e + onRow n columns periodic b row f := rfl

theorem onRow_sub (e f : Term) :
    onRow n columns periodic b row (e - f) =
      onRow n columns periodic b row e - onRow n columns periodic b row f :=
  (sub_eq_add_neg _ _).symm

theorem onRow_mul (e f : Term) :
    onRow n columns periodic b row (e * f) =
      onRow n columns periodic b row e * onRow n columns periodic b row f := rfl

@[simp] theorem onRow_one : onRow n columns periodic b row 1 = 1 := rfl

@[simp] theorem onRow_ofNat (k : Nat) [k.AtLeastTwo] :
    onRow n columns periodic b row (no_index (OfNat.ofNat k)) = OfNat.ofNat k := rfl

@[simp] theorem onRow_pow2 (e : Nat) : onRow n columns periodic b row (pow2 e) = 2 ^ e := by
  have hcast : onRow n columns periodic b row (pow2 e) = ((1 <<< e : Nat) : Felt) := rfl
  rw [hcast, Nat.one_shiftLeft, Nat.cast_pow, Nat.cast_ofNat]

@[simp] theorem onRow_challenge (c : Challenge) :
    onRow n columns periodic b row c.term = c.value b.challenges := rfl

@[simp] theorem onRow_hint (h : Hint) :
    onRow n columns periodic b row h.term = h.value b.hints := rfl

/-- The value of a term that reads no periodic column does not depend on these columns. -/
theorem onRow_congr_periodic {periodic' : List PeriodicColumn} {e : Term}
    (h : ∀ p, Leaf.periodic p ∉ e.leaves) :
    onRow n columns periodic b row e = onRow n columns periodic' b row e := by
  refine Expr.eval_congr fun l hl => ?_
  cases l with
  | periodic p => exact absurd hl (h p)
  | _ => rfl

theorem onRow_booleanity_eq_zero_iff {e : Term} :
    onRow n columns periodic b row (booleanity e) = 0 ↔
      onRow n columns periodic b row e = 0 ∨ onRow n columns periodic b row e = 1 := by
  have hvalue : onRow n columns periodic b row (booleanity e) =
      onRow n columns periodic b row e * (onRow n columns periodic b row e - 1) := by
    rw [booleanity, onRow_sub, onRow_mul]
    ring
  rw [hvalue, mul_eq_zero, sub_eq_zero]

theorem onRow_cell {column offset : Nat} (h : row + offset < n) :
    onRow n columns periodic b row (.leaf (.cell column offset)) =
      traceCell columns column (row + offset) :=
  rowCell_of_lt h

/-- The current cell of a virtual column on one of its steps. -/
theorem onRow_current {c : VirtualColumn} {i : Nat} (hoffset : c.offset < 2 ^ 63)
    (h : c.row i < n) :
    onRow n columns periodic b (c.step * i) c.current = c.cellAt columns i := by
  have hrow : c.step * i + c.offset < n := by rwa [add_comm]
  rw [VirtualColumn.current, VirtualColumn.cell, mul_zero, zero_add, signedWord_of_lt hoffset,
    onRow_cell hrow, VirtualColumn.cellAt, VirtualColumn.row, add_comm]

/-- A later cell of a virtual column on one of its steps. -/
theorem onRow_later {c : VirtualColumn} {i j : Nat} (hstep : c.step < 2 ^ 63)
    (hoffset : c.offset < 2 ^ 63) (h : c.row (i + j) < n) :
    onRow n columns periodic b (c.step * i) (c.cell j) = c.cellAt columns (i + j) := by
  have hrow : c.row (i + j) = c.step * i + (c.step * j + c.offset) := by
    rw [VirtualColumn.row]
    ring
  rw [VirtualColumn.cell, signedWord_of_lt hstep, signedWord_of_lt hoffset, ← Int.natCast_mul,
    ← Int.natCast_add, onRow_cell (hrow ▸ h), VirtualColumn.cellAt, hrow]

/-- The next cell of a virtual column on one of its steps. -/
theorem onRow_next {c : VirtualColumn} {i : Nat} (hstep : c.step < 2 ^ 63)
    (hoffset : c.offset < 2 ^ 63) (h : c.row (i + 1) < n) :
    onRow n columns periodic b (c.step * i) c.next = c.cellAt columns (i + 1) :=
  onRow_later hstep hoffset h

variable {c : VirtualColumn} {step i : Nat}

/-- The cells of a virtual column that starts within its first step are in the trace. -/
theorem row_lt_of_lt_div (hc : c.step = step ∧ c.offset < step) (hdvd : step ∣ n)
    (hi : i < n / step) : c.row i < n := by
  obtain ⟨hstep, hoffset⟩ := hc
  rw [Nat.lt_div_iff_mul_lt' hdvd] at hi
  have hnext : step * (i + 1) ≤ n := by
    obtain ⟨count, rfl⟩ := hdvd
    exact Nat.mul_le_mul_left step (Nat.lt_of_mul_lt_mul_left hi)
  rw [VirtualColumn.row, hstep]
  rw [mul_add, mul_one] at hnext
  omega

theorem onRow_current_of_step (hc : c.step = step ∧ c.offset < step) (hword : step < 2 ^ 63)
    (hdvd : step ∣ n) (hi : i < n / step) :
    onRow n columns periodic b (step * i) c.current = c.cellAt columns i := by
  have hlt := row_lt_of_lt_div hc hdvd hi
  obtain ⟨rfl, hoffset⟩ := hc
  exact onRow_current (hoffset.trans hword) hlt

theorem onRow_next_of_step (hc : c.step = step ∧ c.offset < step) (hword : step < 2 ^ 63)
    (hdvd : step ∣ n) (hi : i + 1 < n / step) :
    onRow n columns periodic b (step * i) c.next = c.cellAt columns (i + 1) := by
  have hlt := row_lt_of_lt_div hc hdvd hi
  obtain ⟨rfl, hoffset⟩ := hc
  exact onRow_next hword (hoffset.trans hword) hlt

section Column

variable {column : Nat}

theorem onRow_current_column (hi : i < n) :
    onRow n columns periodic b (1 * i) (VirtualColumn.current ⟨column, 1, 0⟩) =
      traceCell columns column i := by
  rw [← VirtualColumn.cellAt_column]
  exact onRow_current_of_step ⟨rfl, one_pos⟩ (Nat.one_lt_two_pow (by decide)) (one_dvd n)
    (by rwa [Nat.div_one])

theorem onRow_next_column (hi : i + 1 < n) :
    onRow n columns periodic b (1 * i) (VirtualColumn.next ⟨column, 1, 0⟩) =
      traceCell columns column (i + 1) := by
  rw [← VirtualColumn.cellAt_column]
  exact onRow_next_of_step ⟨rfl, one_pos⟩ (Nat.one_lt_two_pow (by decide)) (one_dvd n)
    (by rwa [Nat.div_one])

end Column

end Term

/-! ## Constraints -/

namespace Constraint

variable {name : String} {e : Term} {step : Nat}

theorem mem_appliedRows_of_nil {domain : Rows} (hdomain : domain.IsResidueClass n) :
    row ∈ (⟨name, e, domain, []⟩ : Constraint).appliedRows n ↔ domain.contains n row = true := by
  rw [mem_appliedRows_iff hdomain]
  simp

/-- The rows of a progression are the multiples of its step. -/
theorem contains_every_zero_iff (hdvd : step ∣ n) :
    (Rows.every step 0).contains n row = true ↔ ∃ i < n / step, row = step * i := by
  rw [Rows.contains_iff, Rows.stride, Rows.start]
  constructor
  · rintro ⟨hlt, hmod⟩
    obtain ⟨i, rfl⟩ := Nat.dvd_of_mod_eq_zero hmod
    refine ⟨i, ?_, rfl⟩
    rwa [Nat.lt_div_iff_mul_lt' hdvd]
  · rintro ⟨i, hi, rfl⟩
    refine ⟨?_, Nat.mul_mod_right step i⟩
    rwa [Nat.lt_div_iff_mul_lt' hdvd] at hi

/-- The first row, counted by any step. -/
theorem holds_first_iff (step : Nat) (hpos : 0 < n) :
    (⟨name, e, .first 0, []⟩ : Constraint).Holds n columns periodic b ↔
      e.onRow n columns periodic b (step * 0) = 0 := by
  have hrow (row : Nat) : row ∈ (⟨name, e, .first 0, []⟩ : Constraint).appliedRows n ↔ row = 0 := by
    rw [mem_appliedRows_of_nil (Rows.isResidueClass_first hpos), Rows.contains_iff, Rows.stride,
      Rows.start]
    constructor
    · rintro ⟨hlt, hmod⟩
      rwa [Nat.mod_eq_of_lt hlt] at hmod
    · rintro rfl
      exact ⟨hpos, Nat.zero_mod n⟩
  simp only [Holds, hrow, forall_eq, mul_zero]
  rfl

theorem mem_appliedRows_every_iff (hstep : 0 < step) (hdvd : step ∣ n) :
    row ∈ (⟨name, e, .every step 0, []⟩ : Constraint).appliedRows n ↔
      ∃ i < n / step, row = step * i := by
  rw [mem_appliedRows_of_nil (Rows.isResidueClass_every hdvd hstep), contains_every_zero_iff hdvd]

theorem holds_every_iff (hstep : 0 < step) (hdvd : step ∣ n) :
    (⟨name, e, .every step 0, []⟩ : Constraint).Holds n columns periodic b ↔
      ∀ i < n / step, e.onRow n columns periodic b (step * i) = 0 := by
  simp only [Holds, mem_appliedRows_every_iff hstep hdvd]
  constructor
  · intro h i hi
    exact h _ ⟨i, hi, rfl⟩
  · rintro h _ ⟨i, hi, rfl⟩
    exact h i hi

/-- The last of the multiples of a step. -/
theorem contains_fromEnd_iff (hn : 0 < n) (hstep : 0 < step) (hdvd : step ∣ n) :
    (Rows.fromEnd step).contains n row = true ↔ row = step * (n / step - 1) := by
  have hle := Nat.le_of_dvd hn hdvd
  have hlast : step * (n / step - 1) = n - step := by
    rw [Nat.mul_sub, mul_one, Nat.mul_div_cancel' hdvd]
  rw [Rows.contains_iff, Rows.stride, Rows.start, hlast]
  constructor
  · rintro ⟨hlt, hmod⟩
    rwa [Nat.mod_eq_of_lt hlt] at hmod
  · rintro rfl
    have hlt : n - step < n := by omega
    exact ⟨hlt, Nat.mod_eq_of_lt hlt⟩

theorem holds_fromEnd_iff (hn : 0 < n) (hstep : 0 < step) (hdvd : step ∣ n) :
    (⟨name, e, .fromEnd step, []⟩ : Constraint).Holds n columns periodic b ↔
      e.onRow n columns periodic b (step * (n / step - 1)) = 0 := by
  have hclass := Rows.isResidueClass_fromEnd hstep (Nat.le_of_dvd hn hdvd)
  simp only [Holds, mem_appliedRows_of_nil hclass, contains_fromEnd_iff hn hstep hdvd, forall_eq]
  rfl

/-- Every step but the last one, which has no next cells. -/
theorem mem_appliedRows_every_except_last_iff (hn : 0 < n) (hstep : 0 < step) (hdvd : step ∣ n) :
    row ∈ (⟨name, e, .every step 0, [.fromEnd step]⟩ : Constraint).appliedRows n ↔
      ∃ i, i + 1 < n / step ∧ row = step * i := by
  rw [mem_appliedRows_iff (Rows.isResidueClass_every hdvd hstep), contains_every_zero_iff hdvd]
  simp only [List.mem_singleton, exists_eq_left, contains_fromEnd_iff hn hstep hdvd]
  constructor
  · rintro ⟨⟨i, hi, rfl⟩, hlast⟩
    refine ⟨i, ?_, rfl⟩
    rw [Nat.mul_right_inj hstep.ne'] at hlast
    omega
  · rintro ⟨i, hi, rfl⟩
    refine ⟨⟨i, by omega, rfl⟩, ?_⟩
    rw [Nat.mul_right_inj hstep.ne']
    omega

theorem holds_every_except_last_iff (hn : 0 < n) (hstep : 0 < step) (hdvd : step ∣ n) :
    (⟨name, e, .every step 0, [.fromEnd step]⟩ : Constraint).Holds n columns periodic b ↔
      ∀ i, i + 1 < n / step → e.onRow n columns periodic b (step * i) = 0 := by
  simp only [Holds, mem_appliedRows_every_except_last_iff hn hstep hdvd]
  constructor
  · intro h i hi
    exact h _ ⟨i, hi, rfl⟩
  · rintro h _ ⟨i, hi, rfl⟩
    exact h i hi

end Constraint

/-- A trace without violations satisfies every constraint. -/
theorem holds_of_checkConstraints_eq_nil {cs : List Constraint} {challenges : List Felt}
    {hints : List (Option Felt)}
    (h : checkConstraints n columns cs periodic challenges hints = .ok []) :
    isPowerOfTwo n = true ∧ (∀ column ∈ columns, column.size = n) ∧
      ∀ c ∈ cs, c.Holds n columns periodic ⟨challenges, hints, periodic.length⟩ := by
  obtain ⟨hn, hsize, hcheckable, -⟩ := checkConstraints_eq_ok_iff.mp h
  exact ⟨hn, hsize, (checkConstraints_eq_nil_iff hn hsize hcheckable).mp h⟩

end CairoTrace
