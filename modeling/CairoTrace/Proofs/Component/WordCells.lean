import CairoTrace.Component.BitwiseCells
import CairoTrace.Component.RangeCheckCells
import CairoTrace.Proofs.Component.Supply

/-!
# Words in parts

Range checked words and operands of bitwise operations are joined from their parts by linear terms,
whatever their number (`RangeCheckCells.Fits.isLinear_joined`,
`BitwiseCells.Fits.isLinear_joined`), so that the constraints on them are placed.
-/

namespace CairoTrace

variable {n : Nat} {s : Supply}

namespace Term

/-- Whether a term is supplied and has a weight of one at most. -/
def IsLinear (s : Supply) (e : Term) : Prop := e.IsSupplied s ∧ e.weight ≤ 1

/-- Linear steps keep a sum linear. -/
theorem isLinear_foldl {f : Term → Nat → Term} {l : List Nat} {e : Term} (he : e.IsLinear s)
    (hf : ∀ acc k, acc.IsLinear s → (f acc k).IsLinear s) : (l.foldl f e).IsLinear s := by
  induction l generalizing e with
  | nil => exact he
  | cons k l ih => exact ih (hf e k he)

end Term

/-! ## Range checked words -/

namespace RangeCheckCells

/-- The condition on the cells of an instance. -/
structure Fits (n : Nat) (s : Supply) (c : RangeCheckCells) : Prop where
  isPowerOfTwo_height : isPowerOfTwo c.height = true
  height_le : c.height ≤ n
  memory_lt : c.memory.column < s.columns
  parts_lt : c.parts.column < s.columns
  hint : .rangeCheckStart ∈ s.hints

variable {cells : RangeCheckCells}

theorem Fits.isLinear_joined (h : cells.Fits n s) : cells.joined.IsLinear s := by
  refine Term.isLinear_foldl ?_ fun acc k hacc => ?_
  · simp [Term.IsLinear, h.parts_lt]
  · simpa [Term.IsLinear, h.parts_lt] using hacc

theorem Fits.isPlaced_of_mem (hn : isPowerOfTwo n = true) (h : cells.Fits n s) :
    ∀ c ∈ cells.constraints, c.IsPlaced n s := by
  have hevery := Rows.fitsExcept_every h.isPowerOfTwo_height h.height_le
  have hbutLast := Rows.fitsExcept_every_fromEnd hn h.isPowerOfTwo_height h.height_le
  have hfirst := Rows.fitsExcept_first hn
  have hhint := Term.isSupplied_hint h.hint
  obtain ⟨hjoined, hweight⟩ := h.isLinear_joined
  simp [constraints, hevery, hbutLast, hfirst, hhint, hjoined, hweight.trans one_le_two,
    VirtualColumn.valueColumn, VirtualColumn.shifted, h.memory_lt]

end RangeCheckCells

/-! ## Operands of bitwise operations -/

namespace BitwiseCells

/-- The condition on the cells of an instance. -/
structure Fits (n : Nat) (s : Supply) (c : BitwiseCells) : Prop where
  isPowerOfTwo_values : isPowerOfTwo c.values.step = true
  height_eq : c.height = valueCount * c.values.step
  height_le : c.height ≤ n
  isPowerOfTwo_strandStep : isPowerOfTwo c.strandStep = true
  strandStep_le : valueCount * c.strandStep ≤ n
  pool_lt : c.pool < s.columns
  values_lt : c.values.column < s.columns
  disjunction_lt : c.disjunction.column < s.columns
  hint : .bitwiseStart ∈ s.hints

variable {cells : BitwiseCells}

theorem Fits.isPowerOfTwo_height (h : cells.Fits n s) : isPowerOfTwo cells.height = true := by
  rw [h.height_eq]
  exact isPowerOfTwo_mul (by decide) h.isPowerOfTwo_values

theorem Fits.isSupplied_poolCell (h : cells.Fits n s) (row : Nat) :
    (cells.poolCell row).IsSupplied s :=
  Term.isSupplied_cellLeaf.mpr h.pool_lt

@[simp] theorem weight_poolCell (row : Nat) : (cells.poolCell row).weight = 1 := rfl

theorem Fits.isLinear_joined (h : cells.Fits n s) (value : Nat) :
    (cells.joined value).IsLinear s := by
  rw [joined]
  split
  · simp [Term.IsLinear]
  · refine Term.isLinear_foldl ?_ fun acc k hacc => ?_
    · simp [Term.IsLinear, h.isSupplied_poolCell]
    · simpa [Term.IsLinear, h.isSupplied_poolCell] using hacc

/-- The last of the four values of an instance is not followed by another. -/
theorem Fits.fitsExcept_values (h : cells.Fits n s) :
    (Rows.every cells.values.step 0).FitsExcept n
      [.every cells.height (3 * cells.values.step)] := by
  have hpos := pos_of_isPowerOfTwo h.isPowerOfTwo_values
  have hheight : cells.height = 4 * cells.values.step := h.height_eq
  have hle := h.height_le
  refine Rows.fitsExcept_singleton ?_ ?_ ?_
  · exact Rows.fits_every h.isPowerOfTwo_values (by omega) hpos
  · exact Rows.fits_every h.isPowerOfTwo_height hle (by omega)
  · exact Rows.every_isSubset_every ⟨4, by omega⟩ (Dvd.intro_left _ rfl)

theorem Fits.isPlaced_of_mem_address (hn : isPowerOfTwo n = true) (h : cells.Fits n s) :
    ∀ c ∈ cells.addressConstraints, c.IsPlaced n s := by
  have hevery := Rows.fitsExcept_every h.isPowerOfTwo_height h.height_le
  have hbutLast := Rows.fitsExcept_every_fromEnd hn h.isPowerOfTwo_height h.height_le
  have hfirst := Rows.fitsExcept_first hn
  have hhint := Term.isSupplied_hint h.hint
  simp [addressConstraints, hevery, hbutLast, hfirst, h.fitsExcept_values, hhint, h.values_lt,
    h.disjunction_lt]

theorem Fits.isPlaced_of_mem_partition (h : cells.Fits n s) :
    ∀ c ∈ cells.partitionConstraints, c.IsPlaced n s := by
  rw [partitionConstraints, List.forall_mem_map]
  intro p _
  obtain ⟨hjoined, hweight⟩ := h.isLinear_joined p.2
  simp [Rows.fitsExcept_every h.isPowerOfTwo_height h.height_le, hjoined,
    hweight.trans one_le_two, VirtualColumn.valueColumn, VirtualColumn.shifted, h.values_lt]

theorem Fits.isPlaced_of_mem_operation (h : cells.Fits n s) :
    ∀ c ∈ cells.operationConstraints, c.IsPlaced n s := by
  have hevery := Rows.fitsExcept_every h.isPowerOfTwo_height h.height_le
  have hstrands := Rows.fitsExcept_every
    (isPowerOfTwo_mul (a := valueCount) (by decide) h.isPowerOfTwo_strandStep) h.strandStep_le
  simp [operationConstraints, hevery, hstrands, h.isSupplied_poolCell, VirtualColumn.valueColumn,
    VirtualColumn.shifted, h.values_lt, h.disjunction_lt]

theorem Fits.isPlaced_of_mem_trim (h : cells.Fits n s) :
    ∀ c ∈ cells.trimConstraints, c.IsPlaced n s := by
  have hevery := Rows.fitsExcept_every h.isPowerOfTwo_height h.height_le
  rw [trimConstraints, List.forall_mem_map]
  intro p _
  rw [Constraint.isPlaced_mk]
  refine ⟨hevery, ?_⟩
  split
  · simp [h.isSupplied_poolCell]
  · simp [h.isSupplied_poolCell]

theorem Fits.isPlaced_of_mem (hn : isPowerOfTwo n = true) (h : cells.Fits n s) :
    ∀ c ∈ cells.constraints, c.IsPlaced n s := by
  simp only [constraints, List.forall_mem_append]
  exact ⟨⟨⟨h.isPlaced_of_mem_address hn, h.isPlaced_of_mem_partition⟩,
    h.isPlaced_of_mem_operation⟩, h.isPlaced_of_mem_trim⟩

end BitwiseCells

end CairoTrace
