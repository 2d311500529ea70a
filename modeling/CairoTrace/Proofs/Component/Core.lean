import CairoTrace.Component.Cpu
import CairoTrace.Component.DilutedCheck
import CairoTrace.Component.MemoryCheck
import CairoTrace.Component.RangeCheck16
import CairoTrace.Proofs.Component.Supply

/-!
# The processor and the pools

The constraints of the components that do not have instances are placed in every trace of a cycle or
more, once there are the columns that they read.
-/

namespace CairoTrace

variable {n : Nat} {s : Supply}

/-! ## The processor -/

namespace Cpu

/-- What the processor reads. -/
def supply : Supply where
  columns := 6
  periodic := 0
  challenges := 0
  hints := [.initialAp, .initialPc, .finalAp, .finalPc]

theorem isSupplied_of_mem : ∀ c ∈ constraints, c.expr.IsSupplied supply := by decide

theorem weight_le_of_mem : ∀ c ∈ constraints, c.expr.weight ≤ 2 := by decide

theorem rows_of_mem : ∀ c ∈ constraints, (c.domain, c.exclusions) ∈
    [(.all, [zeroRow]), (zeroRow, []), (every, []), (every, [lastCycle]), (.first 0, []),
      (lastCycle, [])] := by
  decide

theorem fitsExcept_of_mem (hn : isPowerOfTwo n = true) (hle : cycleHeight ≤ n) {c : Constraint}
    (hc : c ∈ constraints) : c.domain.FitsExcept n c.exclusions := by
  have hheight : isPowerOfTwo cycleHeight = true := by decide
  have hzero : zeroRow.fits n = true := Rows.fits_every hheight hle (by decide)
  have hall : Rows.all.fits n = true := Rows.fits_every (by decide) (pos_of_isPowerOfTwo hn) one_pos
  have hrows := rows_of_mem c hc
  simp only [List.mem_cons, List.not_mem_nil, Prod.mk.injEq, or_false] at hrows
  rcases hrows with ⟨hd, he⟩ | ⟨hd, he⟩ | ⟨hd, he⟩ | ⟨hd, he⟩ | ⟨hd, he⟩ | ⟨hd, he⟩
  · rw [hd, he]
    exact Rows.fitsExcept_singleton hall hzero
      (Rows.every_isSubset_every (one_dvd _) (one_dvd _))
  · rw [hd, he]
    exact Rows.fitsExcept_nil hzero
  · rw [hd, he]
    exact Rows.fitsExcept_every hheight hle
  · rw [hd, he]
    exact Rows.fitsExcept_every_fromEnd hn hheight hle
  · rw [hd, he]
    exact Rows.fitsExcept_first hn
  · rw [hd, he]
    exact Rows.fitsExcept_fromEnd (by decide) hle

theorem isPlaced_of_mem (hn : isPowerOfTwo n = true) (hle : cycleHeight ≤ n)
    (hs : supply.IsWithin s) {c : Constraint} (hc : c ∈ constraints) : c.IsPlaced n s :=
  Constraint.IsPlaced.mono
    ⟨fitsExcept_of_mem hn hle hc, isSupplied_of_mem c hc, weight_le_of_mem c hc⟩ hs

end Cpu

/-! ## Memory -/

theorem MemoryCheck.isPlaced_of_mem {column : Nat} (hn : isPowerOfTwo n = true)
    (hle : cycleHeight ≤ n) (hcolumns : 6 ≤ s.columns) (hcolumn : column < s.columns)
    (hchallenges : 2 ≤ s.challenges) (hhint : .memoryQuotient ∈ s.hints) :
    ∀ c ∈ constraints column, c.IsPlaced n s := by
  have hstep : memoryStep ≤ n := le_trans (by decide) hle
  have hpublic : publicMemoryStep ≤ n := le_trans (by decide) hle
  have hfirst := Rows.fitsExcept_first hn
  have hlast : (Rows.fromEnd memoryStep).FitsExcept n [] :=
    Rows.fitsExcept_fromEnd (by decide) hstep
  have hevery := Rows.fitsExcept_every_fromEnd hn (by decide) hstep
  have hpublicRows : (Rows.every publicMemoryStep 0).FitsExcept n [] :=
    Rows.fitsExcept_every (by decide) hpublic
  have hpool : Column.memoryPool < s.columns := lt_of_lt_of_le (by decide) hcolumns
  have hsorted : Column.memorySorted < s.columns := lt_of_lt_of_le (by decide) hcolumns
  have hz : Challenge.memoryZ.index < s.challenges := lt_of_lt_of_le (by decide) hchallenges
  have halpha : Challenge.memoryAlpha.index < s.challenges := lt_of_lt_of_le (by decide) hchallenges
  have hquotient := Term.isSupplied_hint hhint
  simp [constraints, hfirst, hlast, hevery, hpublicRows, hz, halpha, hquotient, sortedAddress,
    sortedValue, address, value, products, publicAddress, publicValue, VirtualColumn.valueColumn,
    VirtualColumn.shifted, hpool, hsorted, hcolumn]

/-! ## Range checks -/

theorem RangeCheck16.isPlaced_of_mem {column : Nat} (hn : isPowerOfTwo n = true)
    (hcolumns : 6 ≤ s.columns) (hcolumn : column < s.columns) (hchallenges : 3 ≤ s.challenges)
    (hmin : .rangeCheckMin ∈ s.hints) (hmax : .rangeCheckMax ∈ s.hints) :
    ∀ c ∈ constraints column, c.IsPlaced n s := by
  have hpos := pos_of_isPowerOfTwo hn
  have hfirst := Rows.fitsExcept_first hn
  have hlast : Rows.last.FitsExcept n [] := Rows.fitsExcept_fromEnd le_rfl hpos
  have hall : Rows.all.FitsExcept n [.last] :=
    Rows.fitsExcept_every_fromEnd hn (by decide) hpos
  have hpool : Column.rangeCheckPool < s.columns := lt_of_lt_of_le (by decide) hcolumns
  have hsorted : Column.rangeCheckSorted < s.columns := lt_of_lt_of_le (by decide) hcolumns
  have hz : Challenge.rangeCheckZ.index < s.challenges := lt_of_lt_of_le (by decide) hchallenges
  have hmin := Term.isSupplied_hint hmin
  have hmax := Term.isSupplied_hint hmax
  simp [constraints, hfirst, hlast, hall, hz, hmin, hmax, sorted, pool, hpool, hsorted, hcolumn]

/-! ## Diluted numbers -/

namespace DilutedCheck

/-- The condition on the columns of the check. -/
structure IsWithin (s : Supply) (c : DilutedCheck) : Prop where
  pool_lt : c.pool < s.columns
  sorted_lt : c.sorted < s.columns
  products_lt : c.products < s.columns
  aggregate_lt : c.aggregate < s.columns
  challenges_le : dilutedChallenges ≤ s.challenges
  hint : .dilutedAggregate ∈ s.hints

theorem isPlaced_of_mem {check : DilutedCheck} (hn : isPowerOfTwo n = true)
    (h : check.IsWithin s) : ∀ c ∈ check.constraints, c.IsPlaced n s := by
  have hpos := pos_of_isPowerOfTwo hn
  have hfirst := Rows.fitsExcept_first hn
  have hlast : Rows.last.FitsExcept n [] := Rows.fitsExcept_fromEnd le_rfl hpos
  have hall : Rows.all.FitsExcept n [.last] :=
    Rows.fitsExcept_every_fromEnd hn (by decide) hpos
  have hz : Challenge.dilutedZ.index < s.challenges := lt_of_lt_of_le (by decide) h.challenges_le
  have haggregateZ : Challenge.aggregateZ.index < s.challenges :=
    lt_of_lt_of_le (by decide) h.challenges_le
  have halpha : Challenge.aggregateAlpha.index < s.challenges :=
    lt_of_lt_of_le (by decide) h.challenges_le
  have hhint := Term.isSupplied_hint h.hint
  simp [constraints, hfirst, hlast, hall, hz, haggregateZ, halpha, hhint, h.pool_lt, h.sorted_lt,
    h.products_lt, h.aggregate_lt]

end DilutedCheck

end CairoTrace
