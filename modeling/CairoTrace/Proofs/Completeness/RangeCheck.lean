import CairoTrace.Proofs.Completeness.Products
import CairoTrace.Proofs.Component.PoolRows
import CairoTrace.Proofs.Pool.Numbers
import CairoTrace.Proofs.Trace.Writes

/-!
# Completeness of range checks

A pool of range checked values can be finished exactly if its values keep the bounds and there is
room for those that are missing (`RangeCheckPool.exists_finish_iff`). Its sorted copy is then a
permutation that climbs from one bound to the other (`RangeCheckPool.isFinished_of_finish`), so
that, in a trace with the column of products, the constraints hold
(`RangeCheckPool.IsFinished.holds`).
-/

namespace CairoTrace

open Pool

/-- The pool and its sorted copy are written as whole columns. -/
theorem RangeCheck16.writes_eq (pool sorted : List Nat) : RangeCheck16.writes pool sorted =
    (Filling.columnCells Column.rangeCheckPool (pool.map .ofNat) ++
      Filling.columnCells Column.rangeCheckSorted (sorted.map .ofNat)).map
        fun e => .cell e.1.1 e.1.2 e.2 := by
  simp only [writes, Filling.columnCells, List.zipIdx_map, List.map_append, List.map_map,
    Write.at', VirtualColumn.row, RangeCheck16.pool, RangeCheck16.sorted, zero_add, one_mul]
  rfl

namespace RangeCheckPool

variable {n least greatest : Nat} {pushes : List (Nat × Nat)} {pool sorted : List Nat}

/-! ## Pools that can be finished -/

theorem mem_values_pushAll {v : Nat} :
    v ∈ ((ofSize n).pushAll pushes).values ↔ ∃ row < n, lastPushed pushes row = some v := by
  simp only [values, toList_pushAll, List.mem_filterMap, List.mem_map, List.mem_range, id,
    exists_exists_and_eq_and]

/-- The gaps of a pool are the values of the range that no row keeps. -/
theorem gapCount_pushAll :
    gapCount least (greatest + 1 - least) ((ofSize n).pushAll pushes).toList =
      ((Finset.Icc least greatest).filter fun v =>
        ∀ row < n, lastPushed pushes row ≠ some v).card := by
  have hgap (v : Nat) :
      (!(((ofSize n).pushAll pushes).toList.filterMap id).contains v) =
        decide (∀ row < n, lastPushed pushes row ≠ some v) := by
    have hused : v ∈ ((ofSize n).pushAll pushes).toList.filterMap id ↔ _ := mem_values_pushAll
    rw [Bool.eq_iff_iff, Bool.not_eq_true', ← Bool.not_eq_true, List.contains_iff_mem, hused,
      decide_eq_true_eq]
    simp only [not_exists, not_and, ne_eq]
  rw [gapCount, gaps, List.filter_congr fun v _ => hgap v, Nat.Icc_eq_range']
  rfl

/-- The free cells of a pool are the rows that were never pushed to. -/
theorem countP_pushAll :
    ((ofSize n).pushAll pushes).toList.countP (·.isNone) =
      ((Finset.range n).filter fun row => lastPushed pushes row = none).card := by
  have hfree (row : Nat) : ((fun cell : Option Nat => cell.isNone) ∘ lastPushed pushes) row =
      decide (lastPushed pushes row = none) := by
    rw [Function.comp_apply, Bool.eq_iff_iff, Option.isNone_iff_eq_none, decide_eq_true_eq]
  rw [toList_pushAll, List.countP_map, List.countP_eq_length_filter,
    List.filter_congr fun row _ => hfree row]
  rfl

theorem exists_finish_iff :
    (∃ pool sorted, (((ofSize n).pushAll pushes).finish least greatest).2 = .ok (pool, sorted)) ↔
      (∀ row < n, ∀ v, lastPushed pushes row = some v → least ≤ v ∧ v ≤ greatest) ∧
      ((Finset.Icc least greatest).filter fun v =>
          ∀ row < n, lastPushed pushes row ≠ some v).card ≤
        ((Finset.range n).filter fun row => lastPushed pushes row = none).card := by
  rw [exists_finish_eq_ok_iff, gapCount_pushAll, countP_pushAll]
  refine and_congr_left fun _ => ?_
  simp only [mem_values_pushAll, forall_exists_index, and_imp]
  exact ⟨fun h row hrow v hv => h v row hrow hv, fun h v row hrow hv => h row hrow v hv⟩

/-! ## Pools that are finished -/

/-- A pool that keeps what was pushed, with a sorted copy that climbs from one bound to the
other. -/
structure IsFinished (n : Nat) (pushes : List (Nat × Nat)) (least greatest : Nat)
    (pool sorted : List Nat) : Prop where
  length_eq : pool.length = n
  keeps : ∀ row < n, ∀ v, lastPushed pushes row = some v → pool[row]? = some v
  perm : sorted.Perm pool
  ascending : sorted.Pairwise (· ≤ ·)
  first : sorted.head? = some least
  last : sorted.getLast? = some greatest
  climbs : sorted.IsChain fun a b => b = a ∨ b = a + 1

theorem isFinished_of_finish (hle : least ≤ greatest)
    (h : (((ofSize n).pushAll pushes).finish least greatest).2 = .ok (pool, sorted)) :
    IsFinished n pushes least greatest pool sorted := by
  have hcovers := covers_of_finish hle h
  have hpos := hcovers.length_pos hle
  have hlast : sorted.length - 1 < sorted.length := Nat.sub_lt hpos one_pos
  obtain ⟨-, -, hpool, hsorted⟩ := finish_eq_ok_iff.mp h
  refine ⟨?length, fun row hrow v hv => ?keeps, ?perm, hcovers.sorted, ?first, ?last, ?climbs⟩
  case length =>
    rw [← hpool, length_filled, toList_pushAll, List.length_map, List.length_range]
  case keeps =>
    rw [← hpool]
    apply getElem?_filled
    rw [toList_pushAll, List.getElem?_map, List.getElem?_range hrow, Option.map_some, hv]
  case perm =>
    rw [← hsorted]
    exact List.mergeSort_perm _ _
  case first =>
    rw [List.head?_eq_getElem?, List.getElem?_eq_getElem hpos, hcovers.getElem_zero hle]
  case last =>
    rw [List.getLast?_eq_getElem?, List.getElem?_eq_getElem hlast, hcovers.getElem_last hle]
  case climbs =>
    rw [List.isChain_iff_getElem]
    exact fun i hi => hcovers.getElem_succ hi

namespace IsFinished

variable (h : IsFinished n pushes least greatest pool sorted)
include h

theorem sorted_length : sorted.length = n := h.perm.length_eq.trans h.length_eq

/-- The columns of the pool, of its sorted copy and of the products are as the constraints say. -/
theorem checks (hn : 0 < n) {z : Felt} (hz : ∀ v ∈ pool, z ≠ .ofNat v) :
    RangeCheck16.Checks n ((pool.map .ofNat).getD · 0) ((sorted.map .ofNat).getD · 0)
      ((Permutation.cumulativeProduct (List.zipWith (fun a b => (z - a, z - b))
        (pool.map .ofNat) (sorted.map .ofNat))).getD · 0) z (.ofNat least) (.ofNat greatest) := by
  have hlength : (pool.map Residue.ofNat : List Felt).length = n := by
    rw [List.length_map, h.length_eq]
  have hcell {i : Nat} {v : Nat} (hv : sorted[i]? = some v) :
      (sorted.map Residue.ofNat).getD i 0 = (v : Felt) := by
    rw [List.getD_eq_getElem?_getD, List.getElem?_map, hv]
    rfl
  refine ⟨?products, fun i hi => ?climbs, ?minimum, ?maximum⟩
  case products =>
    rw [← hlength]
    refine Permutation.isProductColumn_of_perm (h.perm.map _) (hlength.symm ▸ hn) fun hmem => ?_
    obtain ⟨v, hv, rfl⟩ := List.mem_map.mp hmem
    exact hz v hv rfl
  case climbs =>
    rw [← h.sorted_length] at hi
    rw [hcell (List.getElem?_eq_getElem hi),
      hcell (List.getElem?_eq_getElem (Nat.lt_of_succ_lt hi))]
    exact Permutation.ofNat_sub_ofNat_eq (List.isChain_iff_getElem.mp h.climbs i hi)
  case minimum => exact hcell (List.head?_eq_getElem?.symm.trans h.first)
  case maximum =>
    have hlast := h.last
    rw [List.getLast?_eq_getElem?, h.sorted_length] at hlast
    exact hcell hlast

/-- The pool and its sorted copy, once they are written. -/
theorem exists_writeAll_eq_ok {width : Nat} {f : Filling} (hf : f.IsShaped n width)
    (hwidth : Column.rangeCheckSorted < width) (memory : Memory) :
    ∃ f', Filling.writeAll memory f (RangeCheck16.writes pool sorted) = .ok f' ∧
      f'.columns[Column.rangeCheckPool]? = some (pool.map .ofNat).toArray ∧
      f'.columns[Column.rangeCheckSorted]? = some (sorted.map .ofNat).toArray := by
  refine ⟨_, RangeCheck16.writes_eq pool sorted ▸ Filling.writeAll_cells memory f _, ?_⟩
  have hpool : (pool.map Residue.ofNat : List Felt).length = n := by
    rw [List.length_map, h.length_eq]
  have hsorted : (sorted.map Residue.ofNat : List Felt).length = n := by
    rw [List.length_map, h.sorted_length]
  exact hf.setCells_columns (by decide) (Nat.zero_lt_of_lt hwidth) hwidth hpool hsorted

/-- The constraints hold on a trace with the pool, its sorted copy and the products. -/
theorem holds (hn : 0 < n) {f : Filling}
    (hpool : f.columns[Column.rangeCheckPool]? = some (pool.map .ofNat).toArray)
    (hsorted : f.columns[Column.rangeCheckSorted]? = some (sorted.map .ofNat).toArray)
    {b : Bindings} (hz : ∀ v ∈ pool, Challenge.rangeCheckZ.value b.challenges ≠ .ofNat v)
    (hleast : Hint.rangeCheckMin.value b.hints = .ofNat least)
    (hgreatest : Hint.rangeCheckMax.value b.hints = .ofNat greatest) {products : Nat}
    {columns : List (Array Felt)}
    (hcolumns : f.IsCompletedBy b.challenges (.rangeCheck16 products) columns)
    {periodic : List PeriodicColumn} :
    ∀ c ∈ RangeCheck16.constraints products, c.Holds n columns periodic b := by
  have hproducts := hcolumns.interaction _ (List.mem_singleton_self _)
  simp only [Component.interaction.column, hpool, hsorted, Option.getD_some] at hproducts
  rw [RangeCheck16.holds_iff_of_pos hn, hleast, hgreatest,
    traceCell_of_getElem? (hcolumns.getElem?_eq hpool),
    traceCell_of_getElem? (hcolumns.getElem?_eq hsorted), traceCell_of_getElem? hproducts]
  exact h.checks hn hz

end IsFinished

/-- A pool can be finished exactly if the rows keep values between the bounds and there are as many
rows without a value as values without a row. Once it is written, the constraints hold for every
challenge that is not one of its values. -/
theorem finish_complete {n : Nat} (hn : 0 < n) (pushes : List (Nat × Nat)) {least greatest : Nat}
    (hle : least ≤ greatest) :
    ((∃ pool sorted, (((ofSize n).pushAll pushes).finish least greatest).2 = .ok (pool, sorted)) ↔
      (∀ row < n, ∀ v, lastPushed pushes row = some v → least ≤ v ∧ v ≤ greatest) ∧
      ((Finset.Icc least greatest).filter fun v =>
          ∀ row < n, lastPushed pushes row ≠ some v).card ≤
        ((Finset.range n).filter fun row => lastPushed pushes row = none).card) ∧
    ∀ pool sorted, (((ofSize n).pushAll pushes).finish least greatest).2 = .ok (pool, sorted) →
      IsFinished n pushes least greatest pool sorted ∧
      ∀ (memory : Memory) (f : Filling) (width : Nat), f.IsShaped n width →
        Column.rangeCheckSorted < width →
        ∃ f', Filling.writeAll memory f (RangeCheck16.writes pool sorted) = .ok f' ∧
          ∀ (b : Bindings) (products : Nat) (columns : List (Array Felt))
            (periodic : List PeriodicColumn),
            (∀ v ∈ pool, Challenge.rangeCheckZ.value b.challenges ≠ .ofNat v) →
            Hint.rangeCheckMin.value b.hints = .ofNat least →
            Hint.rangeCheckMax.value b.hints = .ofNat greatest →
            f'.IsCompletedBy b.challenges (.rangeCheck16 products) columns →
            ∀ c ∈ RangeCheck16.constraints products, c.Holds n columns periodic b := by
  refine ⟨exists_finish_iff, fun pool sorted hfinish => ?_⟩
  have h := isFinished_of_finish hle hfinish
  refine ⟨h, fun memory f width hf hwidth => ?_⟩
  obtain ⟨f', hwrite, hpool, hsorted⟩ := h.exists_writeAll_eq_ok hf hwidth memory
  exact ⟨f', hwrite, fun b products columns periodic hz hleast hgreatest hcolumns =>
    h.holds hn hpool hsorted hz hleast hgreatest hcolumns⟩

/-- The value 5 is pushed over, and is missing until one of the free rows takes it. -/
theorem finish_complete_sample : ∃ (f : Filling) (columns : List (Array Felt)),
    (((ofSize 4).pushAll [(0, 5), (2, 3), (0, 4)]).finish 3 5).2 =
        .ok ([4, 5, 3, 5], [3, 4, 5, 5]) ∧
      IsFinished 4 [(0, 5), (2, 3), (0, 4)] 3 5 [4, 5, 3, 5] [3, 4, 5, 5] ∧
      f.columns.toList <+: columns ∧ ∀ c ∈ RangeCheck16.constraints f.columns.size,
        c.Holds 4 columns [] ⟨[0, 0, 9], [none, none, none, none, none, some 3, some 5], 0⟩ := by
  have hfinish : (((ofSize 4).pushAll [(0, 5), (2, 3), (0, 4)]).finish 3 5).2 =
      .ok ([4, 5, 3, 5], [3, 4, 5, 5]) :=
    finish_eq_ok_iff.mpr ⟨by decide, by decide, by decide,
      by simp [List.mergeSort, List.MergeSort.Internal.splitInTwo]⟩
  obtain ⟨-, hall⟩ :=
    finish_complete (show 0 < 4 by decide) [(0, 5), (2, 3), (0, 4)] (show 3 ≤ 5 by decide)
  obtain ⟨hfinished, hwrites⟩ := hall _ _ hfinish
  let start : Filling := ⟨.replicate 3 (.replicate 4 0), .ofSize 0 0 0, .ofSize 0, .ofSize 0 0⟩
  have hstart : start.IsShaped 4 3 := ⟨rfl, by decide⟩
  obtain ⟨f, -, hholds⟩ := hwrites .empty start 3 hstart (by decide)
  let products := Component.interaction f.columns [0, 0, 9] (.rangeCheck16 f.columns.size)
  have hcompleted : f.IsCompletedBy [0, 0, 9] (.rangeCheck16 f.columns.size)
      (f.columns.toList ++ products.map (·.2.toArray)) := by
    refine ⟨List.prefix_append _ _, fun e he => ?_⟩
    obtain rfl := List.mem_singleton.mp he
    exact List.getElem?_concat_length
  exact ⟨f, _, hfinish, hfinished, hcompleted.main, hholds _ _ _ _ (by decide) rfl rfl hcompleted⟩

end RangeCheckPool

end CairoTrace
