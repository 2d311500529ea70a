import CairoTrace.Component.DilutedCheck
import CairoTrace.Proofs.Dilution
import CairoTrace.Proofs.Pool.Numbers
import Mathlib.Data.List.GetD

/-!
# Completeness of the aggregate of diluted numbers

The sorted copy of a pool of diluted numbers climbs from zero through all numbers of its digits, so
the differences of its dilutions are those of successive numbers and zeros for the values that are
repeated. Its aggregate is then the closed form (`DilutedCheck.aggregate_of_finish`), however often
a value is repeated.
-/

namespace CairoTrace

open Pool

namespace DilutedCheck

open Aggregate

/-! ## Aggregates of lists -/

theorem length_aggregateFrom (z alpha acc a : Felt) (xs : List Felt) :
    (aggregateFrom z alpha acc (a :: xs)).length = xs.length := by
  induction xs generalizing acc a with
  | nil => rfl
  | cons b xs ih => exact congrArg (· + 1) (ih _ b)

theorem getD_aggregateFrom_succ (z alpha acc : Felt) {xs : List Felt} {i : Nat}
    (hi : i + 1 < xs.length) :
    (acc :: aggregateFrom z alpha acc xs).getD (i + 1) 0 =
      (acc :: aggregateFrom z alpha acc xs).getD i 0 *
          (1 + z * (xs.getD (i + 1) 0 - xs.getD i 0)) +
        alpha * (xs.getD (i + 1) 0 - xs.getD i 0) ^ 2 := by
  induction xs generalizing acc i with
  | nil => cases hi
  | cons a xs ih =>
    cases xs with
    | nil => cases Nat.lt_of_succ_lt_succ hi
    | cons b xs =>
      cases i with
      | zero =>
        rw [pow_two]
        rfl
      | succ i => exact ih _ (Nat.lt_of_succ_lt_succ hi)

/-- The last value of the aggregate of a list. -/
theorem getLast?_aggregateFrom (z alpha : Felt) {xs : List Felt} (hpos : 0 < xs.length) :
    (1 :: aggregateFrom z alpha 1 xs).getLast? =
      some ((factor (differences (xs.getD · 0) (xs.length - 1))).eval z +
        alpha * (offset (differences (xs.getD · 0) (xs.length - 1))).eval z) := by
  have hlength : (1 :: aggregateFrom z alpha 1 xs).length = xs.length := by
    obtain ⟨a, xs, rfl⟩ := List.exists_cons_of_length_pos hpos
    exact congrArg (· + 1) (length_aggregateFrom z alpha 1 a xs)
  have hlast : xs.length - 1 < xs.length := Nat.sub_lt hpos one_pos
  let column (i : Nat) : Felt := xs.getD i 0
  let aggregate (i : Nat) : Felt := (1 :: aggregateFrom z alpha 1 xs).getD i 0
  have hinit : aggregate 0 = 1 := rfl
  have hstep (i : Nat) (hi : i + 1 < xs.length) : aggregate (i + 1) =
      aggregate i * (1 + z * (column (i + 1) - column i)) +
        alpha * (column (i + 1) - column i) ^ 2 :=
    getD_aggregateFrom_succ z alpha 1 hi
  have hvalue := Aggregate.eq_factor_add_offset hinit hstep hlast
  have hcell : (1 :: aggregateFrom z alpha 1 xs)[xs.length - 1]? =
      some (aggregate (xs.length - 1)) := by
    rw [← hlength] at hlast ⊢
    rw [List.getElem?_eq_getElem hlast]
    exact congrArg some (List.getD_eq_getElem _ 0 hlast).symm
  rw [List.getLast?_eq_getElem?, hlength, hcell, hvalue]

/-- The differences of the dilutions in a list that covers the numbers of some digits. -/
theorem nonzero_differences_of_covers {c : DilutedCheck} (hspacing : 1 ≤ c.dilution.spacing)
    (hplaces : c.dilution.bits * c.dilution.spacing ≤ 256) {l : List Nat}
    (hl : Covers l 0 (2 ^ c.dilution.bits - 1)) :
    nonzero (differences ((l.map c.diluted).getD · 0) (l.length - 1)) =
      nonzero (Dilution.strides (2 ^ c.dilution.spacing) c.dilution.bits) := by
  have hpos := hl.length_pos (Nat.zero_le _)
  have hlast : l.length - 1 < l.length := Nat.sub_lt hpos one_pos
  have hget {i : Nat} (hi : i < l.length) : l.getD i 0 = l[i] := List.getD_eq_getElem l 0 hi
  have hcell {i : Nat} (hi : i < l.length) :
      (l.map c.diluted).getD i 0 = c.diluted (l.getD i 0) := by
    rw [hget hi, List.getD_eq_getElem _ 0 (by rwa [List.length_map]), List.getElem_map]
  have hdifferences : differences ((l.map c.diluted).getD · 0) (l.length - 1) =
      differences (fun i => c.diluted (l.getD i 0)) (l.length - 1) :=
    differences_congr fun i hi => by rw [hcell (by omega), hcell (by omega)]
  let index (i : Nat) : Nat := l.getD i 0
  have hzero : index 0 = 0 := (hget hpos).trans (hl.getElem_zero (Nat.zero_le _) hpos)
  have hend : index (l.length - 1) = 2 ^ c.dilution.bits - 1 :=
    (hget hlast).trans (hl.getElem_last (Nat.zero_le _) hlast)
  have hclimbs (i : Nat) (hi : i < l.length - 1) :
      index (i + 1) = index i ∨ index (i + 1) = index i + 1 := by
    have hi' : i + 1 < l.length := by omega
    simp only [index, hget hi', hget (Nat.lt_of_succ_lt hi')]
    exact hl.getElem_succ hi'
  rw [hdifferences, nonzero_differences_comp c.diluted hzero hclimbs, hend,
    ← Dilution.differences_dilute hspacing hplaces]
  rfl

end DilutedCheck

/-! ## Pools -/

namespace DilutedPool

variable {rows bits : Nat} {pushes : List (Nat × Nat)} {pool sorted : List Nat}

theorem covers_of_finish_pushAll (hpushes : ∀ q ∈ pushes, q.2 < 2 ^ bits)
    (h : ((ofSize rows bits).pushAll pushes).finish.2 = .ok (pool, sorted)) :
    Covers sorted 0 (2 ^ bits - 1) := by
  have hbits : ((ofSize rows bits).pushAll pushes).bits = bits := by
    rw [pushAll_eq]
    rfl
  rw [← hbits]
  refine covers_of_finish (fun v hv => ?_) h
  rw [toList_cells_pushAll] at hv
  simp only [List.mem_filterMap, List.mem_map, id, exists_exists_and_eq_and] at hv
  obtain ⟨row, -, hrow⟩ := hv
  rw [hbits]
  exact hpushes _ (mem_of_lastPushed hrow)

end DilutedPool

namespace DilutedCheck

/-- The sorted copy of a finished pool has all numbers of its digits, and the aggregate of their
dilutions is the closed form. -/
theorem aggregate_of_finish {c : DilutedCheck} (hspacing : 1 ≤ c.dilution.spacing)
    (hbits : 1 ≤ c.dilution.bits) (hplaces : c.dilution.spacing * c.dilution.bits ≤ 256)
    {rows : Nat} {pushes : List (Nat × Nat)} (hpushes : ∀ q ∈ pushes, q.2 < 2 ^ c.dilution.bits)
    {pool sorted : List Nat}
    (hfinish : ((DilutedPool.ofSize rows c.dilution.bits).pushAll pushes).finish.2 =
      .ok (pool, sorted)) :
    sorted.head? = some 0 ∧ (∀ v < 2 ^ c.dilution.bits, v ∈ sorted) ∧
      ∀ z alpha, (1 :: aggregateFrom z alpha 1 (sorted.map c.diluted)).getLast? =
        some (Permutation.dilutedAggregate z alpha c.dilution.spacing c.dilution.bits) := by
  have hcovers := DilutedPool.covers_of_finish_pushAll hpushes hfinish
  have hpos := hcovers.length_pos (Nat.zero_le _)
  have hlast : sorted.length - 1 < sorted.length := Nat.sub_lt hpos one_pos
  have hnumbers : 0 < 2 ^ c.dilution.bits := Nat.two_pow_pos _
  rw [mul_comm] at hplaces
  refine ⟨?first, fun v hv => ?all, fun z alpha => ?aggregate⟩
  case first =>
    rw [List.head?_eq_getElem?, List.getElem?_eq_getElem hpos,
      hcovers.getElem_zero (Nat.zero_le _)]
  case all => exact (hcovers.mem_iff v).mpr ⟨Nat.zero_le v, by omega⟩
  case aggregate =>
    have hmap : (sorted.map c.diluted).length = sorted.length := List.length_map _
    have hstrides := nonzero_differences_of_covers hspacing hplaces hcovers
    rw [getLast?_aggregateFrom z alpha (hmap.symm ▸ hpos), hmap, ← Aggregate.factor_nonzero,
      ← Aggregate.offset_nonzero, hstrides, Aggregate.factor_nonzero, Aggregate.offset_nonzero,
      Dilution.dilutedAggregate_eq hbits]

/-- Two of six rows hold the number two; the others take what is missing and then zero. -/
theorem aggregate_of_finish_sample :
    ((DilutedPool.ofSize 6 2).pushAll [(1, 2), (3, 2)]).finish.2 =
        .ok ([0, 2, 1, 2, 3, 0], [0, 0, 1, 2, 2, 3]) ∧
      (1 :: aggregateFrom 3 5 1 ([0, 0, 1, 2, 2, 3].map
        (DilutedCheck.mk ⟨2, 2, 251⟩ 6 7 10 11).diluted)).getLast? =
          some (Permutation.dilutedAggregate 3 5 2 2) := by
  have hfinish : ((DilutedPool.ofSize 6 2).pushAll [(1, 2), (3, 2)]).finish.2 =
      .ok ([0, 2, 1, 2, 3, 0], [0, 0, 1, 2, 2, 3]) :=
    DilutedPool.finish_eq_ok_iff.mpr ⟨by decide, by decide,
      by simp [List.mergeSort, List.MergeSort.Internal.splitInTwo]⟩
  let c : DilutedCheck := ⟨⟨2, 2, 251⟩, 6, 7, 10, 11⟩
  obtain ⟨-, -, haggregate⟩ := aggregate_of_finish (c := c) (by decide) (by decide) (by decide)
    (by decide) hfinish
  exact ⟨hfinish, haggregate 3 5⟩

end DilutedCheck

end CairoTrace
