import CairoTrace.Proofs.Component.Core
import CairoTrace.Proofs.Component.PoolRows
import CairoTrace.Proofs.Dilution
import CairoTrace.Proofs.Layout.Config

/-!
# Soundness of the check of diluted numbers

A trace whose check of diluted numbers is accepted for enough challenges has exactly the dilutions
of all numbers in its pool (`pool_eq_of_accepts`). The columns of products show that the pool has
the cells of its sorted copy. The aggregates of that copy end at those of the dilutions for all
challenges, so its differences that are not zero are those of the dilutions in their order, and it
passes the same numbers.
-/

namespace CairoTrace

namespace DilutedCheck

open Permutation (IsProductColumn exists_eq_iff_of_productColumns dilutedAggregate)
open Aggregate (factor offset differences partialSums)

/-- Whether a trace has no violation of the check of diluted numbers once a column of products and
one of aggregates are added, for a challenge `z` of the permutation, challenges `aggregateZ` and
`alpha` of the aggregate, and its last value. -/
def Accepts (n : Nat) (columns : List (Array Felt)) (c : DilutedCheck)
    (z aggregateZ alpha total : Felt) : Prop :=
  ∃ (products aggregate : Array Felt) (challenges : List Felt) (hints : List (Option Felt)),
    challenges[Challenge.dilutedZ.index]? = some z ∧
    challenges[Challenge.aggregateZ.index]? = some aggregateZ ∧
    challenges[Challenge.aggregateAlpha.index]? = some alpha ∧
    hints[Hint.dilutedAggregate.index]? = some (some total) ∧
    checkConstraints n ((columns.set c.products products).set c.aggregate aggregate) c.constraints
      [] challenges hints = .ok []

/-- Whether the columns that are added are others than those of the pool and of its sorted copy. -/
structure IsSeparate (c : DilutedCheck) : Prop where
  products_ne_pool : c.products ≠ c.pool
  products_ne_sorted : c.products ≠ c.sorted
  aggregate_ne_pool : c.aggregate ≠ c.pool
  aggregate_ne_sorted : c.aggregate ≠ c.sorted

variable {n : Nat} {columns : List (Array Felt)} {c : DilutedCheck}
  {z aggregateZ alpha total : Felt}

/-- The columns that are added do not change the others. -/
theorem IsSeparate.traceCell_set (hc : c.IsSeparate) (columns : List (Array Felt))
    (products aggregate : Array Felt) :
    traceCell ((columns.set c.products products).set c.aggregate aggregate) c.pool =
        traceCell columns c.pool ∧
      traceCell ((columns.set c.products products).set c.aggregate aggregate) c.sorted =
        traceCell columns c.sorted := by
  constructor
  · funext i
    rw [traceCell_set_of_ne hc.aggregate_ne_pool, traceCell_set_of_ne hc.products_ne_pool]
  · funext i
    rw [traceCell_set_of_ne hc.aggregate_ne_sorted, traceCell_set_of_ne hc.products_ne_sorted]

/-- What an accepted trace satisfies; nothing is known of the columns that are added but that they
exist. -/
theorem Accepts.exists_checks (h : Accepts n columns c z aggregateZ alpha total)
    (hc : c.IsSeparate) :
    isPowerOfTwo n = true ∧ ∃ products aggregate,
      Checks n (traceCell columns c.pool) (traceCell columns c.sorted) products aggregate z
        aggregateZ alpha total := by
  obtain ⟨products, aggregate, challenges, hints, hz, haggregateZ, halpha, htotal, hcheck⟩ := h
  obtain ⟨hn, -, hholds⟩ := holds_of_checkConstraints_eq_nil hcheck
  obtain ⟨hpool, hsorted⟩ := hc.traceCell_set columns products aggregate
  have hchecks := (holds_iff hn).mp hholds
  rw [Challenge.value_eq hz, Challenge.value_eq haggregateZ, Challenge.value_eq halpha,
    Hint.value_eq htotal, hpool, hsorted] at hchecks
  exact ⟨hn, _, _, hchecks⟩

theorem Checks.total_eq {pool sorted products aggregate : Nat → Felt}
    (h : Checks n pool sorted products aggregate z aggregateZ alpha total) (hn : 0 < n) :
    total = (factor (differences sorted (n - 1))).eval aggregateZ +
      alpha * (offset (differences sorted (n - 1))).eval aggregateZ := by
  have hlast : n - 1 < n := by omega
  rw [← h.last, Aggregate.eq_factor_add_offset h.init h.step hlast]

/-- A usable dilution has digits, and its diluted numbers fit in a word. -/
theorem bounds_of_isUsable {d : Dilution} (h : LayoutConfig.isUsable d = true) :
    0 < d.spacing ∧ 0 < d.bits ∧ d.bits ≤ 32 ∧ d.bits * d.spacing ≤ 256 := by
  obtain ⟨hspacing, hbits, hle, hplaces, -⟩ := LayoutConfig.isUsable_iff.mp h
  refine ⟨hspacing, hbits, hle, ?_⟩
  rwa [mul_comm]

/-- The pool of a trace whose check of diluted numbers is accepted for enough challenges has the
dilutions of all numbers, and nothing else. -/
theorem pool_eq_of_accepts {config : LayoutConfig} (hvalid : config.validate = .ok ())
    (hdilution : config.dilution = some c.dilution) (hc : c.IsSeparate) (hn : 0 < n)
    {zs : Finset Felt} (hzs : n ≤ zs.card)
    (h : ∀ z ∈ zs, ∀ aggregateZ alpha, Accepts n columns c z aggregateZ alpha
      (dilutedAggregate aggregateZ alpha c.dilution.spacing c.dilution.bits)) :
    {x | ∃ i < n, traceCell columns c.pool i = x} =
      {x | ∃ v < 2 ^ c.dilution.bits, c.diluted v = x} := by
  obtain ⟨hspacing, hbits, hle, hplaces⟩ := bounds_of_isUsable
    ((LayoutConfig.validate_eq_ok_iff.mp hvalid).dilution _ hdilution)
  obtain ⟨z, hz⟩ : zs.Nonempty := Finset.card_pos.mp (by omega)
  obtain ⟨htwo, _, _, hchecks⟩ := (h z hz 0 0).exists_checks hc
  have hrows : n ≤ 2 ^ 251 := le_two_pow_of_le_card htwo hzs
  have hnumbers : 2 ^ c.dilution.bits ≤ 2 ^ 32 := Nat.pow_le_pow_right (by decide) hle
  have hprime : 2 ^ 251 < starkPrime ∧ 2 ^ 32 < starkPrime := by decide
  have hproducts (z : Felt) (hz : z ∈ zs) : ∃ cells, IsProductColumn n
      (z - traceCell columns c.pool ·) (z - traceCell columns c.sorted ·) cells 1 := by
    obtain ⟨-, cells, aggregate, hchecks⟩ := (h z hz 0 0).exists_checks hc
    exact ⟨cells, hchecks.products⟩
  ext x
  have hsorted : (∃ i < n, traceCell columns c.sorted i = x) ↔
      x ∈ partialSums (differences (traceCell columns c.sorted) (n - 1)) := by
    rw [Aggregate.mem_partialSums_differences hchecks.first]
    refine exists_congr fun i => and_congr_left fun _ => ?_
    omega
  change (∃ i < n, traceCell columns c.pool i = x) ↔ ∃ v < 2 ^ c.dilution.bits, c.diluted v = x
  rw [exists_eq_iff_of_productColumns hn hzs hproducts, hsorted]
  refine Iff.trans ?_ (Dilution.mem_partialSums_strides_iff hspacing hplaces)
  apply Aggregate.mem_partialSums_iff_of_eval_eq
  · rw [differences, List.length_map, List.length_range]
    omega
  · have hlength := Dilution.length_strides (m := 2 ^ c.dilution.spacing) c.dilution.bits
    omega
  · intro aggregateZ alpha
    obtain ⟨-, _, _, hchecks⟩ := (h z hz aggregateZ alpha).exists_checks hc
    rw [← hchecks.total_eq hn, Dilution.dilutedAggregate_eq hbits]

/-- Conversely, a trace with columns that satisfy the check is accepted. -/
theorem accepts_of_checks (hn : isPowerOfTwo n = true) (hc : c.IsSeparate)
    (hwithin : c.IsWithin ⟨columns.length, 0, dilutedChallenges, [.dilutedAggregate]⟩)
    (hsize : ∀ column ∈ columns, column.size = n) {products aggregate : Array Felt}
    (hproducts : products.size = n) (haggregate : aggregate.size = n)
    (h : Checks n (traceCell columns c.pool) (traceCell columns c.sorted)
      (traceCell ((columns.set c.products products).set c.aggregate aggregate) c.products)
      (traceCell ((columns.set c.products products).set c.aggregate aggregate) c.aggregate)
      z aggregateZ alpha total) :
    Accepts n columns c z aggregateZ alpha total := by
  have hvalues : Supply.HasValues ⟨columns.length, 0, dilutedChallenges, [.dilutedAggregate]⟩
      ⟨[0, 0, 0, z, aggregateZ, alpha], .replicate 7 none ++ [some total], 0⟩ := by
    refine ⟨rfl, rfl, fun hint hmem => ⟨total, ?_⟩⟩
    rw [List.mem_singleton.mp hmem]
    rfl
  refine ⟨products, aggregate, [0, 0, 0, z, aggregateZ, alpha], .replicate 7 none ++ [some total],
    rfl, rfl, rfl, rfl, ?_⟩
  rw [checkConstraints_eq_nil_iff hn, holds_iff hn]
  · obtain ⟨hpool, hsorted⟩ := hc.traceCell_set columns products aggregate
    rw [hpool, hsorted]
    exact h
  · intro column hcolumn
    rcases List.mem_or_eq_of_mem_set hcolumn with hmem | rfl
    · rcases List.mem_or_eq_of_mem_set hmem with hmem | rfl
      · exact hsize column hmem
      · exact hproducts
    · exact haggregate
  · intro k hk
    rw [List.length_set, List.length_set]
    exact (isPlaced_of_mem hn hwithin k hk).checkable hvalues

/-- A configuration with dilutions of numbers of two digits, two places apart. -/
def sampleConfig : LayoutConfig where
  name := "pairs"
  bitwise := some { ratio := 4 }
  dilutedPool := some { spacing := 2, bits := 2 }

def sampleCheck : DilutedCheck :=
  { dilution := ⟨2, 2, 251⟩, pool := 0, sorted := 1, products := 2, aggregate := 3 }

/-- The columns of a small trace with all four dilutions. -/
def sampleColumns : List (Array Felt) :=
  columnsOfNumbers [[1, 0, 4, 5], [0, 1, 4, 5], [0, 0, 0, 0], [0, 0, 0, 0]]

theorem sampleColumns_accepted (hz : z ≠ 0) :
    Accepts 4 sampleColumns sampleCheck z aggregateZ alpha
      (dilutedAggregate aggregateZ alpha 2 2) := by
  let products : Array Felt := #[(z - 1) / z, 1, 1, 1]
  let second : Felt := 1 * (1 + aggregateZ * 1) + alpha * 1 ^ 2
  let third : Felt := second * (1 + aggregateZ * 3) + alpha * 3 ^ 2
  let aggregate : Array Felt := #[1, second, third, third * (1 + aggregateZ * 1) + alpha * 1 ^ 2]
  apply accepts_of_checks (by decide) ⟨by decide, by decide, by decide, by decide⟩
    ⟨by decide, by decide, by decide, by decide, by decide, by decide⟩ (by decide)
    (show products.size = 4 from rfl) (show aggregate.size = 4 from rfl)
  refine ⟨⟨?init, ?step, rfl⟩, rfl, rfl, ?aggregate, ?last⟩
  case init =>
    change (z - 0) * ((z - 1) / z) = z - 1
    rw [sub_zero]
    exact mul_div_cancel₀ (z - 1) hz
  case step =>
    intro i hi
    have hlt : i < 3 := Nat.lt_of_succ_lt_succ hi
    interval_cases i
    · change (z - 1) * 1 = (z - 0) * ((z - 1) / z)
      rw [sub_zero, mul_div_cancel₀ (z - 1) hz, mul_one]
    · rfl
    · rfl
  case aggregate =>
    intro i hi
    have hlt : i < 3 := Nat.lt_of_succ_lt_succ hi
    interval_cases i <;> rfl
  case last =>
    have htwo : (.ofNat 2 : Felt) = 2 := rfl
    have hfour : (2 : Felt) ^ 2 = 4 := by norm_num
    change third * (1 + aggregateZ * 1) + alpha * 1 ^ 2 = dilutedAggregate aggregateZ alpha 2 2
    simp only [dilutedAggregate, Permutation.aggregateFrom, Permutation.aggregateStep, third,
      second, htwo, hfour]
    ring

theorem pool_eq_sample :
    {x | ∃ i < 4, traceCell sampleColumns 0 i = x} =
      {x | ∃ v < 2 ^ 2, sampleCheck.diluted v = x} := by
  have hvalid : sampleConfig.validate = .ok () := by decide
  have hdilution : sampleConfig.dilution = some sampleCheck.dilution := rfl
  apply pool_eq_of_accepts (c := sampleCheck) hvalid hdilution
    ⟨by decide, by decide, by decide, by decide⟩
    (by decide) (show 4 ≤ ({10, 11, 12, 13} : Finset Felt).card by decide)
  intro z hz aggregateZ alpha
  apply sampleColumns_accepted
  rintro rfl
  exact absurd hz (by decide)

end DilutedCheck

end CairoTrace
