import CairoTrace.Proofs.Component.PoolRows

/-!
# Soundness of the range check

A trace whose range check is accepted for as many challenges as it has rows has only numbers
between the two bounds in its pool (`pool_mem_bounds_of_accepts`). The columns of products show that
the pool has the cells of its sorted copy. That copy starts at the lower bound and climbs by one at
most, so that in fewer rows than the field has elements it cannot reach the upper bound by going
around the field.
-/

namespace CairoTrace

namespace RangeCheck16

open Permutation (IsProductColumn height height_mono exists_eq_iff_of_productColumns)

/-- Whether a trace has no violation of the range check once a column of products is added, for a
challenge `z` and bounds of the public input. -/
def Accepts (n : Nat) (columns : List (Array Felt)) (products : Nat) (z : Felt)
    (least greatest : Nat) : Prop :=
  ∃ (column : Array Felt) (challenges : List Felt) (hints : List (Option Felt)),
    challenges[Challenge.rangeCheckZ.index]? = some z ∧
    hints[Hint.rangeCheckMin.index]? = some (some (.ofNat least)) ∧
    hints[Hint.rangeCheckMax.index]? = some (some (.ofNat greatest)) ∧
    checkConstraints n (columns.set products column) (constraints products) [] challenges hints =
      .ok []

variable {n products least greatest : Nat} {columns : List (Array Felt)} {z : Felt}

/-- What an accepted trace satisfies; nothing is known of the products but that they exist. -/
theorem Accepts.exists_checks (h : Accepts n columns products z least greatest)
    (hpool : products ≠ Column.rangeCheckPool) (hsorted : products ≠ Column.rangeCheckSorted) :
    isPowerOfTwo n = true ∧ ∃ cells, Checks n (pool.cellAt columns) (sorted.cellAt columns) cells z
      least greatest := by
  obtain ⟨column, challenges, hints, hz, hleast, hgreatest, hcheck⟩ := h
  obtain ⟨hn, -, hholds⟩ := holds_of_checkConstraints_eq_nil hcheck
  have hchecks := (holds_iff hn).mp hholds
  rw [Challenge.value_eq hz, Hint.value_eq hleast, Hint.value_eq hgreatest] at hchecks
  have hp : traceCell (columns.set products column) Column.rangeCheckPool =
      pool.cellAt columns := by
    funext i
    rw [traceCell_set_of_ne hpool]
    exact VirtualColumn.cellAt_column.symm
  have hs : traceCell (columns.set products column) Column.rangeCheckSorted =
      sorted.cellAt columns := by
    funext i
    rw [traceCell_set_of_ne hsorted]
    exact VirtualColumn.cellAt_column.symm
  rw [hp, hs] at hchecks
  exact ⟨hn, _, hchecks⟩

/-- A column that climbs between two numbers has only numbers between them, as it has too few rows
to go around the field. -/
theorem Checks.exists_sorted_eq {pool sorted cells : Nat → Felt}
    (h : Checks n pool sorted cells z least greatest) (hleast : least + n ≤ starkPrime)
    (hgreatest : greatest < starkPrime) {i : Nat} (hi : i < n) :
    ∃ v, least ≤ v ∧ v ≤ greatest ∧ sorted i = .ofNat v := by
  have htop : least + height sorted (n - 1) = greatest := by
    have hlast : n - 1 < n := by omega
    rw [← h.climbs.val_eq h.minimum hleast hlast, h.maximum, Felt.val_natCast_of_lt hgreatest]
  have hle : height sorted i ≤ height sorted (n - 1) := height_mono (by omega)
  refine ⟨least + height sorted i, by omega, by omega, ?_⟩
  rw [h.climbs.eq_add_height hi, h.minimum, ← Nat.cast_add]
  rfl

/-- The pool of a trace whose range check is accepted for enough challenges has only numbers between
the bounds. -/
theorem pool_mem_bounds_of_accepts (hn : 0 < n) (hpool : products ≠ Column.rangeCheckPool)
    (hsorted : products ≠ Column.rangeCheckSorted) (hleast : least < 2 ^ 16)
    (hgreatest : greatest < 2 ^ 16) {zs : Finset Felt} (hzs : n ≤ zs.card)
    (h : ∀ z ∈ zs, Accepts n columns products z least greatest) :
    least ≤ greatest ∧
      ∀ i < n, ∃ v, least ≤ v ∧ v ≤ greatest ∧ pool.cellAt columns i = .ofNat v := by
  obtain ⟨z, hz⟩ : zs.Nonempty := Finset.card_pos.mp (by omega)
  obtain ⟨htwo, cells, hchecks⟩ := (h z hz).exists_checks hpool hsorted
  -- a field with a challenge for every row is large enough for the climb not to wrap around
  have hrows : n ≤ 2 ^ 251 := le_two_pow_of_le_card htwo hzs
  have hprime : 2 ^ 16 + 2 ^ 251 ≤ starkPrime := by decide
  have hmem {i : Nat} (hi : i < n) := hchecks.exists_sorted_eq (by omega) (by omega) hi
  constructor
  · obtain ⟨v, hlow, hhigh, -⟩ := hmem hn
    exact hlow.trans hhigh
  · intro i hi
    have hproducts (z : Felt) (hz : z ∈ zs) : ∃ cells, IsProductColumn n (z - pool.cellAt columns ·)
        (z - sorted.cellAt columns ·) cells 1 := by
      obtain ⟨-, cells, hchecks⟩ := (h z hz).exists_checks hpool hsorted
      exact ⟨cells, hchecks.products⟩
    obtain ⟨j, hj, hcell⟩ :=
      (exists_eq_iff_of_productColumns hn hzs hproducts _).mp ⟨i, hi, rfl⟩
    rw [← hcell]
    exact hmem hj

/-- The columns of a small trace with a pool and its sorted copy. -/
def sampleColumns : List (Array Felt) :=
  columnsOfNumbers [[5, 4, 4, 6], [0, 0, 0, 0], [4, 4, 5, 6], [0, 0, 0, 0]]

theorem sampleColumns_accepted {z : Felt} (hz : z ∈ ({10, 11, 12, 13} : Finset Felt)) :
    Accepts 4 sampleColumns 3 z 4 6 := by
  refine ⟨(interaction [0, 0, z] [5, 4, 4, 6] [4, 4, 5, 6]).toArray, [0, 0, z],
    [none, none, none, none, none, some (.ofNat 4), some (.ofNat 6)], rfl, rfl, rfl, ?_⟩
  simp only [Finset.mem_insert, Finset.mem_singleton] at hz
  obtain rfl | rfl | rfl | rfl := hz
  · decide +kernel
  · decide +kernel
  · decide +kernel
  · decide +kernel

theorem pool_mem_bounds_sample :
    (4 : Nat) ≤ 6 ∧ ∀ i < 4, ∃ v, 4 ≤ v ∧ v ≤ 6 ∧ pool.cellAt sampleColumns i = .ofNat v :=
  pool_mem_bounds_of_accepts (by decide) (by decide) (by decide) (by decide) (by decide)
    (show 4 ≤ ({10, 11, 12, 13} : Finset Felt).card by decide)
    fun _ hz => sampleColumns_accepted hz

end RangeCheck16

end CairoTrace
