import CairoTrace.Component.DilutedCheck
import CairoTrace.Component.MemoryCheck
import CairoTrace.Component.RangeCheck16
import CairoTrace.Proofs.Permutation
import CairoTrace.Proofs.RowValue

/-!
# What the constraints of the pools say

The constraints of each pool hold on a trace exactly if its cells are related in a few ways, which
are the fields of a structure: a column of products relates the pool to its sorted copy, and the
sorted copy climbs (`RangeCheck16.holds_iff`), or is a memory that climbs and starts at address one
(`MemoryCheck.holds_iff`), or is aggregated into the number of the public input
(`DilutedCheck.holds_iff`).
-/

namespace CairoTrace

open Permutation (IsProductColumn Climbs)

variable {n : Nat} {columns : List (Array Felt)} {periodic : List PeriodicColumn} {b : Bindings}

/-! ## Whole columns -/

section Column

variable {column : Nat} {name : String} {t : Term} {v : Felt}

theorem holds_first_cell_iff (hn : 0 < n)
    (ht : ∀ row, t.onRow n columns periodic b row = v) :
    (⟨name, VirtualColumn.current ⟨column, 1, 0⟩ - t, .first 0, []⟩ : Constraint).Holds
      n columns periodic b ↔ traceCell columns column 0 = v := by
  rw [Constraint.holds_first_iff 1 hn, Term.onRow_sub,
    Term.onRow_current_column hn, ht, sub_eq_zero]

theorem holds_last_cell_iff (hn : 0 < n)
    (ht : ∀ row, t.onRow n columns periodic b row = v) :
    (⟨name, VirtualColumn.current ⟨column, 1, 0⟩ - t, .fromEnd 1, []⟩ : Constraint).Holds
      n columns periodic b ↔ traceCell columns column (n - 1) = v := by
  rw [Constraint.holds_fromEnd_iff hn one_pos (one_dvd n), Nat.div_one, Term.onRow_sub,
    Term.onRow_current_column (Nat.sub_lt hn one_pos), ht, sub_eq_zero]

theorem holds_climbs_iff (hn : 0 < n) :
    (⟨name, Term.booleanity (VirtualColumn.next ⟨column, 1, 0⟩ -
        VirtualColumn.current ⟨column, 1, 0⟩), .every 1 0, [.fromEnd 1]⟩ : Constraint).Holds
      n columns periodic b ↔ Climbs n (traceCell columns column) := by
  rw [Constraint.holds_every_except_last_iff hn one_pos (one_dvd n), Nat.div_one]
  refine forall₂_congr fun i hi => ?_
  rw [Term.onRow_booleanity_eq_zero_iff, Term.onRow_sub, Term.onRow_next_column hi,
    Term.onRow_current_column (by omega)]

end Column

/-- The three constraints of a permutation of whole columns say that there is a column of products
that ends with one. -/
theorem holds_permutation_iff (hpos : 0 < n) {pool sorted products : Nat} {z : Term}
    {v : Felt} (hz : ∀ row, z.onRow n columns periodic b row = v) {init step last : String} :
    ((⟨init, (z - VirtualColumn.current ⟨sorted, 1, 0⟩) * VirtualColumn.current ⟨products, 1, 0⟩ +
          VirtualColumn.current ⟨pool, 1, 0⟩ - z, .first 0, []⟩ : Constraint).Holds
        n columns periodic b ∧
      (⟨step, (z - VirtualColumn.next ⟨sorted, 1, 0⟩) * VirtualColumn.next ⟨products, 1, 0⟩ -
          (z - VirtualColumn.next ⟨pool, 1, 0⟩) * VirtualColumn.current ⟨products, 1, 0⟩,
          .every 1 0, [.fromEnd 1]⟩ : Constraint).Holds n columns periodic b ∧
      (⟨last, VirtualColumn.current ⟨products, 1, 0⟩ - 1, .fromEnd 1, []⟩ : Constraint).Holds
        n columns periodic b) ↔
      IsProductColumn n (v - traceCell columns pool ·) (v - traceCell columns sorted ·)
        (traceCell columns products) 1 := by
  rw [Constraint.holds_first_iff 1 hpos,
    Constraint.holds_every_except_last_iff hpos one_pos (one_dvd n),
    Constraint.holds_fromEnd_iff hpos one_pos (one_dvd n), Nat.div_one]
  simp only [Term.onRow_add, Term.onRow_sub, Term.onRow_mul, Term.onRow_one, hz,
    Term.onRow_current_column hpos, Term.onRow_current_column (Nat.sub_lt hpos one_pos)]
  constructor
  · rintro ⟨hinit, hstep, hlast⟩
    refine ⟨?_, fun i hi => ?_, ?_⟩
    · linear_combination hinit
    · have h := hstep i hi
      rw [Term.onRow_next_column hi, Term.onRow_next_column hi, Term.onRow_next_column hi,
        Term.onRow_current_column (by omega)] at h
      linear_combination h
    · linear_combination hlast
  · rintro ⟨hinit, hstep, hlast⟩
    refine ⟨?_, fun i hi => ?_, ?_⟩
    · linear_combination hinit
    · rw [Term.onRow_next_column hi, Term.onRow_next_column hi, Term.onRow_next_column hi,
        Term.onRow_current_column (by omega)]
      linear_combination hstep i hi
    · linear_combination hlast

/-! ## Range checks -/

namespace RangeCheck16

/-- The pool is a permutation of a column that climbs between two bounds. -/
structure Checks (n : Nat) (pool sorted products : Nat → Felt) (z least greatest : Felt) :
    Prop where
  products : IsProductColumn n (z - pool ·) (z - sorted ·) products 1
  climbs : Climbs n sorted
  minimum : sorted 0 = least
  maximum : sorted (n - 1) = greatest

theorem holds_iff_of_pos (hn : 0 < n) {products : Nat} :
    (∀ c ∈ constraints products, c.Holds n columns periodic b) ↔
      Checks n (traceCell columns Column.rangeCheckPool)
        (traceCell columns Column.rangeCheckSorted) (traceCell columns products)
        (Challenge.rangeCheckZ.value b.challenges) (Hint.rangeCheckMin.value b.hints)
        (Hint.rangeCheckMax.value b.hints) := by
  have hz (row : Nat) : Challenge.rangeCheckZ.term.onRow n columns periodic b row =
      Challenge.rangeCheckZ.value b.challenges := rfl
  have hleast (row : Nat) : Hint.rangeCheckMin.term.onRow n columns periodic b row =
      Hint.rangeCheckMin.value b.hints := rfl
  have hgreatest (row : Nat) : Hint.rangeCheckMax.term.onRow n columns periodic b row =
      Hint.rangeCheckMax.value b.hints := rfl
  simp only [constraints, List.forall_mem_cons]
  constructor
  · rintro ⟨hinit, hstep, hlast, hclimbs, hmin, hmax, -⟩
    exact ⟨(holds_permutation_iff hn hz).mp ⟨hinit, hstep, hlast⟩,
      (holds_climbs_iff hn).mp hclimbs, (holds_first_cell_iff hn hleast).mp hmin,
      (holds_last_cell_iff hn hgreatest).mp hmax⟩
  · rintro ⟨hproducts, hclimbs, hmin, hmax⟩
    obtain ⟨hinit, hstep, hlast⟩ := (holds_permutation_iff hn hz).mpr hproducts
    exact ⟨hinit, hstep, hlast, (holds_climbs_iff hn).mpr hclimbs,
      (holds_first_cell_iff hn hleast).mpr hmin, (holds_last_cell_iff hn hgreatest).mpr hmax,
      by simp⟩

theorem holds_iff (hn : isPowerOfTwo n = true) {products : Nat} :
    (∀ c ∈ constraints products, c.Holds n columns periodic b) ↔
      Checks n (traceCell columns Column.rangeCheckPool)
        (traceCell columns Column.rangeCheckSorted) (traceCell columns products)
        (Challenge.rangeCheckZ.value b.challenges) (Hint.rangeCheckMin.value b.hints)
        (Hint.rangeCheckMax.value b.hints) :=
  holds_iff_of_pos (pos_of_isPowerOfTwo hn)

end RangeCheck16

/-! ## Memory -/

namespace MemoryCheck

/-- The term of an access to memory in the products. -/
def accessTerm (z alpha address value : Felt) : Felt := z - (address + alpha * value)

/-- The pool is a permutation of a memory that starts at address one, once the rows of the public
memory are filled in. -/
@[mk_iff]
structure Checks (n : Nat) (columns : List (Array Felt)) (products : Nat → Felt)
    (z alpha quotient : Felt) : Prop where
  products : IsProductColumn (n / memoryStep)
    (fun i => accessTerm z alpha (address.cellAt columns i) (value.cellAt columns i))
    (fun i => accessTerm z alpha (sortedAddress.cellAt columns i) (sortedValue.cellAt columns i))
    products quotient
  climbs : Climbs (n / memoryStep) (sortedAddress.cellAt columns)
  isFunction : ∀ i, i + 1 < n / memoryStep →
    sortedAddress.cellAt columns (i + 1) - sortedAddress.cellAt columns i = 1 ∨
      sortedValue.cellAt columns i = sortedValue.cellAt columns (i + 1)
  initial : sortedAddress.cellAt columns 0 = 1
  publicAddress_zero : ∀ i < n / publicMemoryStep, publicAddress.cellAt columns i = 0
  publicValue_zero : ∀ i < n / publicMemoryStep, publicValue.cellAt columns i = 0

theorem holds_iff (hn : isPowerOfTwo n = true) (hle : publicMemoryStep ≤ n) {column : Nat} :
    (∀ c ∈ constraints column, c.Holds n columns periodic b) ↔
      Checks n columns ((products column).cellAt columns) (Challenge.memoryZ.value b.challenges)
        (Challenge.memoryAlpha.value b.challenges) (Hint.memoryQuotient.value b.hints) := by
  have hn' := pos_of_isPowerOfTwo hn
  have hpublic : publicMemoryStep ∣ n := dvd_of_isPowerOfTwo (by decide) hn hle
  have hmemory : memoryStep ∣ n := Nat.dvd_trans (by decide) hpublic
  have hstep : 0 < memoryStep := Nat.two_pos
  have hpos : 0 < n / memoryStep := Nat.div_pos (Nat.le_of_dvd hn' hmemory) hstep
  have hlast : n / memoryStep - 1 < n / memoryStep := Nat.sub_lt hpos one_pos
  have hcurrent {c : VirtualColumn} (hc : c.step = memoryStep ∧ c.offset < memoryStep) {i : Nat}
      (hi : i < n / memoryStep) :
      c.current.onRow n columns periodic b (memoryStep * i) = c.cellAt columns i :=
    Term.onRow_current_of_step hc (by decide) hmemory hi
  have hnext {c : VirtualColumn} (hc : c.step = memoryStep ∧ c.offset < memoryStep) {i : Nat}
      (hi : i + 1 < n / memoryStep) :
      c.next.onRow n columns periodic b (memoryStep * i) = c.cellAt columns (i + 1) :=
    Term.onRow_next_of_step hc (by decide) hmemory hi
  have hpublicCell {c : VirtualColumn}
      (hc : c.step = publicMemoryStep ∧ c.offset < publicMemoryStep) {i : Nat}
      (hi : i < n / publicMemoryStep) :
      c.current.onRow n columns periodic b (publicMemoryStep * i) = c.cellAt columns i :=
    Term.onRow_current_of_step hc (by decide) hpublic hi
  have ha : address.step = memoryStep ∧ address.offset < memoryStep := by decide
  have hv : value.step = memoryStep ∧ value.offset < memoryStep := by decide
  have hsa : sortedAddress.step = memoryStep ∧ sortedAddress.offset < memoryStep := by decide
  have hsv : sortedValue.step = memoryStep ∧ sortedValue.offset < memoryStep := by decide
  have hp : (products column).step = memoryStep ∧ (products column).offset < memoryStep :=
    ⟨rfl, Nat.two_pos⟩
  rw [checks_iff, Permutation.isProductColumn_iff]
  simp only [constraints, List.forall_mem_cons, List.not_mem_nil, false_implies, implies_true,
    and_true, and_assoc, Constraint.holds_first_iff memoryStep hn',
    Constraint.holds_every_except_last_iff hn' hstep hmemory,
    Constraint.holds_every_iff (show 0 < publicMemoryStep by decide) hpublic,
    Constraint.holds_fromEnd_iff hn' hstep hmemory,
    Term.onRow_booleanity_eq_zero_iff, Term.onRow_add, Term.onRow_sub, Term.onRow_mul,
    Term.onRow_challenge, Term.onRow_hint, Term.onRow_one, accessTerm]
  refine and_congr ?init <| and_congr (forall₂_congr fun i hi => ?step) <| and_congr ?final <|
    and_congr (forall₂_congr fun i hi => ?climbs) <|
    and_congr (forall₂_congr fun i hi => ?isFunction) <| and_congr ?initial <|
    and_congr (forall₂_congr fun i hi => ?publicAddress) <|
      forall₂_congr fun i hi => ?publicValue
  case init =>
    rw [hcurrent hsa hpos, hcurrent hsv hpos, hcurrent hp hpos, hcurrent ha hpos, hcurrent hv hpos]
    constructor <;> intro h <;> linear_combination h
  case step =>
    rw [hnext hsa hi, hnext hsv hi, hnext hp hi, hnext ha hi, hnext hv hi, hcurrent hp (by omega),
      sub_eq_zero]
  case final => rw [hcurrent hp hlast, sub_eq_zero]
  case climbs => rw [hnext hsa hi, hcurrent hsa (by omega)]
  case isFunction =>
    rw [hnext hsa hi, hcurrent hsa (by omega), hnext hsv hi, hcurrent hsv (by omega), mul_eq_zero,
      sub_eq_zero, sub_eq_zero]
  case initial => rw [hcurrent hsa hpos, sub_eq_zero]
  case publicAddress => rw [hpublicCell (by decide) hi]
  case publicValue => rw [hpublicCell (by decide) hi]

end MemoryCheck

/-! ## Diluted numbers -/

namespace DilutedCheck

/-- The pool is a permutation of a column that starts with zero and is aggregated into a given
number. -/
structure Checks (n : Nat) (pool sorted products aggregate : Nat → Felt)
    (z aggregateZ alpha total : Felt) : Prop where
  products : IsProductColumn n (z - pool ·) (z - sorted ·) products 1
  init : aggregate 0 = 1
  first : sorted 0 = 0
  step : ∀ i, i + 1 < n → aggregate (i + 1) =
    aggregate i * (1 + aggregateZ * (sorted (i + 1) - sorted i)) +
      alpha * (sorted (i + 1) - sorted i) ^ 2
  last : aggregate (n - 1) = total

/-- The rows of the aggregate are its steps over the differences of the sorted copy. -/
theorem holds_step_iff (hn : 0 < n) {sorted aggregate : Nat} {name : String} :
    (⟨name, VirtualColumn.next ⟨aggregate, 1, 0⟩ -
        (VirtualColumn.current ⟨aggregate, 1, 0⟩ * (1 + Challenge.aggregateZ.term *
            (VirtualColumn.next ⟨sorted, 1, 0⟩ - VirtualColumn.current ⟨sorted, 1, 0⟩)) +
          Challenge.aggregateAlpha.term *
            (VirtualColumn.next ⟨sorted, 1, 0⟩ - VirtualColumn.current ⟨sorted, 1, 0⟩) *
            (VirtualColumn.next ⟨sorted, 1, 0⟩ - VirtualColumn.current ⟨sorted, 1, 0⟩)),
        .every 1 0, [.fromEnd 1]⟩ : Constraint).Holds n columns periodic b ↔
      ∀ i, i + 1 < n → traceCell columns aggregate (i + 1) =
        traceCell columns aggregate i * (1 + Challenge.aggregateZ.value b.challenges *
          (traceCell columns sorted (i + 1) - traceCell columns sorted i)) +
        Challenge.aggregateAlpha.value b.challenges *
          (traceCell columns sorted (i + 1) - traceCell columns sorted i) ^ 2 := by
  rw [Constraint.holds_every_except_last_iff hn one_pos (one_dvd n), Nat.div_one]
  refine forall₂_congr fun i hi => ?_
  simp only [Term.onRow_add, Term.onRow_sub, Term.onRow_mul, Term.onRow_challenge, Term.onRow_one,
    Term.onRow_next_column hi, Term.onRow_current_column (show i < n by omega)]
  rw [sub_eq_zero, pow_two, mul_assoc (Challenge.aggregateAlpha.value b.challenges)]

theorem holds_iff (hn : isPowerOfTwo n = true) {c : DilutedCheck} :
    (∀ k ∈ c.constraints, k.Holds n columns periodic b) ↔
      Checks n (traceCell columns c.pool) (traceCell columns c.sorted)
        (traceCell columns c.products) (traceCell columns c.aggregate)
        (Challenge.dilutedZ.value b.challenges) (Challenge.aggregateZ.value b.challenges)
        (Challenge.aggregateAlpha.value b.challenges) (Hint.dilutedAggregate.value b.hints) := by
  have hpos := pos_of_isPowerOfTwo hn
  have hz (row : Nat) : Challenge.dilutedZ.term.onRow n columns periodic b row =
      Challenge.dilutedZ.value b.challenges := rfl
  have hone (row : Nat) : Term.onRow n columns periodic b row 1 = 1 := rfl
  have htotal (row : Nat) : Hint.dilutedAggregate.term.onRow n columns periodic b row =
      Hint.dilutedAggregate.value b.hints := rfl
  have hfirst : (⟨"diluted_check/first_element", VirtualColumn.current ⟨c.sorted, 1, 0⟩, .first 0,
      []⟩ : Constraint).Holds n columns periodic b ↔ traceCell columns c.sorted 0 = 0 := by
    rw [Constraint.holds_first_iff 1 hpos, Term.onRow_current_column hpos]
  simp only [constraints, List.forall_mem_cons]
  constructor
  · rintro ⟨hinit, hprod, hend, hstart, hzero, hsteps, hlast, -⟩
    exact ⟨(holds_permutation_iff hpos hz).mp ⟨hinit, hprod, hend⟩,
      (holds_first_cell_iff hpos hone).mp hstart, hfirst.mp hzero, (holds_step_iff hpos).mp hsteps,
      (holds_last_cell_iff hpos htotal).mp hlast⟩
  · rintro ⟨hproducts, hstart, hzero, hsteps, hlast⟩
    obtain ⟨hinit, hprod, hend⟩ := (holds_permutation_iff hpos hz).mpr hproducts
    exact ⟨hinit, hprod, hend, (holds_first_cell_iff hpos hone).mpr hstart, hfirst.mpr hzero,
      (holds_step_iff hpos).mpr hsteps, (holds_last_cell_iff hpos htotal).mpr hlast, by simp⟩

end DilutedCheck

end CairoTrace
