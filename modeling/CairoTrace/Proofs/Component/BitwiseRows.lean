import CairoTrace.Component.BitwiseCells
import CairoTrace.Proofs.Component.InstanceRows
import CairoTrace.Proofs.Layout.Arrangement

/-!
# What the constraints of bitwise operations say

The constraints on the words of an instance are equations between its values and its strands
(`BitwiseCells.holdOnInstance_iff`), which do not depend on where the strands are. Those on the
addresses of its values are apart.
-/

namespace CairoTrace

namespace BitwiseCells

open Finset

/-- The strands of the words of an instance make up its values, add up digit by digit, and have no
digits above a word. -/
@[mk_iff]
structure Computes (d : Dilution) (value : Nat → Felt) (disjunction : Felt)
    (strand : Nat → Nat → Felt) (trim : Nat → Felt) : Prop where
  partition : ∀ v < valueCount, value v = ∑ k ∈ range d.strands, strand v k * 2 ^ d.strandShift k
  disjunction : disjunction = value 2 + value 3
  addition : ∀ k < d.strands, strand 0 k + strand 1 k = strand 3 k + strand 2 k * 2
  trim : ∀ j < d.spacing, d.topStrandBits j < d.bits →
    if d.topStrandBits j = 0 then
      strand 2 ((d.chunks - 1) * d.spacing + j) + strand 3 ((d.chunks - 1) * d.spacing + j) = 0
    else
      (strand 2 ((d.chunks - 1) * d.spacing + j) + strand 3 ((d.chunks - 1) * d.spacing + j)) *
        2 ^ (d.spacing * (d.bits - d.topStrandBits j)) = trim j

/-- A value of an instance: an operand, the conjunction or the exclusive disjunction. -/
def valueAt (cells : BitwiseCells) (columns : List (Array Felt)) (i v : Nat) : Felt :=
  cells.values.valueColumn.cellAt columns (valueCount * i + v)

def disjunctionAt (cells : BitwiseCells) (columns : List (Array Felt)) (i : Nat) : Felt :=
  cells.disjunction.valueColumn.cellAt columns i

def strandAt (cells : BitwiseCells) (columns : List (Array Felt)) (i v k : Nat) : Felt :=
  traceCell columns cells.pool (cells.height * i + cells.strandRow v k)

def trimAt (cells : BitwiseCells) (columns : List (Array Felt)) (i j : Nat) : Felt :=
  traceCell columns cells.pool (cells.height * i + cells.trimRow j)

variable {cells : BitwiseCells} {config : LayoutConfig} {n i row : Nat}
  {columns : List (Array Felt)} {periodic : List PeriodicColumn} {b : Bindings}

theorem onRow_joined (v : Nat) : (cells.joined v).onRow n columns periodic b row =
    ∑ k ∈ range cells.dilution.strands,
      (cells.poolCell (cells.strandRow v k)).onRow n columns periodic b row *
        2 ^ cells.dilution.strandShift k := by
  have hfoldl (f : Nat → Term) (l : List Nat) (e : Term) :
      (l.foldl (fun acc k => acc + f k) e).onRow n columns periodic b row =
        e.onRow n columns periodic b row +
          (l.map fun k => (f k).onRow n columns periodic b row).sum := by
    induction l generalizing e with
    | nil => simp
    | cons k l ih =>
      rw [List.foldl_cons, ih, Term.onRow_add, List.map_cons, List.sum_cons, add_assoc]
  have hsum (f : Nat → Felt) : ∑ k ∈ range cells.dilution.strands, f k =
      ((List.range cells.dilution.strands).map f).sum := rfl
  rw [hsum, joined]
  cases List.range cells.dilution.strands with
  | nil => rfl
  | cons k rest =>
    rw [hfoldl, List.map_cons, List.sum_cons]
    simp only [Term.onRow_mul, Term.onRow_pow2]

theorem mem_trimmed_iff {p : Nat × Nat} : p ∈ cells.trimmed ↔ ∃ j < cells.dilution.spacing,
    cells.dilution.topStrandBits j < cells.dilution.bits ∧
      p = (j, cells.dilution.topStrandBits j) := by
  simp only [trimmed, List.mem_filter, List.mem_map, List.mem_range, decide_eq_true_iff]
  constructor
  · rintro ⟨⟨j, hj, rfl⟩, hlt⟩
    exact ⟨j, hj, hlt, rfl⟩
  · rintro ⟨j, hj, hlt, rfl⟩
    exact ⟨⟨j, hj, rfl⟩, hlt⟩

section Instance

variable (hn : isPowerOfTwo n = true) (hword : n < 2 ^ 64) (h : cells.IsArranged config n)
  (hi : i < n / cells.height)

include h in
theorem strandRow_lt {v k : Nat} (hv : v < valueCount) (hk : k < cells.dilution.strands) :
    cells.strandRow v k < cells.height := by
  have hpos : 0 < cells.strandStep := pos_of_isPowerOfTwo h.isPowerOfTwo_strandStep
  calc cells.strandRow v k < cells.strandStep * (valueCount * cells.dilution.strands) :=
        Nat.mul_lt_mul_of_pos_left (mul_add_lt_mul hk hv) hpos
    _ = cells.height := by rw [mul_comm, h.strands_mul_step]

include h in
theorem strands_pos : 0 < cells.dilution.strands := by
  have hheight := pos_of_isPowerOfTwo h.disjunction.isPowerOfTwo_step
  rw [← h.strands_mul_step] at hheight
  exact Nat.pos_of_mul_pos_left (Nat.pos_of_mul_pos_right hheight)

include h in
theorem topStrand_lt {j : Nat} (hj : j < cells.dilution.spacing) :
    cells.topStrand j < cells.dilution.strands := by
  have hpos := strands_pos h
  have hchunks : 0 < cells.dilution.chunks := Nat.pos_of_mul_pos_right hpos
  obtain ⟨chunks, hchunks⟩ := Nat.exists_eq_succ_of_ne_zero hchunks.ne'
  rw [topStrand, Dilution.strands, hchunks, Nat.succ_sub_one, Nat.succ_mul]
  omega

include h in
/-- Trim cells are beside the strands of the first operand. -/
theorem trimRow_lt {j : Nat} (hj : j < cells.dilution.spacing) :
    cells.trimRow j < cells.height := by
  have hle : cells.dilution.spacing ≤ cells.dilution.strands :=
    Nat.le_mul_of_pos_left _ (Nat.pos_of_mul_pos_right (strands_pos h))
  have hstep := h.two_le_strandStep
  calc cells.trimRow j < valueCount * cells.strandStep * (j + 1) := by
        rw [trimRow, valueCount, mul_add]
        omega
    _ ≤ valueCount * cells.strandStep * cells.dilution.strands :=
        Nat.mul_le_mul_left _ (by omega)
    _ = cells.height := by rw [mul_right_comm, h.strands_mul_step]

include hn h hi

theorem onRow_poolCell {k : Nat} (hk : k < cells.height) :
    (cells.poolCell k).onRow n columns periodic b (cells.height * i) =
      traceCell columns cells.pool (cells.height * i + k) :=
  Term.onRow_cell (instance_row_lt hn h.disjunction.isPowerOfTwo_step h.height_le hi hk)

theorem onRow_strand {v k : Nat} (hv : v < valueCount) (hk : k < cells.dilution.strands) :
    (cells.poolCell (cells.strandRow v k)).onRow n columns periodic b (cells.height * i) =
      cells.strandAt columns i v k :=
  onRow_poolCell hn h hi (strandRow_lt h hv hk)

/-- The strands of one step, read from the first of them. -/
theorem onRow_strand_of_step {v k : Nat} (hv : v < valueCount) (hk : k < cells.dilution.strands) :
    (cells.poolCell (v * cells.strandStep)).onRow n columns periodic b
        (valueCount * cells.strandStep * (cells.dilution.strands * i + k)) =
      cells.strandAt columns i v k := by
  have hrow : valueCount * cells.strandStep * (cells.dilution.strands * i + k) +
      v * cells.strandStep = cells.height * i + cells.strandRow v k := by
    rw [← h.strands_mul_step, strandRow]
    ring
  have hlt : cells.height * i + cells.strandRow v k < n :=
    instance_row_lt hn h.disjunction.isPowerOfTwo_step h.height_le hi (strandRow_lt h hv hk)
  rw [poolCell, Term.onRow_cell (by rwa [hrow]), hrow, strandAt]

theorem holdsOnInstance_every_iff {name : String} {e : Term} :
    (⟨name, e, .every cells.height 0, []⟩ : Constraint).HoldsOnInstance
      n columns periodic b cells.height i ↔ e.onRow n columns periodic b (cells.height * i) = 0 :=
  Constraint.holdsOnInstance_every_iff hn h.disjunction.isPowerOfTwo_step h.height_le hi
    (pos_of_isPowerOfTwo h.disjunction.isPowerOfTwo_step)

include hword

theorem onRow_value {v : Nat} (hv : v < valueCount) :
    (cells.values.valueColumn.cell v).onRow n columns periodic b (cells.height * i) =
      cells.valueAt columns i v := by
  have hle := h.height_le
  have hheight := h.height_eq
  have hfour : cells.height = 4 * cells.values.step := h.height_eq
  have hrow : (cells.values.valueColumn.cell v).onRow n columns periodic b
      (cells.values.step * (valueCount * i + 0)) =
        cells.values.valueColumn.cellAt columns (valueCount * i + (0 + v)) :=
    Term.onRow_later_of_instance (c := cells.values.valueColumn) hn
      h.disjunction.isPowerOfTwo_step h.height_le hi hheight.symm (by omega)
      ⟨rfl, h.values.offset_succ_lt⟩ (by omega)
  rw [zero_add, add_zero] at hrow
  rw [valueAt, ← hrow, hheight, mul_left_comm, mul_assoc]

theorem onRow_disjunction :
    cells.disjunction.valueColumn.current.onRow n columns periodic b (cells.height * i) =
      cells.disjunctionAt columns i := by
  have hlt : cells.disjunction.offset + 1 < cells.height := h.disjunction.offset_succ_lt
  have hhalf := le_two_pow_of_isPowerOfTwo (k := 63) hn hword
  refine Term.onRow_current (c := cells.disjunction.valueColumn) ?_ ?_
  · exact hlt.trans_le (h.height_le.trans hhalf)
  · rw [VirtualColumn.row, add_comm]
    exact instance_row_lt hn h.disjunction.isPowerOfTwo_step h.height_le hi hlt

/-! ## Constraints -/

theorem partition_iff : (∀ c ∈ cells.partitionConstraints,
      c.HoldsOnInstance n columns periodic b cells.height i) ↔
    ∀ v < valueCount, cells.valueAt columns i v = ∑ k ∈ range cells.dilution.strands,
      cells.strandAt columns i v k * 2 ^ cells.dilution.strandShift k := by
  have hvalue {v : Nat} (hv : v < valueCount) {name : String} :
      (⟨name, cells.values.valueColumn.cell v - cells.joined v, .every cells.height 0, []⟩ :
        Constraint).HoldsOnInstance n columns periodic b cells.height i ↔
      cells.valueAt columns i v = ∑ k ∈ range cells.dilution.strands,
        cells.strandAt columns i v k * 2 ^ cells.dilution.strandShift k := by
    rw [holdsOnInstance_every_iff hn h hi, Term.onRow_sub, sub_eq_zero,
      onRow_value hn hword h hi hv, onRow_joined]
    refine Eq.congr_right (sum_congr rfl fun k hk => ?_)
    rw [onRow_strand hn h hi hv (mem_range.mp hk)]
  simp only [partitionConstraints, List.zipIdx_cons, List.zipIdx_nil, List.map_cons, List.map_nil,
    List.forall_mem_cons, List.not_mem_nil, false_implies, implies_true, and_true]
  rw [hvalue (v := 0) (by decide), hvalue (v := 0 + 1) (by decide),
    hvalue (v := 0 + 1 + 1) (by decide), hvalue (v := 0 + 1 + 1 + 1) (by decide)]
  constructor
  · rintro ⟨h0, h1, h2, h3⟩ v hv
    have hfour : v < 4 := hv
    interval_cases v
    · exact h0
    · exact h1
    · exact h2
    · exact h3
  · intro hall
    exact ⟨hall 0 (by decide), hall 1 (by decide), hall 2 (by decide), hall 3 (by decide)⟩

theorem operation_iff : (∀ c ∈ cells.operationConstraints,
      c.HoldsOnInstance n columns periodic b cells.height i) ↔
    cells.disjunctionAt columns i = cells.valueAt columns i 2 + cells.valueAt columns i 3 ∧
      ∀ k < cells.dilution.strands,
        cells.strandAt columns i 0 k + cells.strandAt columns i 1 k =
          cells.strandAt columns i 3 k + cells.strandAt columns i 2 k * 2 := by
  have hcount : cells.dilution.strands * (valueCount * cells.strandStep) = cells.height := by
    rw [← h.strands_mul_step]
    ring
  have hpow : isPowerOfTwo (valueCount * cells.strandStep) = true :=
    isPowerOfTwo_mul (by decide) h.isPowerOfTwo_strandStep
  simp only [operationConstraints, List.forall_mem_cons, List.not_mem_nil, false_implies,
    implies_true, and_true, holdsOnInstance_every_iff hn h hi, Term.onRow_sub,
    Term.onRow_add, sub_eq_zero, onRow_disjunction hn hword h hi,
    Constraint.holdsOnInstance_steps_iff hn h.disjunction.isPowerOfTwo_step h.height_le hi hcount
      hpow]
  rw [onRow_value hn hword h hi (by decide), onRow_value hn hword h hi (by decide)]
  refine and_congr_right fun _ => forall₂_congr fun k hk => ?_
  have h0 : (cells.poolCell 0).onRow n columns periodic b
      (valueCount * cells.strandStep * (cells.dilution.strands * i + k)) =
        cells.strandAt columns i 0 k := by
    rw [← onRow_strand_of_step hn h hi (by decide) hk, zero_mul]
  have h1 : (cells.poolCell cells.strandStep).onRow n columns periodic b
      (valueCount * cells.strandStep * (cells.dilution.strands * i + k)) =
        cells.strandAt columns i 1 k := by
    rw [← onRow_strand_of_step hn h hi (by decide) hk, one_mul]
  rw [h0, h1, onRow_strand_of_step hn h hi (by decide) hk, Term.onRow_mul,
    onRow_strand_of_step hn h hi (by decide) hk, Term.onRow_ofNat]

omit hword in
theorem trim_iff : (∀ c ∈ cells.trimConstraints,
      c.HoldsOnInstance n columns periodic b cells.height i) ↔
    ∀ j < cells.dilution.spacing, cells.dilution.topStrandBits j < cells.dilution.bits →
      if cells.dilution.topStrandBits j = 0 then
        cells.strandAt columns i 2 (cells.topStrand j) +
          cells.strandAt columns i 3 (cells.topStrand j) = 0
      else
        (cells.strandAt columns i 2 (cells.topStrand j) +
          cells.strandAt columns i 3 (cells.topStrand j)) *
            2 ^ (cells.dilution.spacing * (cells.dilution.bits - cells.dilution.topStrandBits j)) =
          cells.trimAt columns i j := by
  have hholds {name : String} {j : Nat} (hj : j < cells.dilution.spacing) :
      (⟨name, if cells.dilution.topStrandBits j = 0 then
            cells.poolCell (cells.strandRow 2 (cells.topStrand j)) +
              cells.poolCell (cells.strandRow 3 (cells.topStrand j))
          else (cells.poolCell (cells.strandRow 2 (cells.topStrand j)) +
              cells.poolCell (cells.strandRow 3 (cells.topStrand j))) *
            .pow2 (cells.dilution.spacing *
              (cells.dilution.bits - cells.dilution.topStrandBits j)) -
            cells.poolCell (cells.trimRow j), .every cells.height 0, []⟩ :
        Constraint).HoldsOnInstance n columns periodic b cells.height i ↔
      if cells.dilution.topStrandBits j = 0 then
        cells.strandAt columns i 2 (cells.topStrand j) +
          cells.strandAt columns i 3 (cells.topStrand j) = 0
      else
        (cells.strandAt columns i 2 (cells.topStrand j) +
          cells.strandAt columns i 3 (cells.topStrand j)) *
            2 ^ (cells.dilution.spacing * (cells.dilution.bits - cells.dilution.topStrandBits j)) =
          cells.trimAt columns i j := by
    have htop := topStrand_lt h hj
    rw [holdsOnInstance_every_iff hn h hi]
    split
    · rw [Term.onRow_add, onRow_strand hn h hi (by decide) htop,
        onRow_strand hn h hi (by decide) htop]
    · rw [Term.onRow_sub, sub_eq_zero, Term.onRow_mul, Term.onRow_add, Term.onRow_pow2,
        onRow_strand hn h hi (by decide) htop, onRow_strand hn h hi (by decide) htop,
        onRow_poolCell hn h hi (trimRow_lt h hj), trimAt]
  rw [trimConstraints, List.forall_mem_map]
  constructor
  · intro hall j hj hlt
    exact (hholds hj).mp (hall _ (mem_trimmed_iff.mpr ⟨j, hj, hlt, rfl⟩))
  · intro hall p hp
    obtain ⟨j, hj, hlt, rfl⟩ := mem_trimmed_iff.mp hp
    exact (hholds hj).mpr (hall j hj hlt)

theorem holdOnInstance_iff : (∀ c ∈ cells.partitionConstraints ++ cells.operationConstraints ++
      cells.trimConstraints, c.HoldsOnInstance n columns periodic b cells.height i) ↔
    Computes cells.dilution (cells.valueAt columns i) (cells.disjunctionAt columns i)
      (cells.strandAt columns i) (cells.trimAt columns i) := by
  simp only [computes_iff, List.forall_mem_append, partition_iff hn hword h hi,
    operation_iff hn hword h hi, trim_iff hn h hi, and_assoc, topStrand]

end Instance

end BitwiseCells

end CairoTrace
