import CairoTrace.Proofs.Component.BitwiseRows
import CairoTrace.Proofs.Layout.Assembly
import CairoTrace.Proofs.Strands

/-!
# Soundness of bitwise operations

When the pool of a layout holds diluted numbers only, the values of every instance of the bitwise
builtin are two words, their conjunction, their exclusive disjunction and their disjunction
(`values_of_holds`). No sum of two diluted numbers reaches the Stark prime, even when it is shifted
by the digits that a strand does not use, so the equations between strands hold over the integers
(`Computes.diluted_add_eq`, `Computes.diluted_add_lt`), and then digit by digit.
-/

namespace CairoTrace

namespace BitwiseCells

open Finset

section Computes

variable {d : Dilution} {value : Nat → Felt} {disjunction : Felt} {strand : Nat → Nat → Felt}
  {trim : Nat → Felt} {w : Nat → Nat → Nat}

section Strands

variable (hspacing : 2 ≤ d.spacing) (hplaces : 2 * d.spacing * d.bits ≤ 251)
include hplaces

theorem bits_mul_spacing_le : d.bits * d.spacing ≤ 125 := by
  rw [mul_assoc, mul_comm d.spacing] at hplaces
  omega

include hspacing

theorem diluted_lt (u : Nat) : d.diluted u < 2 ^ (d.bits * d.spacing) := by
  have hle := bits_mul_spacing_le hplaces
  exact dilute_lt (by omega) (by omega)

/-- A diluted number is much smaller than the Stark prime. -/
theorem diluted_lt_two_pow (u : Nat) : d.diluted u < 2 ^ 125 :=
  (diluted_lt hspacing hplaces u).trans_le
    (Nat.pow_le_pow_right (by decide) (bits_mul_spacing_le hplaces))

end Strands

namespace Computes

variable (h : Computes d value disjunction strand trim)
  (hstrand : ∀ v < valueCount, ∀ k < d.strands, strand v k = (d.diluted (w v k) : Felt))
include h hstrand

/-- The words of an instance whose strands are given. -/
theorem value_eq {v : Nat} (hv : v < valueCount) : value v = (d.joined (w v) : Felt) := by
  rw [h.partition v hv, Dilution.joined, Nat.cast_sum]
  apply sum_congr rfl
  intro k hk
  rw [hstrand v hv k (mem_range.mp hk), Nat.cast_mul, Nat.cast_pow, Nat.cast_ofNat]

variable (hspacing : 2 ≤ d.spacing) (hplaces : 2 * d.spacing * d.bits ≤ 251)
include hspacing hplaces

theorem diluted_add_eq {k : Nat} (hk : k < d.strands) :
    d.diluted (w 0 k) + d.diluted (w 1 k) = d.diluted (w 3 k) + 2 * d.diluted (w 2 k) := by
  have hlt := diluted_lt_two_pow hspacing hplaces
  have h0 := hlt (w 0 k)
  have h1 := hlt (w 1 k)
  have h2 := hlt (w 2 k)
  have h3 := hlt (w 3 k)
  have hprime : 3 * 2 ^ 125 < starkPrime := by decide
  apply Felt.natCast_inj_of_lt (by omega) (by omega)
  have hadd := h.addition k hk
  rw [hstrand 0 (by decide) k hk, hstrand 1 (by decide) k hk, hstrand 2 (by decide) k hk,
    hstrand 3 (by decide) k hk] at hadd
  push_cast
  rw [hadd]
  ring

/-- The strands of the last chunk do not use more digits than a word has there. -/
theorem diluted_add_lt (htrim : ∀ j < d.spacing, ∃ u, trim j = (d.diluted u : Felt)) {j : Nat}
    (hj : j < d.spacing) (htop : (d.chunks - 1) * d.spacing + j < d.strands)
    (hused : d.topStrandBits j < d.bits) :
    d.diluted (w 2 ((d.chunks - 1) * d.spacing + j)) +
      d.diluted (w 3 ((d.chunks - 1) * d.spacing + j)) < 2 ^ (d.spacing * d.topStrandBits j) := by
  have hbound (u v : Nat) : d.diluted u + d.diluted v < 2 ^ (d.bits * d.spacing + 1) := by
    have hu := diluted_lt hspacing hplaces u
    have hv := diluted_lt hspacing hplaces v
    rw [pow_succ]
    omega
  have hle := bits_mul_spacing_le hplaces
  have heq := h.trim j hj hused
  rw [hstrand 2 (by decide) _ htop, hstrand 3 (by decide) _ htop] at heq
  generalize w 2 ((d.chunks - 1) * d.spacing + j) = u at heq ⊢
  generalize w 3 ((d.chunks - 1) * d.spacing + j) = v at heq ⊢
  split at heq
  · next hzero =>
    have hprime : 2 ^ 126 < starkPrime := by decide
    have hsum : d.diluted u + d.diluted v = 0 := by
      apply Felt.natCast_inj_of_lt _ (by decide)
      · rw [Nat.cast_add, heq, Nat.cast_zero]
      · exact ((hbound u v).trans_le (Nat.pow_le_pow_right (by decide) (by omega))).trans hprime
    rw [hsum]
    exact Nat.two_pow_pos _
  · next hpos =>
    obtain ⟨u', hu'⟩ := htrim j hj
    have hsplit : d.spacing * d.topStrandBits j + d.spacing * (d.bits - d.topStrandBits j) =
        d.bits * d.spacing := by
      rw [← mul_add, Nat.add_sub_cancel' hused.le, mul_comm]
    have hleast : d.spacing ≤ d.spacing * d.topStrandBits j :=
      Nat.le_mul_of_pos_right _ (Nat.pos_of_ne_zero hpos)
    have hprime : 2 ^ 251 < starkPrime := by decide
    have hscaled : (d.diluted u + d.diluted v) *
        2 ^ (d.spacing * (d.bits - d.topStrandBits j)) = d.diluted u' := by
      apply Felt.natCast_inj_of_lt
      · calc (d.diluted u + d.diluted v) * 2 ^ (d.spacing * (d.bits - d.topStrandBits j))
            < 2 ^ (d.bits * d.spacing + 1) * 2 ^ (d.spacing * (d.bits - d.topStrandBits j)) :=
              Nat.mul_lt_mul_of_pos_right (hbound u v) (Nat.two_pow_pos _)
          _ = 2 ^ (d.bits * d.spacing + 1 + d.spacing * (d.bits - d.topStrandBits j)) :=
              (pow_add 2 _ _).symm
          _ ≤ 2 ^ 251 := Nat.pow_le_pow_right (by decide) (by omega)
          _ < starkPrime := hprime
      · exact (diluted_lt_two_pow hspacing hplaces u').trans (by decide)
      · rw [Nat.cast_mul, Nat.cast_add, Nat.cast_pow, Nat.cast_ofNat, heq, hu']
    have hlt := diluted_lt hspacing hplaces u'
    rw [← hscaled, ← hsplit, pow_add] at hlt
    exact Nat.lt_of_mul_lt_mul_right hlt

/-- The values of an instance as words. -/
theorem val_eq (hbits : 0 < d.bits) (htotal : 0 < d.totalBits) (hword : d.totalBits < 252)
    (htrim : ∀ j < d.spacing, ∃ u, trim j = (d.diluted u : Felt)) :
    ((value 0).val < 2 ^ d.totalBits ∧ (value 1).val < 2 ^ d.totalBits) ∧
      (value 2).val = (value 0).val &&& (value 1).val ∧
      (value 3).val = (value 0).val ^^^ (value 1).val ∧
      disjunction.val = (value 0).val ||| (value 1).val := by
  have hle := bits_mul_spacing_le hplaces
  obtain ⟨⟨hx, hy⟩, hand, hxor⟩ := Dilution.joined_of_dilute_add hspacing hbits (by omega) htotal
    (fun k hk => h.diluted_add_eq hstrand hspacing hplaces hk)
    (fun j hj hused => h.diluted_add_lt hstrand hspacing hplaces htrim hj
      (Dilution.topStrand_lt (by omega) hbits htotal hj) hused)
  have hprime : 2 ^ d.totalBits < starkPrime :=
    (Nat.pow_le_pow_right (by decide) (Nat.lt_succ_iff.mp hword)).trans_lt
      (show 2 ^ 251 < starkPrime by decide)
  have hval {v : Nat} (hv : v < valueCount) (hlt : d.joined (w v) < 2 ^ d.totalBits) :
      (value v).val = d.joined (w v) := by
    rw [h.value_eq hstrand hv, Felt.val_natCast_of_lt (hlt.trans hprime)]
  have hor : disjunction.val = d.joined (w 0) ||| d.joined (w 1) := by
    rw [h.disjunction, h.value_eq hstrand (by decide), h.value_eq hstrand (by decide),
      ← Nat.cast_add, hand, hxor, and_add_xor hx hy,
      Felt.val_natCast_of_lt ((Nat.or_lt_two_pow hx hy).trans hprime)]
  rw [hval (v := 0) (by decide) hx, hval (v := 1) (by decide) hy,
    hval (v := 2) (by decide) (hand ▸ Nat.and_lt_two_pow _ hy),
    hval (v := 3) (by decide) (hxor ▸ Nat.xor_lt_two_pow hx hy)]
  exact ⟨⟨hx, hy⟩, hand, hxor, hor⟩

end Computes

end Computes

/-- In a layout whose diluted numbers leave room for a carry, on a trace whose pool holds the
dilutions of numbers of as many digits as a strand has and on which the constraints hold, every
instance has two words and the results of the operations on them. -/
theorem values_of_holds {c : LayoutConfig} {n modulus : Nat} {params : Option Pedersen.Params}
    {l : Layout} {d : Dilution} {cells : BitwiseCells} {columns : List (Array Felt)}
    {periodic : List PeriodicColumn} {b : Bindings}
    (hbuild : Layout.build c n params modulus = .ok l) (hword : n < 2 ^ 64)
    (hdilution : c.dilution = some d) (hspacing : 2 ≤ d.spacing)
    (hplaces : 2 * d.spacing * d.bits ≤ 251) (hcells : .bitwise cells ∈ l.components)
    (hpool : ∀ row < n, ∃ v < 2 ^ d.bits,
      traceCell columns cells.pool row = .ofNat (dilute v d.spacing d.bits))
    (hholds : ∀ k ∈ cells.constraints, k.Holds n columns periodic b) {i : Nat}
    (hi : i < n / cells.height) :
    ((cells.valueAt columns i 0).val < 2 ^ d.totalBits ∧
      (cells.valueAt columns i 1).val < 2 ^ d.totalBits) ∧
    (cells.valueAt columns i 2).val =
      (cells.valueAt columns i 0).val &&& (cells.valueAt columns i 1).val ∧
    (cells.valueAt columns i 3).val =
      (cells.valueAt columns i 0).val ^^^ (cells.valueAt columns i 1).val ∧
    (cells.disjunctionAt columns i).val =
      (cells.valueAt columns i 0).val ||| (cells.valueAt columns i 1).val := by
  obtain ⟨hn, hvalid, harranged⟩ := Layout.isArranged_of_build hbuild
  have hcell : cells.IsArranged c n := harranged _ hcells
  obtain rfl : cells.dilution = d := Option.some.inj (hcell.dilution.symm.trans hdilution)
  obtain ⟨-, hbits, -, -, htotal, htotal_lt⟩ :=
    LayoutConfig.isUsable_iff.mp (hvalid.dilution _ hdilution)
  choose! u hu using hpool
  have hrow {k : Nat} (hk : k < cells.height) : cells.height * i + k < n :=
    instance_row_lt hn hcell.disjunction.isPowerOfTwo_step hcell.height_le hi hk
  have hinstance : ∀ k ∈ cells.partitionConstraints ++ cells.operationConstraints ++
      cells.trimConstraints, k.HoldsOnInstance n columns periodic b cells.height i := by
    intro k hk
    refine (hholds k ?_).holdsOnInstance
    simp only [List.mem_append] at hk
    simp only [constraints, List.mem_append]
    tauto
  have hcomputes := (holdOnInstance_iff hn hword hcell hi).mp hinstance
  exact hcomputes.val_eq (w := fun v k => u (cells.height * i + cells.strandRow v k))
    (fun v hv k hk => (hu _ (hrow (strandRow_lt hcell hv hk))).2)
    hspacing hplaces hbits htotal htotal_lt
    (fun j hj => ⟨_, (hu _ (hrow (trimRow_lt hcell hj))).2⟩)

/-- A layout for words of three digits, whose second strand has a digit that is not used. -/
def tripleConfig : LayoutConfig where
  name := "triples"
  bitwise := some { ratio := 4, totalBits := 3 }
  dilutedPool := some { spacing := 2, bits := 2 }

/-- The cells of an instance that is the whole trace. -/
def tripleCells : BitwiseCells where
  dilution := ⟨2, 2, 3⟩
  pool := 6
  values := ⟨3, 16, 6⟩
  disjunction := ⟨3, 64, 14⟩

/-- A column of 64 cells with a few that are not zero. -/
def sparseColumn (cells : List (Nat × Nat)) : List Nat :=
  (List.range 64).map fun row => (cells.lookup row).getD 0

/-- The columns of the operation on five and six. -/
def tripleColumns : List (Array Felt) :=
  columnsOfNumbers (List.replicate 3 (sparseColumn []) ++
    [sparseColumn [(6, 100), (7, 5), (14, 104), (15, 7), (22, 101), (23, 6), (38, 102), (39, 4),
      (54, 103), (55, 3)]] ++
    List.replicate 2 (sparseColumn []) ++
    [sparseColumn [(0, 5), (8, 4), (16, 4), (24, 1), (33, 4), (40, 1), (56, 1)]])

theorem tripleColumns_hold : ∀ k ∈ tripleCells.constraints,
    k.Holds 64 tripleColumns [] ⟨[], List.replicate 13 (some 100), 0⟩ := by
  have hcheck : checkConstraints 64 tripleColumns tripleCells.constraints [] []
      (List.replicate 13 (some 100)) = .ok [] := by rfl
  exact (holds_of_checkConstraints_eq_nil hcheck).2.2

theorem values_triple :
    (tripleCells.valueAt tripleColumns 0 0).val = 5 ∧
      (tripleCells.valueAt tripleColumns 0 1).val = 6 ∧
      (tripleCells.valueAt tripleColumns 0 2).val = 5 &&& 6 ∧
      (tripleCells.valueAt tripleColumns 0 3).val = 5 ^^^ 6 ∧
      (tripleCells.disjunctionAt tripleColumns 0).val = 5 ||| 6 := by
  have hbuild : ∃ l, Layout.build tripleConfig 64 none = .ok l ∧
      .bitwise tripleCells ∈ l.components := ⟨_, rfl, List.mem_of_getElem? (i := 4) rfl⟩
  obtain ⟨l, hl, hcells⟩ := hbuild
  have hpool : ∀ row < 64, ∃ v < 2 ^ 2,
      traceCell tripleColumns tripleCells.pool row = .ofNat (dilute v 2 2) := by decide +kernel
  obtain ⟨-, hand, hxor, hor⟩ := values_of_holds (d := ⟨2, 2, 3⟩) (i := 0) hl (by decide) rfl
    (by decide) (by decide) hcells hpool tripleColumns_hold (by decide)
  exact ⟨rfl, rfl, hand, hxor, hor⟩

end BitwiseCells

end CairoTrace
