import CairoTrace.Builtin.Dilution
import CairoTrace.Proofs.Aggregate

/-!
# Dilutions of successive numbers

The dilution of a number is the sum of the powers of `2 ^ spacing` at its digits (`dilute_eq_sum`),
as long as it is a word of 256 digits. The numbers of one digit more are those below a power of two
and the same numbers once more after it, so that the differences between the dilutions of successive
numbers are a list twice with one difference in between (`Dilution.differences_dilute`). Its partial
sums are the dilutions (`Dilution.mem_partialSums_strides_iff`), and its aggregate has a closed form
with a step for each digit (`Dilution.dilutedAggregate_eq`).
-/

namespace CairoTrace

open Finset

/-! ## Diluted numbers as sums -/

theorem setBit_of_lt {w : Word} {i : Nat} (hi : i < 256) (hw : w < 2 ^ i) (b : Bool) :
    setBit w i b = w + if b then 2 ^ i else 0 := by
  rw [setBit, if_pos hi]
  cases b with
  | true =>
    have hor := Nat.two_pow_add_eq_or_of_lt hw 1
    rw [mul_one] at hor
    rw [if_pos rfl, if_pos rfl, Nat.one_shiftLeft, add_comm, hor, Nat.or_comm]
  | false =>
    rw [if_neg Bool.false_ne_true, if_neg Bool.false_ne_true, Nat.testBit_lt_two_pow hw,
      if_neg Bool.false_ne_true, add_zero]

/-- A digit is at most its place. -/
theorem digit_le (w bit place : Nat) : (if w.testBit bit then place else 0) ≤ place := by
  split
  · exact le_rfl
  · exact Nat.zero_le _

/-- A number of digits `spacing` places apart is below the place of the next digit. -/
theorem sum_digits_lt {spacing : Nat} (hspacing : 0 < spacing) (w bits : Nat) :
    (∑ i ∈ range bits, if w.testBit i then 2 ^ (i * spacing) else 0) < 2 ^ (bits * spacing) := by
  induction bits with
  | zero => simp
  | succ bits ih =>
    have hdigit := digit_le w bits (2 ^ (bits * spacing))
    calc ∑ i ∈ range (bits + 1), (if w.testBit i then 2 ^ (i * spacing) else 0)
        < 2 ^ (bits * spacing) + 2 ^ (bits * spacing) := by
          rw [sum_range_succ]
          omega
      _ = 2 ^ (bits * spacing + 1) := by ring
      _ ≤ 2 ^ ((bits + 1) * spacing) := by
          apply Nat.pow_le_pow_right (by decide)
          rw [add_mul, one_mul]
          omega

theorem dilute_eq_sum {w : Word} {spacing bits : Nat} (hspacing : 0 < spacing)
    (hplaces : bits * spacing ≤ 256) :
    dilute w spacing bits = ∑ i ∈ range bits, if w.testBit i then 2 ^ (i * spacing) else 0 := by
  induction bits with
  | zero => rfl
  | succ bits ih =>
    have hplace : bits * spacing < 256 := by
      rw [add_mul, one_mul] at hplaces
      omega
    rw [dilute, ih hplace.le, setBit_of_lt hplace (sum_digits_lt hspacing w bits), sum_range_succ]

/-- A digit above those that are diluted does not count. -/
theorem dilute_two_pow_add {v spacing bits : Nat} (hspacing : 0 < spacing)
    (hplaces : bits * spacing ≤ 256) :
    dilute (2 ^ bits + v) spacing bits = dilute v spacing bits := by
  rw [dilute_eq_sum hspacing hplaces, dilute_eq_sum hspacing hplaces]
  apply sum_congr rfl
  intro i hi
  rw [Nat.testBit_two_pow_add_gt (mem_range.mp hi)]

theorem dilute_succ {w : Word} {spacing bits : Nat} (hspacing : 0 < spacing)
    (hplaces : (bits + 1) * spacing ≤ 256) :
    dilute w spacing (bits + 1) =
      dilute w spacing bits + if w.testBit bits then 2 ^ (bits * spacing) else 0 := by
  have hplaces' : bits * spacing ≤ 256 := by
    rw [add_mul, one_mul] at hplaces
    omega
  rw [dilute_eq_sum hspacing hplaces, sum_range_succ, dilute_eq_sum hspacing hplaces']

theorem dilute_succ_of_lt {v spacing bits : Nat} (hspacing : 0 < spacing)
    (hplaces : (bits + 1) * spacing ≤ 256) (hv : v < 2 ^ bits) :
    dilute v spacing (bits + 1) = dilute v spacing bits := by
  rw [dilute_succ hspacing hplaces, Nat.testBit_lt_two_pow hv, if_neg Bool.false_ne_true, add_zero]

theorem dilute_succ_two_pow_add {v spacing bits : Nat} (hspacing : 0 < spacing)
    (hplaces : (bits + 1) * spacing ≤ 256) (hv : v < 2 ^ bits) :
    dilute (2 ^ bits + v) spacing (bits + 1) = 2 ^ (bits * spacing) + dilute v spacing bits := by
  have hplaces' : bits * spacing ≤ 256 := by
    rw [add_mul, one_mul] at hplaces
    omega
  have hdigit : (2 ^ bits + v).testBit bits = true := by
    rw [Nat.testBit_two_pow_add_eq, Nat.testBit_lt_two_pow hv, Bool.not_false]
  rw [dilute_succ hspacing hplaces, hdigit, if_pos rfl, dilute_two_pow_add hspacing hplaces',
    add_comm]

theorem dilute_zero {spacing bits : Nat} (hspacing : 0 < spacing)
    (hplaces : bits * spacing ≤ 256) : dilute 0 spacing bits = 0 := by
  rw [dilute_eq_sum hspacing hplaces]
  simp only [Nat.zero_testBit, Bool.false_eq_true, if_false, sum_const_zero]

namespace Dilution

open Aggregate

/-! ## Differences of dilutions -/

/-- The difference between the dilutions of `2 ^ i` and of the number before it, for the power
`m = 2 ^ spacing`. -/
def stride (m : Felt) (i : Nat) : Felt := m ^ i - ∑ k ∈ range i, m ^ k

/-- The differences between the dilutions of successive numbers of some digits. -/
def strides (m : Felt) : (bits : Nat) → List Felt
  | 0 => []
  | bits + 1 => strides m bits ++ stride m bits :: strides m bits

variable {m : Felt}

theorem strides_succ (bits : Nat) :
    strides m (bits + 1) = strides m bits ++ stride m bits :: strides m bits := rfl

theorem stride_succ (i : Nat) : stride m (i + 1) = stride m i + m ^ i * (m - 2) := by
  rw [stride, stride, sum_range_succ]
  ring

theorem length_strides (bits : Nat) : (strides m bits).length + 1 = 2 ^ bits := by
  induction bits with
  | zero => rfl
  | succ bits ih =>
    rw [strides, List.length_append, List.length_cons, pow_succ, ← ih]
    ring

theorem sum_strides (bits : Nat) : (strides m bits).sum = ∑ k ∈ range bits, m ^ k := by
  induction bits with
  | zero => rfl
  | succ bits ih =>
    rw [strides, List.sum_append, List.sum_cons, ih, sum_range_succ, stride]
    ring

/-- The differences are those between the dilutions of successive numbers. -/
theorem differences_dilute {spacing bits : Nat} (hspacing : 0 < spacing)
    (hplaces : bits * spacing ≤ 256) :
    differences (fun v => .ofNat (dilute v spacing bits)) (2 ^ bits - 1) =
      strides (2 ^ spacing) bits := by
  induction bits with
  | zero => rfl
  | succ bits ih =>
    have hplaces' : bits * spacing ≤ 256 := by
      rw [add_mul, one_mul] at hplaces
      omega
    have hpos : 0 < 2 ^ bits := Nat.two_pow_pos bits
    have hcount : 2 ^ (bits + 1) - 1 = 2 ^ bits - 1 + 1 + (2 ^ bits - 1) := by
      rw [pow_succ]
      omega
    have hlow {v : Nat} (hv : v < 2 ^ bits) : (.ofNat (dilute v spacing (bits + 1)) : Felt) =
        .ofNat (dilute v spacing bits) := by
      rw [dilute_succ_of_lt hspacing hplaces hv]
    have hhigh {v : Nat} (hv : v < 2 ^ bits) :
        (.ofNat (dilute (2 ^ bits + v) spacing (bits + 1)) : Felt) =
          (2 ^ spacing) ^ bits + .ofNat (dilute v spacing bits) := by
      rw [dilute_succ_two_pow_add hspacing hplaces hv]
      change ((2 ^ (bits * spacing) + dilute v spacing bits : Nat) : Felt) =
        (2 ^ spacing) ^ bits + (dilute v spacing bits : Felt)
      rw [Nat.cast_add, Nat.cast_pow, Nat.cast_ofNat, ← pow_mul, mul_comm spacing]
    have hzero : (.ofNat (dilute 0 spacing bits) : Felt) = 0 :=
      congrArg Residue.ofNat (dilute_zero hspacing hplaces')
    have hlast : (.ofNat (dilute (2 ^ bits - 1) spacing bits) : Felt) =
        ∑ k ∈ range bits, (2 ^ spacing) ^ k := by
      have hsum := sum_differences (fun v => (.ofNat (dilute v spacing bits) : Felt)) (2 ^ bits - 1)
      rw [ih hplaces', sum_strides, hzero, sub_zero] at hsum
      exact hsum.symm
    rw [hcount, differences_add, differences_succ, Nat.sub_add_cancel hpos, List.append_assoc,
      List.singleton_append, strides, ← ih hplaces']
    congr 1
    · exact differences_congr fun i hi => by rw [hlow (by omega), hlow (by omega)]
    · congr 1
      · have hpower := hhigh hpos
        rw [add_zero, hzero, add_zero] at hpower
        rw [stride, hpower, hlow (Nat.sub_lt hpos one_pos), hlast]
      · refine differences_congr fun i hi => ?_
        rw [hhigh (by omega), hhigh (by omega), add_sub_add_left_eq_sub]

/-- The differences step through the dilutions. -/
theorem mem_partialSums_strides_iff {x : Felt} {spacing bits : Nat} (hspacing : 0 < spacing)
    (hplaces : bits * spacing ≤ 256) :
    x ∈ partialSums (strides (2 ^ spacing) bits) ↔
      ∃ v < 2 ^ bits, (.ofNat (dilute v spacing bits) : Felt) = x := by
  have hpos : 0 < 2 ^ bits := Nat.two_pow_pos bits
  have hzero : (.ofNat (dilute 0 spacing bits) : Felt) = 0 :=
    congrArg Residue.ofNat (dilute_zero hspacing hplaces)
  rw [← differences_dilute hspacing hplaces, mem_partialSums_differences hzero]
  exact exists_congr fun v => and_congr_left fun _ => Nat.le_sub_one_iff_lt hpos

/-! ## Their aggregate -/

/-- The steps of the closed form, from the numbers of `bits` digits on: a step doubles the list of
differences around the next stride. -/
theorem aggregateFrom_eq (z alpha : Felt) (steps bits : Nat) :
    Permutation.aggregateFrom z alpha m steps ((factor (strides m (bits + 1))).eval z)
        ((offset (strides m (bits + 1))).eval z) (stride m bits) (m ^ bits * (m - 2)) =
      (factor (strides m (bits + 1 + steps))).eval z +
        alpha * (offset (strides m (bits + 1 + steps))).eval z := by
  induction steps generalizing bits with
  | zero => rw [Permutation.aggregateFrom, add_zero, mul_comm]
  | succ steps ih =>
    have hstep : Permutation.aggregateStep z ((factor (strides m (bits + 1))).eval z)
        ((offset (strides m (bits + 1))).eval z) (stride m (bits + 1)) =
        ((factor (strides m (bits + 1 + 1))).eval z,
          (offset (strides m (bits + 1 + 1))).eval z) := by
      rw [Permutation.aggregateStep, strides_succ (bits + 1), factor_append, offset_append,
        factor_cons, offset_cons]
      simp only [Polynomial.eval_mul, Polynomial.eval_add, Polynomial.eval_one, Polynomial.eval_C,
        Polynomial.eval_X, Prod.mk.injEq]
      constructor
      · ring
      · ring
    have hgrowth : m ^ bits * (m - 2) * m = m ^ (bits + 1) * (m - 2) := by ring
    have hcount : bits + 1 + (steps + 1) = bits + 1 + 1 + steps := by omega
    rw [Permutation.aggregateFrom, ← stride_succ, hgrowth, hcount, ← ih]
    simp only [hstep]

/-- The closed form is the aggregate of the dilutions of all numbers of some digits. -/
theorem dilutedAggregate_eq {z alpha : Felt} {spacing bits : Nat} (hbits : 0 < bits) :
    Permutation.dilutedAggregate z alpha spacing bits =
      (factor (strides (2 ^ spacing) bits)).eval z +
        alpha * (offset (strides (2 ^ spacing) bits)).eval z := by
  have hcount : bits = 0 + 1 + (bits - 1) := by omega
  have hfactor : (factor (strides (2 ^ spacing) (0 + 1))).eval z = z + 1 := by
    simp [strides, stride, factor_cons, add_comm]
  have hoffset : (offset (strides (2 ^ spacing) (0 + 1))).eval z = 1 := by
    simp [strides, stride, offset_cons]
  have hstride : stride (2 ^ spacing) 0 = 1 := by
    rw [stride, pow_zero, range_zero, sum_empty, sub_zero]
  have hgrowth : (2 ^ spacing : Felt) ^ 0 * (2 ^ spacing - 2) = 2 ^ spacing - 2 := by
    rw [pow_zero, one_mul]
  have h := aggregateFrom_eq (m := 2 ^ spacing) z alpha (bits - 1) 0
  rw [hfactor, hoffset, hstride, hgrowth, ← hcount] at h
  exact h

end Dilution

end CairoTrace
