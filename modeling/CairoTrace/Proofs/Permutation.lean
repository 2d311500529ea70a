import CairoTrace.Pool.Permutation
import CairoTrace.Proofs.Result
import CairoTrace.Proofs.StarkField
import Mathlib.LinearAlgebra.Lagrange

/-!
# Permutation arguments

A column of products relates two lists of terms (`IsProductColumn`). Its rows are recurrences
without a division, so the products of all terms agree up to the last cell even where a term is zero
(`IsProductColumn.prod_mul_eq`). If that is so for as many challenges as there are terms, then the
terms are the same up to their order (`map_eq_map_of_productColumns`): the two products are monic
polynomials in the challenge, and their difference has a smaller degree than it has roots.

A column that climbs by one at most is its first cell and a number of steps
(`Climbs.eq_add_height`), which is the same in the field and over the integers as long as there are
fewer rows than field elements.
-/

namespace CairoTrace

/-- A power of two that some distinct elements number is below the Stark prime by a wide margin. -/
theorem le_two_pow_of_le_card {n : Nat} (hn : isPowerOfTwo n = true) {zs : Finset Felt}
    (hzs : n ≤ zs.card) : n ≤ 2 ^ 251 := by
  obtain ⟨k, rfl⟩ := (isPowerOfTwo_iff n).mp hn
  have hlt : 2 ^ k < 2 ^ 252 := by
    calc 2 ^ k ≤ zs.card := hzs
      _ ≤ Fintype.card Felt := Finset.card_le_univ zs
      _ = starkPrime := Felt.card_felt
      _ < 2 ^ 252 := by decide
  have hk : k < 252 := (Nat.pow_lt_pow_iff_right (by decide)).mp hlt
  exact Nat.pow_le_pow_right (by decide) (by omega)

namespace Permutation

open Finset

/-! ## Columns of products -/

/-- A column whose first cell is the quotient of the first terms, which grows by the quotients of
the next ones and ends with a given element. -/
@[mk_iff]
structure IsProductColumn (m : Nat) (a b products : Nat → Felt) (last : Felt) : Prop where
  init : b 0 * products 0 = a 0
  step : ∀ i, i + 1 < m → b (i + 1) * products (i + 1) = a (i + 1) * products i
  last : products (m - 1) = last

namespace IsProductColumn

variable {m : Nat} {a b products : Nat → Felt} {last : Felt}

theorem prod_range_mul (h : IsProductColumn m a b products last) {i : Nat} (hi : i < m) :
    (∏ j ∈ range (i + 1), b j) * products i = ∏ j ∈ range (i + 1), a j := by
  induction i with
  | zero =>
    rw [prod_range_one, prod_range_one]
    exact h.init
  | succ i ih =>
    have hi' : i < m := by omega
    calc (∏ j ∈ range (i + 1 + 1), b j) * products (i + 1)
        = (∏ j ∈ range (i + 1), b j) * (b (i + 1) * products (i + 1)) := by
          rw [prod_range_succ, mul_assoc]
      _ = (∏ j ∈ range (i + 1), b j) * products i * a (i + 1) := by
          rw [h.step i hi]
          ring
      _ = ∏ j ∈ range (i + 1 + 1), a j := by
          rw [ih hi', ← prod_range_succ]

/-- The products of all terms agree up to the last cell. -/
theorem prod_mul_eq (h : IsProductColumn m a b products last) (hm : 0 < m) :
    (∏ i ∈ range m, b i) * last = ∏ i ∈ range m, a i := by
  have hlast := h.prod_range_mul (i := m - 1) (by omega)
  rwa [Nat.sub_add_cancel hm, h.last] at hlast

end IsProductColumn

/-! ## Equal products -/

theorem eval_prod_X_sub_C (s : Multiset Felt) (z : Felt) :
    ((s.map fun a => Polynomial.X - Polynomial.C a).prod).eval z = (s.map (z - ·)).prod := by
  rw [Polynomial.eval_multiset_prod, Multiset.map_map]
  simp

/-- Two collections of as many elements are equal if the products of their distances to enough
challenges are. -/
theorem eq_of_prod_sub_eq {s t : Multiset Felt} (hcard : s.card = t.card) {zs : Finset Felt}
    (hzs : s.card ≤ zs.card) (h : ∀ z ∈ zs, (s.map (z - ·)).prod = (t.map (z - ·)).prod) :
    s = t := by
  let p (u : Multiset Felt) : Polynomial Felt :=
    (u.map fun a => Polynomial.X - Polynomial.C a).prod
  have hmonic (u : Multiset Felt) : (p u).Monic :=
    Polynomial.monic_multiset_prod_of_monic _ _ fun a _ => Polynomial.monic_X_sub_C a
  have hdegree (u : Multiset Felt) : (p u).degree = u.card := by
    rw [Polynomial.degree_eq_natDegree (hmonic u).ne_zero]
    exact congrArg _ (Polynomial.natDegree_multiset_prod_X_sub_C_eq_card u)
  have hp : p s = p t := by
    apply Polynomial.eq_of_degree_sub_lt_of_eval_finset_eq zs
    · calc (p s - p t).degree
          < (p s).degree := by
            apply Polynomial.degree_sub_lt_left
            · rw [hdegree, hdegree, hcard]
            · exact (hmonic s).ne_zero
            · rw [(hmonic s).leadingCoeff, (hmonic t).leadingCoeff]
        _ = s.card := hdegree s
        _ ≤ zs.card := by exact_mod_cast hzs
    · intro z hz
      rw [eval_prod_X_sub_C, eval_prod_X_sub_C, h z hz]
  rw [← Polynomial.roots_multiset_prod_X_sub_C s, ← Polynomial.roots_multiset_prod_X_sub_C t]
  exact congrArg Polynomial.roots hp

/-- Columns of products that end with one, for as many challenges as there are rows, show that two
columns have the same cells up to their order. -/
theorem map_eq_map_of_productColumns {m : Nat} (hm : 0 < m) {a b : Nat → Felt} {zs : Finset Felt}
    (hzs : m ≤ zs.card)
    (h : ∀ z ∈ zs, ∃ products, IsProductColumn m (z - a ·) (z - b ·) products 1) :
    (Multiset.range m).map a = (Multiset.range m).map b := by
  have hle : ((Multiset.range m).map a).card ≤ zs.card := by
    rwa [Multiset.card_map, Multiset.card_range]
  apply eq_of_prod_sub_eq ?_ hle
  · intro z hz
    obtain ⟨products, hproducts⟩ := h z hz
    have hprod := hproducts.prod_mul_eq hm
    rw [mul_one] at hprod
    rw [Multiset.map_map, Multiset.map_map]
    exact hprod.symm
  · rw [Multiset.card_map, Multiset.card_map]

theorem exists_eq_iff_of_productColumns {m : Nat} (hm : 0 < m) {a b : Nat → Felt}
    {zs : Finset Felt} (hzs : m ≤ zs.card)
    (h : ∀ z ∈ zs, ∃ products, IsProductColumn m (z - a ·) (z - b ·) products 1) (x : Felt) :
    (∃ i < m, a i = x) ↔ ∃ i < m, b i = x := by
  have hmem := congrArg (x ∈ ·) (map_eq_map_of_productColumns hm hzs h)
  simpa only [Multiset.mem_map, Multiset.mem_range, eq_iff_iff] using hmem

/-! ## The last product of the memory -/

/-- The public memory has a quotient exactly if it fits and its own product is not zero. -/
theorem memoryQuotient_eq_ok_iff {z alpha quotient : Felt} {n step : Nat}
    {memory : List MemoryEntry} {padding : MemoryEntry} :
    memoryQuotient z alpha n step memory padding = .ok quotient ↔
      memory.length ≤ n / step ∧
      (memory.map (memoryTerm z alpha)).prod *
        memoryTerm z alpha padding ^ (n / step - memory.length) ≠ 0 ∧
      z ^ (n / step) * ((memory.map (memoryTerm z alpha)).prod *
        memoryTerm z alpha padding ^ (n / step - memory.length))⁻¹ = quotient := by
  have hprod : memory.foldl (fun p e => p * memoryTerm z alpha e) 1 =
      (memory.map (memoryTerm z alpha)).prod := by
    rw [List.prod_eq_foldl, List.foldl_map]
  simp only [memoryQuotient, hprod, Result.ite_error_eq_ok_iff, Residue.isZero_iff,
    Except.ok.injEq, not_lt, ne_eq]

/-! ## Columns that climb -/

/-- Whether a column grows by zero or one from each of its first `m` rows to the next. -/
def Climbs (m : Nat) (s : Nat → Felt) : Prop :=
  ∀ i, i + 1 < m → s (i + 1) - s i = 0 ∨ s (i + 1) - s i = 1

theorem ofNat_succ_sub_ofNat (k : Nat) : (.ofNat (k + 1) : Felt) - .ofNat k = 1 := by
  change ((k + 1 : Nat) : Felt) - (k : Felt) = 1
  rw [Nat.cast_succ, add_sub_cancel_left]

/-- Numbers that grow by zero or one do so as field elements. -/
theorem ofNat_sub_ofNat_eq {j k : Nat} (h : k = j ∨ k = j + 1) :
    (.ofNat k : Felt) - .ofNat j = 0 ∨ (.ofNat k : Felt) - .ofNat j = 1 := by
  rcases h with rfl | rfl
  · exact Or.inl (sub_self _)
  · exact Or.inr (ofNat_succ_sub_ofNat j)

/-- The number of rows on which a column has changed up to a row. -/
def height (s : Nat → Felt) : Nat → Nat
  | 0 => 0
  | i + 1 => if s (i + 1) = s i then height s i else height s i + 1

variable {m : Nat} {s : Nat → Felt}

theorem height_succ_le (i : Nat) : height s (i + 1) ≤ height s i + 1 := by
  rw [height]
  split
  · omega
  · omega

theorem height_le (i : Nat) : height s i ≤ i := by
  induction i with
  | zero => exact le_rfl
  | succ i ih =>
    have hstep := height_succ_le (s := s) i
    omega

theorem height_mono : Monotone (height s) := by
  apply monotone_nat_of_le_succ
  intro i
  rw [height]
  split
  · exact le_rfl
  · exact Nat.le_succ _

/-- A column does not change between rows of the same height. -/
theorem eq_of_height_succ_eq {i : Nat} (h : height s (i + 1) = height s i) : s (i + 1) = s i := by
  by_contra hne
  rw [height, if_neg hne] at h
  omega

namespace Climbs

theorem eq_add_height (h : Climbs m s) {i : Nat} (hi : i < m) : s i = s 0 + height s i := by
  induction i with
  | zero => rw [height, Nat.cast_zero, add_zero]
  | succ i ih =>
    have hprev := ih (by omega)
    rw [height]
    split
    · next hsame => rw [hsame, hprev]
    · next hne =>
      have hstep : s (i + 1) - s i = 1 := (h i hi).resolve_left fun h0 => hne (sub_eq_zero.mp h0)
      rw [Nat.cast_add, Nat.cast_one, ← add_assoc, ← hprev]
      exact (sub_eq_iff_eq_add'.mp hstep)

/-- A climbing column whose first cell is a number has numbers in all cells, if they do not reach
the Stark prime. -/
theorem val_eq (h : Climbs m s) {start : Nat} (hstart : s 0 = start)
    (hbound : start + m ≤ starkPrime) {i : Nat} (hi : i < m) : (s i).val = start + height s i := by
  have hle := height_le (s := s) i
  rw [h.eq_add_height hi, hstart, ← Nat.cast_add]
  exact Felt.val_natCast_of_lt (by omega)

end Climbs

end Permutation

end CairoTrace
