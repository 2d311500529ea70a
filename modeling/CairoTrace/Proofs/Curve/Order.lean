import CairoTrace.Proofs.Curve.Homogeneous

/-!
# The order of the generator

The number of points of the curve is prime by Lucas's test (`curveOrder_prime`), down a chain of
prime divisors each of which passes the test, too. So scalars are a field, and as the generator
has this number as its order (`CurvePoint.addOrderOf_generator`), its multiples depend on the scalar
alone (`CurvePoint.nsmul_generator_eq_iff`).
-/

namespace CairoTrace

/-! ## The chain of primes -/

/-- Lucas's test for a number whose predecessor is the product of known primes. -/
theorem Residue.prime_of_prod_eq {m : Nat} [Modulus m] (a : Residue m) {factors : List Nat}
    (hprime : ∀ q ∈ factors, q.Prime) (hprod : factors.prod = m - 1) (hpow : a ^ (m - 1) = 1)
    (hne : ∀ q ∈ factors, a ^ ((m - 1) / q) ≠ 1) : m.Prime := by
  refine prime_of_pow a (fun q hq hdvd => ?_) hpow hne
  rw [← hprod] at hdvd
  exact mem_list_primes_of_dvd_prod hq.prime (fun p hp => (hprime p hp).prime) hdvd

section Chain

local instance {n : Nat} : Modulus (n + 1) := ⟨n.succ_pos⟩

theorem prime_11753132899 : Nat.Prime 11753132899 := by
  have hprime : ∀ q ∈ [2, 3, 13, 19, 41, 67, 2887], Nat.Prime q := by norm_num
  exact Residue.prime_of_prod_eq (.ofNat 3) hprime (by decide) (by decide)
    (by decide)

theorem prime_12904939923103 : Nat.Prime 12904939923103 := by
  have hprime : ∀ q ∈ [2, 3, 3, 61, 11753132899], Nat.Prime q := by
    simp only [List.forall_mem_cons, prime_11753132899]
    norm_num
  exact Residue.prime_of_prod_eq (.ofNat 3) hprime (by decide) (by decide)
    (by decide)

theorem prime_1803099112058626586861 : Nat.Prime 1803099112058626586861 := by
  have hprime : ∀ q ∈ [2, 2, 5, 37, 43, 4391, 12904939923103], Nat.Prime q := by
    simp only [List.forall_mem_cons, prime_12904939923103]
    norm_num
  exact Residue.prime_of_prod_eq (.ofNat 2) hprime (by decide) (by decide)
    (by decide)

theorem prime_28547348873 : Nat.Prime 28547348873 := by
  have hprime : ∀ q ∈ [2, 2, 2, 7, 17, 53, 565787], Nat.Prime q := by norm_num
  exact Residue.prime_of_prod_eq (.ofNat 3) hprime (by decide) (by decide)
    (by decide)

/-- The greatest prime divisor of the predecessor of the number of points. -/
theorem prime_divisor :
    Nat.Prime 5470365079085120887157193270902448565659295524958143968059153 := by
  have hprime : ∀ q ∈ [2, 2, 2, 2, 3, 131797, 10108547, 22206313, 74837449, 28547348873,
      1803099112058626586861], Nat.Prime q := by
    simp only [List.forall_mem_cons, prime_28547348873, prime_1803099112058626586861]
    norm_num
  exact Residue.prime_of_prod_eq (.ofNat 15) hprime (by decide) (by decide +kernel)
    (by decide +kernel)

end Chain

/-- The number of points is prime. -/
theorem curveOrder_prime : Nat.Prime curveOrder := by
  have hprime : ∀ q ∈ [2, 3, 1481071, 74436419,
      5470365079085120887157193270902448565659295524958143968059153], Nat.Prime q := by
    simp only [List.forall_mem_cons, prime_divisor]
    norm_num
  exact Residue.prime_of_prod_eq (.ofNat 3) hprime (by decide) (by decide +kernel)
    (by decide +kernel)

instance : Fact (Nat.Prime curveOrder) := ⟨curveOrder_prime⟩
instance : Fact (2 < curveOrder) := ⟨by decide⟩

/-! ## Multiples of the generator -/

namespace CurvePoint

/-- The last multiple of the generator before zero is its negative. -/
theorem pred_nsmul_generator : (curveOrder - 1) • generator = -generator :=
  nsmul_eq_of_isMultiple shift_ne_zero generator_ne_zero
    (neg_ne_zero.mpr generator_ne_zero) (by decide +kernel) (by decide) (by decide +kernel)

theorem addOrderOf_generator : addOrderOf generator = curveOrder := by
  refine addOrderOf_eq_prime ?_ generator_ne_zero
  have hsucc : curveOrder = curveOrder - 1 + 1 := by decide
  rw [hsucc, succ_nsmul, pred_nsmul_generator, neg_add_cancel]

/-- Multiples of the generator depend on the scalar alone. -/
theorem nsmul_generator_eq_iff {j k : Nat} :
    j • generator = k • generator ↔ (j : Scalar) = (k : Scalar) := by
  rw [nsmul_eq_nsmul_iff_modEq, addOrderOf_generator]
  exact ⟨fun h => Residue.ext_val h, congrArg Residue.val⟩

theorem nsmul_generator_ne_zero {k : Scalar} (hk : k ≠ 0) : k.val • generator ≠ 0 := by
  intro hzero
  rw [← zero_nsmul generator, nsmul_generator_eq_iff, Nat.cast_zero] at hzero
  exact hk (Residue.natCast_val k ▸ hzero)

end CurvePoint

end CairoTrace
