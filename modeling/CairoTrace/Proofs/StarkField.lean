import CairoTrace.Felt
import Mathlib.FieldTheory.Finite.Basic
import Mathlib.NumberTheory.LucasPrimality
import Mathlib.RingTheory.RootsOfUnity.PrimitiveRoots
import Mathlib.Tactic

/-!
# The Stark field is a field

Residues are a commutative ring (`Residue.toZMod` carries the laws over from the integers modulo
`m`). The modulus of the Stark field is prime by Lucas's test, with three as its witness
(`starkPrime_prime`), so that `Felt` is a field and three generates its multiplicative group
(`orderOf_generator`). The chosen element of order `n` has that order whenever `n` divides the
order of the group (`rootOfUnity_isPrimitiveRoot`), which holds of every power of two that is a
length of a trace (`isPrimitiveRoot_of_isPowerOfTwo`).
-/

namespace CairoTrace

namespace Residue

variable {m : Nat}

/-! ## The ring of residues -/

/-- A residue as an element of the ring of integers modulo `m`. -/
def toZMod (a : Residue m) : ZMod m := (a.val : ZMod m)

theorem toZMod_injective : Function.Injective (toZMod : Residue m → ZMod m) := by
  intro a b h
  have hab : a.val % m = b.val % m := (ZMod.natCast_eq_natCast_iff' _ _ _).mp h
  rw [Nat.mod_eq_of_lt a.isLt, Nat.mod_eq_of_lt b.isLt] at hab
  exact ext_val hab

variable [Modulus m]

@[simp] theorem toZMod_ofNat (n : Nat) : (ofNat n : Residue m).toZMod = n := by
  simp [toZMod]

theorem toZMod_zero : (0 : Residue m).toZMod = 0 := by
  rw [show (0 : Residue m) = ofNat 0 from rfl, toZMod_ofNat, Nat.cast_zero]

theorem toZMod_one : (1 : Residue m).toZMod = 1 := by
  rw [show (1 : Residue m) = ofNat 1 from rfl, toZMod_ofNat, Nat.cast_one]

theorem toZMod_add (a b : Residue m) : (a + b).toZMod = a.toZMod + b.toZMod := by
  rw [show a + b = ofNat (a.val + b.val) from rfl, toZMod_ofNat, Nat.cast_add]
  rfl

theorem toZMod_mul (a b : Residue m) : (a * b).toZMod = a.toZMod * b.toZMod := by
  rw [show a * b = ofNat (a.val * b.val) from rfl, toZMod_ofNat, Nat.cast_mul]
  rfl

theorem toZMod_neg (a : Residue m) : (-a).toZMod = -a.toZMod := by
  rw [show -a = ofNat (m - a.val) from rfl, toZMod_ofNat, Nat.cast_sub a.isLt.le,
    ZMod.natCast_self, zero_sub]
  rfl

theorem toZMod_sub (a b : Residue m) : (a - b).toZMod = a.toZMod - b.toZMod := by
  rw [show a - b = ofNat (a.val + (m - b.val)) from rfl, toZMod_ofNat, Nat.cast_add,
    Nat.cast_sub b.isLt.le, ZMod.natCast_self, zero_sub, ← sub_eq_add_neg]
  rfl

/-- Repeated squaring computes the power if the exponent has no more digits than there are
squarings. -/
theorem toZMod_powBits (bits : Nat) (a : Residue m) (e : Nat) (he : e < 2 ^ bits) :
    (powBits a bits e).toZMod = a.toZMod ^ e := by
  induction bits generalizing a e with
  | zero =>
    obtain rfl : e = 0 := by simpa using he
    rw [powBits, toZMod_ofNat, Nat.cast_one, pow_zero]
  | succ bits ih =>
    have hhalf : e / 2 < 2 ^ bits := by rw [pow_succ] at he; omega
    have hsquare : (powBits (mul a a) bits (e / 2)).toZMod = a.toZMod ^ (2 * (e / 2)) := by
      rw [ih _ _ hhalf, show mul a a = a * a from rfl, toZMod_mul, ← sq, ← pow_mul]
    rw [powBits]
    split
    · next hodd =>
      have hmul := toZMod_mul a (powBits (mul a a) bits (e / 2))
      rw [hsquare, ← pow_succ', show 2 * (e / 2) + 1 = e by omega] at hmul
      exact hmul
    · next heven =>
      rw [hsquare, show 2 * (e / 2) = e by omega]

theorem toZMod_pow (a : Residue m) (e : Nat) : (a ^ e).toZMod = a.toZMod ^ e :=
  toZMod_powBits _ a e Nat.lt_log2_self

instance : NatCast (Residue m) := ⟨ofNat⟩
instance : IntCast (Residue m) := ⟨fun z => ofNat (z % m).toNat⟩
instance : SMul ℕ (Residue m) := ⟨fun n a => ofNat n * a⟩
instance : SMul ℤ (Residue m) := ⟨fun z a => ofNat (z % m).toNat * a⟩

theorem toZMod_intCast (z : ℤ) : (z : Residue m).toZMod = z := by
  have hm : (0 : ℤ) < m := by exact_mod_cast (Modulus.pos : 0 < m)
  have hz : (((z % m).toNat : ℤ) : ZMod m) = z := by
    rw [Int.toNat_of_nonneg (Int.emod_nonneg _ hm.ne'), ZMod.intCast_mod]
  rw [show (z : Residue m) = ofNat (z % m).toNat from rfl, toZMod_ofNat]
  exact_mod_cast hz

theorem toZMod_nsmul (n : ℕ) (a : Residue m) : (n • a).toZMod = n • a.toZMod := by
  rw [show n • a = ofNat n * a from rfl, toZMod_mul, toZMod_ofNat, nsmul_eq_mul]

theorem toZMod_zsmul (z : ℤ) (a : Residue m) : (z • a).toZMod = z • a.toZMod := by
  rw [show z • a = (z : Residue m) * a from rfl, toZMod_mul, toZMod_intCast, zsmul_eq_mul]

instance : CommRing (Residue m) :=
  toZMod_injective.commRing toZMod toZMod_zero toZMod_one toZMod_add toZMod_mul toZMod_neg
    toZMod_sub toZMod_nsmul toZMod_zsmul toZMod_pow toZMod_ofNat toZMod_intCast

theorem natCast_val (a : Residue m) : (a.val : Residue m) = a :=
  ext_val (Nat.mod_eq_of_lt a.isLt)

@[simp] theorem isZero_iff (a : Residue m) : a.isZero = true ↔ a = 0 := by
  have hzero : (0 : Residue m).val = 0 := Nat.zero_mod m
  constructor
  · intro h
    exact ext_val ((beq_iff_eq.mp h).trans hzero.symm)
  · rintro rfl
    exact beq_iff_eq.mpr hzero

/-! ## Fields of residues -/

theorem mul_inv_self [Fact (Nat.Prime m)] [Fact (2 < m)] {a : Residue m} (ha : a ≠ 0) :
    a * a⁻¹ = 1 := by
  apply toZMod_injective
  have hne : a.toZMod ≠ 0 := fun h => ha (toZMod_injective (h.trans toZMod_zero.symm))
  have hexp : m - 2 + 1 = m - 1 := by have := Fact.out (p := 2 < m); omega
  rw [show a⁻¹ = a ^ (m - 2) from rfl, toZMod_mul, toZMod_pow, ← pow_succ', hexp,
    ZMod.pow_card_sub_one_eq_one hne, toZMod_one]

theorem zero_inv [Fact (2 < m)] : (0 : Residue m)⁻¹ = 0 := by
  rw [show (0 : Residue m)⁻¹ = 0 ^ (m - 2) from rfl]
  exact zero_pow (Nat.sub_ne_zero_of_lt Fact.out)

theorem exists_ne [Fact (Nat.Prime m)] : ∃ a b : Residue m, a ≠ b := by
  refine ⟨0, 1, fun h => zero_ne_one (α := ZMod m) ?_⟩
  rw [← toZMod_zero, h, toZMod_one]

instance [Fact (Nat.Prime m)] [Fact (2 < m)] : Field (Residue m) where
  inv := Residue.inv
  div := fun a b => a * b⁻¹
  exists_pair_ne := exists_ne
  mul_inv_cancel _ := mul_inv_self
  inv_zero := zero_inv
  nnqsmul := _
  nnqsmul_def := fun _ _ => rfl
  qsmul := _
  qsmul_def := fun _ _ => rfl

/-- Lucas's test: a number is prime if a residue has the order that all but zero would have. -/
theorem prime_of_pow (a : Residue m) {factors : List Nat}
    (hmem : ∀ q, q.Prime → q ∣ m - 1 → q ∈ factors) (hpow : a ^ (m - 1) = 1)
    (hne : ∀ q ∈ factors, a ^ ((m - 1) / q) ≠ 1) : m.Prime := by
  refine lucas_primality m a.toZMod ?_ fun q hq hdvd => ?_
  · rw [← toZMod_pow, hpow, toZMod_one]
  · rw [← toZMod_pow, ← toZMod_one]
    exact toZMod_injective.ne (hne q (hmem q hq hdvd))

end Residue

/-! ## The modulus is prime -/

theorem starkPrime_sub_one : starkPrime - 1 = 2 ^ 192 * (5 * 7 * 98714381 * 166848103) := by
  decide

/-- The prime divisors of the order of the multiplicative group. -/
def orderPrimes : List Nat := [2, 5, 7, 98714381, 166848103]

theorem mem_orderPrimes {q : Nat} (hq : q.Prime) (hdvd : q ∣ starkPrime - 1) :
    q ∈ orderPrimes := by
  have h5 : Nat.Prime 5 := by norm_num
  have h7 : Nat.Prime 7 := by norm_num
  have h98714381 : Nat.Prime 98714381 := by norm_num
  have h166848103 : Nat.Prime 166848103 := by norm_num
  rw [starkPrime_sub_one, hq.dvd_mul, hq.dvd_mul, hq.dvd_mul, hq.dvd_mul,
    Nat.prime_dvd_prime_iff_eq hq h5, Nat.prime_dvd_prime_iff_eq hq h7,
    Nat.prime_dvd_prime_iff_eq hq h98714381, Nat.prime_dvd_prime_iff_eq hq h166848103] at hdvd
  rw [orderPrimes]
  rcases hdvd with h2 | (((rfl | rfl) | rfl) | rfl)
  · obtain rfl := (Nat.prime_dvd_prime_iff_eq hq Nat.prime_two).mp (hq.dvd_of_dvd_pow h2)
    simp
  all_goals simp

theorem generator_pow_order : Felt.generator ^ (starkPrime - 1) = 1 := by
  decide +kernel

theorem generator_pow_ne_one :
    ∀ q ∈ orderPrimes, Felt.generator ^ ((starkPrime - 1) / q) ≠ 1 := by
  decide +kernel

/-- Three has order `p - 1` modulo the Stark prime `p`. -/
theorem starkPrime_prime : Nat.Prime starkPrime :=
  Residue.prime_of_pow Felt.generator (fun _ => mem_orderPrimes) generator_pow_order
    generator_pow_ne_one

instance : Fact (Nat.Prime starkPrime) := ⟨starkPrime_prime⟩
instance : Fact (2 < starkPrime) := ⟨by decide⟩

namespace Felt

instance : Fintype Felt :=
  Fintype.ofEquiv (Fin starkPrime)
    { toFun := fun i => ⟨i.val, i.isLt⟩
      invFun := fun a => ⟨a.val, a.isLt⟩
      left_inv := fun _ => rfl
      right_inv := fun _ => rfl }

theorem card_felt : Fintype.card Felt = starkPrime := by
  rw [Fintype.ofEquiv_card, Fintype.card_fin]

/-! ## Numbers as field elements -/

theorem val_natCast_of_lt {k : Nat} (hk : k < starkPrime) : (k : Felt).val = k :=
  Nat.mod_eq_of_lt hk

theorem natCast_val (a : Felt) : (a.val : Felt) = a :=
  Residue.natCast_val a

theorem natCast_inj_of_lt {j k : Nat} (hj : j < starkPrime) (hk : k < starkPrime)
    (h : (j : Felt) = k) : j = k := by
  rw [← val_natCast_of_lt hj, h, val_natCast_of_lt hk]

theorem lt_bitLength_iff {bits k : Nat} : bits < bitLength k ↔ ¬ k < 2 ^ bits := by
  unfold bitLength
  split
  · next hzero => simp [hzero]
  · next hne => rw [not_lt, ← Nat.le_log2 hne, Nat.lt_succ_iff]

/-! ## Roots of unity -/

theorem orderOf_generator : orderOf generator = starkPrime - 1 :=
  orderOf_eq_of_pow_and_pow_div_prime (by decide) generator_pow_order
    fun q hq hdvd => generator_pow_ne_one q (mem_orderPrimes hq hdvd)

theorem rootOfUnity_isPrimitiveRoot {n : Nat} (hn : n ∣ starkPrime - 1) :
    IsPrimitiveRoot (rootOfUnity n) n := by
  have hgenerator : IsPrimitiveRoot generator (starkPrime - 1) := by
    rw [← orderOf_generator]
    exact IsPrimitiveRoot.orderOf generator
  exact hgenerator.pow (by decide) (Nat.div_mul_cancel hn).symm

/-- The chosen element of a smaller order is a power of that of a larger order. -/
theorem rootOfUnity_pow {n k : Nat} (hn : n * k ∣ starkPrime - 1) :
    rootOfUnity (n * k) ^ k = rootOfUnity n := by
  have hpos : 0 < k := Nat.pos_of_ne_zero fun h => by
    rw [h, mul_zero] at hn
    exact absurd (Nat.eq_zero_of_zero_dvd hn) (by decide)
  obtain ⟨r, hr⟩ := hn
  rw [rootOfUnity, rootOfUnity, ← pow_mul, hr]
  congr 1
  rcases Nat.eq_zero_or_pos n with rfl | hnpos
  · simp
  · rw [Nat.mul_div_cancel_left _ (Nat.mul_pos hnpos hpos), mul_assoc n k r,
      Nat.mul_div_cancel_left _ hnpos, mul_comm]

/-- Powers of an element of order `n` agree exactly if their exponents do modulo `n`. -/
theorem pow_eq_pow_iff {g : Felt} {n : Nat} (hn : 0 < n) (hg : IsPrimitiveRoot g n) {i j : Nat} :
    g ^ i = g ^ j ↔ i % n = j % n := by
  have hmod (k : Nat) : g ^ k = g ^ (k % n) := by rw [hg.eq_orderOf, pow_mod_orderOf]
  rw [hmod i, hmod j]
  exact ⟨hg.pow_inj (Nat.mod_lt i hn) (Nat.mod_lt j hn), fun h => by rw [h]⟩

end Felt

/-! ## Powers of two -/

theorem isPowerOfTwo_iff (n : Nat) : isPowerOfTwo n = true ↔ ∃ k, n = 2 ^ k := by
  rw [isPowerOfTwo, beq_iff_eq, Nat.one_shiftLeft]
  constructor
  · intro h
    exact ⟨_, h⟩
  · rintro ⟨k, rfl⟩
    rw [Nat.log2_two_pow]

theorem isPowerOfTwo_two_pow (k : Nat) : isPowerOfTwo (2 ^ k) = true :=
  (isPowerOfTwo_iff _).mpr ⟨k, rfl⟩

theorem pos_of_isPowerOfTwo {n : Nat} (hn : isPowerOfTwo n = true) : 0 < n := by
  obtain ⟨k, rfl⟩ := (isPowerOfTwo_iff n).mp hn
  exact Nat.two_pow_pos k

/-- There is no power of two between two successive ones. -/
theorem le_two_pow_of_isPowerOfTwo {n k : Nat} (hn : isPowerOfTwo n = true) (h : n < 2 ^ (k + 1)) :
    n ≤ 2 ^ k := by
  obtain ⟨j, rfl⟩ := (isPowerOfTwo_iff n).mp hn
  have hlt : j < k + 1 := (Nat.pow_lt_pow_iff_right (by decide)).mp h
  exact Nat.pow_le_pow_right (by decide) (Nat.lt_succ_iff.mp hlt)

theorem isPowerOfTwo_mul {a b : Nat} (ha : isPowerOfTwo a = true) (hb : isPowerOfTwo b = true) :
    isPowerOfTwo (a * b) = true := by
  obtain ⟨i, rfl⟩ := (isPowerOfTwo_iff a).mp ha
  obtain ⟨j, rfl⟩ := (isPowerOfTwo_iff b).mp hb
  rw [← pow_add]
  exact isPowerOfTwo_two_pow (i + j)

theorem isPowerOfTwo_div {a b : Nat} (ha : isPowerOfTwo a = true) (hb : isPowerOfTwo b = true)
    (hle : a ≤ b) : isPowerOfTwo (b / a) = true := by
  obtain ⟨i, rfl⟩ := (isPowerOfTwo_iff a).mp ha
  obtain ⟨j, rfl⟩ := (isPowerOfTwo_iff b).mp hb
  rw [Nat.pow_div ((Nat.pow_le_pow_iff_right (by decide)).mp hle) (by decide)]
  exact isPowerOfTwo_two_pow _

/-- Of two powers of two the smaller one divides the larger one. -/
theorem dvd_of_isPowerOfTwo {m n : Nat} (hm : isPowerOfTwo m = true) (hn : isPowerOfTwo n = true)
    (hle : m ≤ n) : m ∣ n := by
  obtain ⟨j, rfl⟩ := (isPowerOfTwo_iff m).mp hm
  obtain ⟨k, rfl⟩ := (isPowerOfTwo_iff n).mp hn
  exact Nat.pow_dvd_pow 2 ((Nat.pow_le_pow_iff_right (by decide)).mp hle)

/-- The powers of two among the machine words divide the order of the multiplicative group. -/
theorem dvd_order_of_isPowerOfTwo {n : Nat} (hn : isPowerOfTwo n = true) (hword : n < 2 ^ 64) :
    n ∣ starkPrime - 1 := by
  obtain ⟨k, rfl⟩ := (isPowerOfTwo_iff n).mp hn
  have hk : k < 64 := (Nat.pow_lt_pow_iff_right (by decide)).mp hword
  rw [starkPrime_sub_one]
  exact (Nat.pow_dvd_pow 2 (by omega)).mul_right _

theorem isPrimitiveRoot_of_isPowerOfTwo {n : Nat} (hn : isPowerOfTwo n = true)
    (hword : n < 2 ^ 64) : IsPrimitiveRoot (Felt.rootOfUnity n) n :=
  Felt.rootOfUnity_isPrimitiveRoot (dvd_order_of_isPowerOfTwo hn hword)

/-- There is a chosen element of order `n` for the powers of two that divide the order of the
multiplicative group. -/
theorem Felt.rootOfUnity?_eq_some_iff {n : Nat} {g : Felt} : rootOfUnity? n = some g ↔
    isPowerOfTwo n = true ∧ n ∣ starkPrime - 1 ∧ g = rootOfUnity n := by
  rw [rootOfUnity?, Option.ite_none_right_eq_some, Bool.and_eq_true, decide_eq_true_eq,
    Option.some.injEq, and_assoc, eq_comm (a := g)]
  refine and_congr_right fun hn => and_congr_left fun _ => ?_
  obtain ⟨k, rfl⟩ := (isPowerOfTwo_iff n).mp hn
  have hodd : Nat.Coprime (2 ^ k) (5 * 7 * 98714381 * 166848103) :=
    Nat.Coprime.pow_left k (by decide)
  rw [Nat.log2_two_pow, starkPrime_sub_one, hodd.dvd_mul_right,
    Nat.pow_dvd_pow_iff_le_right (by decide), twoAdicity]

theorem Felt.isPrimitiveRoot_of_rootOfUnity? {n : Nat} {g : Felt}
    (h : rootOfUnity? n = some g) : IsPrimitiveRoot g n := by
  obtain ⟨-, hdvd, rfl⟩ := rootOfUnity?_eq_some_iff.mp h
  exact rootOfUnity_isPrimitiveRoot hdvd

end CairoTrace
