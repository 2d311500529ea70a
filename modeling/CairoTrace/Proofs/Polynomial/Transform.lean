import CairoTrace.Polynomial.Transform
import CairoTrace.Proofs.StarkField
import Mathlib.Algebra.Polynomial.Eval.Degree
import Mathlib.Algebra.Polynomial.Eval.Defs
import Mathlib.Data.List.TakeWhile

/-!
# The transform by halves

Lists of coefficients as polynomials: their values (`eval_poly`) and their degree
(`natDegree_poly_le`). The transform computes the values at the powers of an element of order `2^k`
(`values_eq_map`): it splits the coefficients, which splits a value into two at the square of the
point (`eval_split`), and joins the halves as the two square roots of a power are opposite
(`combine_map`).
-/

namespace CairoTrace

namespace Polynomial

/-! ## Values -/

@[simp] theorem eval_nil (x : Felt) : eval [] x = 0 := rfl

@[simp] theorem eval_cons (c : Felt) (cs : List Felt) (x : Felt) :
    eval (c :: cs) x = c + x * eval cs x := rfl

/-- The powers of an element, as a map. -/
theorem powersFrom_eq_map (b c : Felt) (n : Nat) :
    powersFrom b c n = (List.range n).map fun i => c * b ^ i := by
  induction n generalizing c with
  | zero => rfl
  | succ n ih =>
    rw [powersFrom, ih, List.range_succ_eq_map, List.map_cons, List.map_map, pow_zero, mul_one]
    congr 2
    funext i
    rw [Function.comp_apply, pow_succ', mul_assoc]

/-- Scaling the coefficients by powers scales the point. -/
theorem eval_zipWith_powersFrom (cs : List Felt) (b c x : Felt) :
    eval (List.zipWith (· * ·) cs (powersFrom b c cs.length)) x = c * eval cs (b * x) := by
  induction cs generalizing c with
  | nil => rw [List.zipWith_nil_left, eval_nil, eval_nil, mul_zero]
  | cons a cs ih =>
    rw [List.length_cons, powersFrom, List.zipWith_cons_cons, eval_cons, ih, eval_cons]
    ring

/-! ## Halves -/

theorem length_split (cs : List Felt) :
    (split cs).1.length = (cs.length + 1) / 2 ∧ (split cs).2.length = cs.length / 2 := by
  induction cs using split.induct with
  | case1 => exact ⟨rfl, rfl⟩
  | case2 a => simp [split]
  | case3 a b rest _ _ _ ih =>
    simp only [split, List.length_cons, ih]
    omega

theorem length_split_two_pow {cs : List Felt} {k : Nat} (hcs : cs.length = 2 ^ (k + 1)) :
    (split cs).1.length = 2 ^ k ∧ (split cs).2.length = 2 ^ k := by
  obtain ⟨hevens, hodds⟩ := length_split cs
  rw [hevens, hodds, hcs, pow_succ]
  omega

theorem eval_split (cs : List Felt) (x : Felt) :
    eval cs x = eval (split cs).1 (x * x) + x * eval (split cs).2 (x * x) := by
  induction cs using split.induct with
  | case1 => simp [split]
  | case2 a => simp [split]
  | case3 a b rest _ _ _ ih =>
    simp only [split, eval_cons, ih]
    ring

theorem combine_map (w c : Felt) (evens odds : Nat → Felt) (n : Nat) :
    combine w c ((List.range n).map evens) ((List.range n).map odds) =
      ((List.range n).map fun i => evens i + c * w ^ i * odds i,
        (List.range n).map fun i => evens i - c * w ^ i * odds i) := by
  induction n generalizing c evens odds with
  | zero => rfl
  | succ n ih =>
    simp only [List.range_succ_eq_map, List.map_cons, List.map_map, combine]
    rw [ih (c * w) (evens ∘ Nat.succ) (odds ∘ Nat.succ)]
    simp only [pow_zero, mul_one, Function.comp_def, Nat.succ_eq_add_one, pow_succ', mul_assoc]

/-- The transform gives the values at the powers of an element of order `2^k`. -/
theorem values_eq_map {k : Nat} {w : Felt} (hw : IsPrimitiveRoot w (2 ^ k)) {cs : List Felt}
    (hcs : cs.length = 2 ^ k) :
    values k w cs = (List.range (2 ^ k)).map fun i => eval cs (w ^ i) := by
  induction k generalizing w cs with
  | zero =>
    obtain ⟨a, rfl⟩ := List.length_eq_one_iff.mp hcs
    simp [values]
  | succ k ih =>
    have hsquare : IsPrimitiveRoot (w * w) (2 ^ k) := by
      rw [← pow_two]
      exact hw.pow (by positivity) (pow_succ' 2 k)
    have hhalf : w ^ 2 ^ k = -1 :=
      (hw.pow (by positivity) (pow_succ 2 k)).eq_neg_one_of_two_right
    obtain ⟨hevens, hodds⟩ := length_split_two_pow hcs
    have hvalue (i : Nat) : eval cs (w ^ i) = eval (split cs).1 ((w * w) ^ i) +
        1 * w ^ i * eval (split cs).2 ((w * w) ^ i) := by
      rw [eval_split, mul_pow, one_mul]
    have hopposite (i : Nat) : eval cs (w ^ (2 ^ k + i)) = eval (split cs).1 ((w * w) ^ i) -
        1 * w ^ i * eval (split cs).2 ((w * w) ^ i) := by
      rw [eval_split, pow_add, hhalf, mul_pow]
      ring_nf
    simp only [values]
    rw [ih hsquare hevens, ih hsquare hodds, combine_map, pow_succ, mul_two, List.range_add,
      List.map_append, List.map_map]
    simp only [Function.comp_def, hopposite, ← hvalue]

theorem length_combine (w c : Felt) (evens odds : List Felt) :
    (combine w c evens odds).1.length = min evens.length odds.length ∧
      (combine w c evens odds).2.length = min evens.length odds.length := by
  induction evens generalizing c odds with
  | nil => simp [combine]
  | cons e evens ih =>
    cases odds with
    | nil => simp [combine]
    | cons o odds => simp [combine, ih, Nat.succ_min_succ]

theorem length_values {k : Nat} {w : Felt} {cs : List Felt} (hcs : cs.length = 2 ^ k) :
    (values k w cs).length = 2 ^ k := by
  induction k generalizing w cs with
  | zero => exact hcs
  | succ k ih =>
    obtain ⟨hevens, hodds⟩ := length_split_two_pow hcs
    simp only [values, List.length_append, length_combine, ih hevens, ih hodds, min_self]
    rw [pow_succ, mul_two]

theorem length_interpolate {vs : List Felt} (hvs : isPowerOfTwo vs.length = true) :
    (interpolate vs).length = vs.length := by
  obtain ⟨k, hk⟩ := (isPowerOfTwo_iff _).mp hvs
  rw [interpolate, List.length_map, hk, Nat.log2_two_pow, length_values hk]

/-! ## Interpolation -/

theorem eval_map_range (f : Nat → Felt) (n : Nat) (x : Felt) :
    eval ((List.range n).map f) x = ∑ i ∈ Finset.range n, f i * x ^ i := by
  induction n generalizing f with
  | zero => rfl
  | succ n ih =>
    rw [List.range_succ_eq_map, List.map_cons, List.map_map, eval_cons, ih,
      Finset.sum_range_succ', Finset.mul_sum, pow_zero, mul_one, add_comm]
    congr 1
    apply Finset.sum_congr rfl
    intro i _
    rw [Function.comp_apply, pow_succ]
    ring

/-- The powers of a root of unity other than one add up to zero. -/
theorem sum_pow_eq_ite {n : Nat} {w : Felt} (hw : IsPrimitiveRoot w n) {j l : Nat} (hj : j < n)
    (hl : l < n) :
    ∑ i ∈ Finset.range n, (w ^ j * w⁻¹ ^ l) ^ i = if l = j then (n : Felt) else 0 := by
  have hne : w ≠ 0 := hw.ne_zero (Nat.zero_lt_of_lt hj).ne'
  have hdiv : w ^ j * w⁻¹ ^ l = w ^ j / w ^ l := by rw [inv_pow, div_eq_mul_inv]
  split
  · next heq =>
    rw [hdiv, heq, div_self (pow_ne_zero j hne)]
    simp
  · next hjl =>
    have hratio : w ^ j / w ^ l - 1 ≠ 0 := by
      rw [sub_ne_zero, Ne, div_eq_one_iff_eq (pow_ne_zero l hne)]
      exact fun h => hjl (hw.pow_inj hj hl h).symm
    have hone : (w ^ j / w ^ l) ^ n = 1 := by
      rw [div_pow, ← pow_mul, ← pow_mul, mul_comm j, mul_comm l, pow_mul, pow_mul, hw.pow_eq_one,
        one_pow, one_pow, div_one]
    have hsum := geom_sum_mul (w ^ j / w ^ l) n
    rw [hone, sub_self] at hsum
    rw [hdiv]
    exact (mul_eq_zero.mp hsum).resolve_right hratio

theorem eval_eq_sum (cs : List Felt) (x : Felt) :
    eval cs x = ∑ i ∈ Finset.range cs.length, cs[i]?.getD 0 * x ^ i := by
  rw [← eval_map_range]
  congr 1
  apply List.ext_getElem (by simp)
  intro i hi _
  simp [hi]

section Interpolate

variable {vs : List Felt} (hvs : isPowerOfTwo vs.length = true)
  (hdvd : vs.length ∣ starkPrime - 1)
include hvs hdvd

/-- The coefficients are the values at the inverse powers of the root, up to a factor. -/
theorem interpolate_eq_map : interpolate vs = (List.range vs.length).map fun i =>
    (vs.length : Felt)⁻¹ * ∑ l ∈ Finset.range vs.length,
      vs[l]?.getD 0 * ((Felt.rootOfUnity vs.length)⁻¹ ^ i) ^ l := by
  have hroot := (Felt.rootOfUnity_isPrimitiveRoot hdvd).inv
  obtain ⟨k, hk⟩ := (isPowerOfTwo_iff _).mp hvs
  have hlog : vs.length.log2 = k := by rw [hk, Nat.log2_two_pow]
  have hvalues : values k (Felt.rootOfUnity vs.length)⁻¹ vs =
      (List.range vs.length).map fun i => eval vs ((Felt.rootOfUnity vs.length)⁻¹ ^ i) := by
    rw [hk] at hroot ⊢
    exact values_eq_map hroot hk
  rw [interpolate, hlog, hvalues, List.map_map]
  apply List.map_congr_left
  intro i _
  rw [Function.comp_apply, eval_eq_sum]
  rfl

/-- The polynomial of some values has these values at the powers of the chosen root of unity. -/
theorem eval_interpolate (j : Nat) :
    eval (interpolate vs) (Felt.rootOfUnity vs.length ^ j) = vs[j % vs.length]?.getD 0 := by
  have hroot := Felt.rootOfUnity_isPrimitiveRoot hdvd
  have hpos := pos_of_isPowerOfTwo hvs
  have hlt : vs.length < starkPrime := (Nat.le_of_dvd (by decide) hdvd).trans_lt (by decide)
  have hcast : (vs.length : Felt) ≠ 0 := fun h =>
    hpos.ne' (Felt.natCast_inj_of_lt hlt (by decide) (h.trans Nat.cast_zero.symm))
  rw [← (Felt.pow_eq_pow_iff hpos hroot).mpr (Nat.mod_mod j vs.length),
    interpolate_eq_map hvs hdvd, eval_map_range]
  have hj := Nat.mod_lt j hpos
  generalize j % vs.length = j at hj ⊢
  generalize hlength : vs.length = n at hroot hj hcast ⊢
  calc ∑ i ∈ Finset.range n, (n : Felt)⁻¹ * (∑ l ∈ Finset.range n, vs[l]?.getD 0 *
          ((Felt.rootOfUnity n)⁻¹ ^ i) ^ l) * (Felt.rootOfUnity n ^ j) ^ i
      = (n : Felt)⁻¹ * ∑ l ∈ Finset.range n, vs[l]?.getD 0 *
          ∑ i ∈ Finset.range n, (Felt.rootOfUnity n ^ j * (Felt.rootOfUnity n)⁻¹ ^ l) ^ i := by
        simp only [Finset.mul_sum, Finset.sum_mul]
        rw [Finset.sum_comm]
        apply Finset.sum_congr rfl
        intro l _
        apply Finset.sum_congr rfl
        intro i _
        rw [mul_pow, ← pow_mul _ l i, ← pow_mul _ i l, mul_comm i l]
        ring
    _ = (n : Felt)⁻¹ * (vs[j]?.getD 0 * n) := by
        rw [Finset.sum_congr rfl fun l hl => by
          rw [sum_pow_eq_ite hroot hj (Finset.mem_range.mp hl)]]
        simp [hj]
    _ = vs[j]?.getD 0 := by
        rw [mul_comm, mul_assoc, mul_inv_cancel₀ hcast, mul_one]

end Interpolate

/-! ## Polynomials -/

/-- The polynomial of a list of coefficients. -/
noncomputable def poly : List Felt → Polynomial Felt
  | [] => 0
  | c :: cs => .C c + .X * poly cs

@[simp] theorem eval_poly (cs : List Felt) (x : Felt) : (poly cs).eval x = eval cs x := by
  induction cs with
  | nil => simp [poly]
  | cons c cs ih => simp [poly, ih]

theorem poly_eq_zero {zeros : List Felt} (h : ∀ c ∈ zeros, c = 0) : poly zeros = 0 := by
  induction zeros with
  | nil => rfl
  | cons c zeros ih =>
    obtain ⟨hc, hzeros⟩ := List.forall_mem_cons.mp h
    rw [poly, hc, ih hzeros, map_zero, mul_zero, add_zero]

theorem poly_append_of_zero {cs zeros : List Felt} (h : ∀ c ∈ zeros, c = 0) :
    poly (cs ++ zeros) = poly cs := by
  induction cs with
  | nil => exact poly_eq_zero h
  | cons c cs ih => rw [List.cons_append, poly, ih, poly]

theorem eval_append_replicate (cs : List Felt) (k : Nat) (x : Felt) :
    eval (cs ++ List.replicate k 0) x = eval cs x := by
  rw [← eval_poly, poly_append_of_zero fun c hc => List.eq_of_mem_replicate hc, eval_poly]

theorem natDegree_poly_le_length (cs : List Felt) : (poly cs).natDegree ≤ cs.length - 1 := by
  induction cs with
  | nil => simp [poly]
  | cons c cs ih =>
    cases cs with
    | nil => simp [poly]
    | cons c' cs =>
      have hmul := Polynomial.natDegree_mul_le (p := .X) (q := poly (c' :: cs))
      rw [Polynomial.natDegree_X] at hmul
      rw [poly, Polynomial.natDegree_C_add]
      simp only [List.length_cons] at ih ⊢
      omega

theorem degree_le_length (cs : List Felt) : degree cs ≤ cs.length - 1 := by
  have hle := (List.dropWhile_sublist (·.isZero) (l := cs.reverse)).length_le
  rw [List.length_reverse] at hle
  exact Nat.sub_le_sub_right hle 1

/-- The degree without the leading zeros bounds that of the polynomial. -/
theorem natDegree_poly_le (cs : List Felt) : (poly cs).natDegree ≤ degree cs := by
  have hsplit : cs = (cs.reverse.dropWhile (·.isZero)).reverse ++
      (cs.reverse.takeWhile (·.isZero)).reverse := by
    rw [← List.reverse_append, List.takeWhile_append_dropWhile, List.reverse_reverse]
  have hzeros : ∀ c ∈ (cs.reverse.takeWhile (·.isZero)).reverse, c = 0 := by
    intro c hc
    rw [List.mem_reverse] at hc
    exact (Residue.isZero_iff c).mp (List.mem_takeWhile_imp hc)
  have hdegree := natDegree_poly_le_length (cs.reverse.dropWhile (·.isZero)).reverse
  rw [← poly_append_of_zero hzeros, ← hsplit, List.length_reverse] at hdegree
  exact hdegree

end Polynomial

end CairoTrace
