import CairoTrace.Constraint.Composition
import CairoTrace.Proofs.Polynomial.Transform
import Mathlib.Algebra.Polynomial.Eval.Degree

/-!
# Periodic columns on cosets

A column can be built from values for a trace if three numbers are powers of two and the trace holds
the values once (`exists_ofValues_iff`). The period of the column is then a power of two and divides
the length of the trace (`IsFor`). Its table for a coset of the trace domain holds, for every row of
a period, its value at the point of the row (`cosetValues_eq_map`), and looked up cyclically it does
so for every row of the trace (`lookupCyclic_cosetValues`). On the multiples of its step the column
has the values that it was built from (`eval_of_ofValues`). The degree of the column is that of a
polynomial with its values (`natDegree_poly_le`).
-/

namespace CairoTrace

/-- A table that repeats, from a function of the places in it. -/
theorem Composition.lookupCyclic_map_range {k : Nat} (hk : 0 < k) (f : Nat → Felt) (i : Nat) :
    lookupCyclic ((List.range k).map f).toArray i = f (i % k) := by
  rw [lookupCyclic, List.size_toArray, List.length_map, List.length_range, List.getElem?_toArray,
    List.getElem?_map, List.getElem?_range (Nat.mod_lt i hk), Option.map_some, Option.getD_some]

namespace PeriodicColumn

/-- The condition on a column to repeat along a trace of length `n`. -/
structure IsFor (n : Nat) (c : PeriodicColumn) : Prop where
  isPowerOfTwo_period : isPowerOfTwo c.period = true
  length_le : c.coefficients.length ≤ c.period
  copies_mul_period : c.copies * c.period = n

variable {n : Nat} {c : PeriodicColumn}

theorem ofValues_eq_ok_iff {values : List Felt} {step : Nat} : ofValues values n step = .ok c ↔
    isPowerOfTwo n = true ∧ isPowerOfTwo values.length = true ∧ isPowerOfTwo step = true ∧
      values.length * step ≤ n ∧
      c = ⟨Polynomial.interpolate values, values.length, step, n / (values.length * step)⟩ := by
  simp only [ofValues]
  split
  · next hn => simp [hn]
  · next hn =>
    rw [not_not] at hn
    split
    · next hvalues =>
      rw [Except.ok.injEq]
      exact ⟨fun h => ⟨hn, hvalues.1, hvalues.2.1, hvalues.2.2, h.symm⟩, fun h => h.2.2.2.2.symm⟩
    · next hvalues =>
      constructor
      · intro h
        cases h
      · rintro ⟨-, hcount, hstep, hle, -⟩
        exact absurd ⟨hcount, hstep, hle⟩ hvalues

/-- There is a column for three powers of two whose trace holds the values once. -/
theorem exists_ofValues_iff {values : List Felt} {step : Nat} :
    (∃ c, ofValues values n step = .ok c) ↔ (∃ k, n = 2 ^ k) ∧ (∃ k, values.length = 2 ^ k) ∧
      (∃ k, step = 2 ^ k) ∧ values.length * step ≤ n := by
  simp only [ofValues_eq_ok_iff, exists_and_left, exists_eq, and_true, isPowerOfTwo_iff]

/-- Columns are built for the traces that they repeat along. -/
theorem isFor_of_ofValues {values : List Felt} {step : Nat} (h : ofValues values n step = .ok c) :
    c.IsFor n := by
  obtain ⟨hn, hcount, hstep, hle, rfl⟩ := ofValues_eq_ok_iff.mp h
  have hperiod := isPowerOfTwo_mul hcount hstep
  refine ⟨hperiod, ?_, Nat.div_mul_cancel (dvd_of_isPowerOfTwo hperiod hn hle)⟩
  rw [Polynomial.length_interpolate hcount]
  exact Nat.le_mul_of_pos_right _ (pos_of_isPowerOfTwo hstep)

/-- The degree of a column is below the length of the trace that it repeats along. -/
theorem IsFor.degree_le (h : c.IsFor n) : c.degree ≤ n - 1 := by
  have hdegree : Polynomial.degree c.coefficients ≤ c.period - 1 :=
    (Polynomial.degree_le_length _).trans (Nat.sub_le_sub_right h.length_le 1)
  have hmul : c.degree ≤ (c.period - 1) * c.copies := Nat.mul_le_mul_right c.copies hdegree
  rw [Nat.sub_mul, one_mul, mul_comm, h.copies_mul_period] at hmul
  rcases Nat.eq_zero_or_pos c.copies with hcopies | hcopies
  · rw [degree, hcopies, mul_zero]
    exact Nat.zero_le _
  · omega

/-! ## Tables -/

/-- The points of a coset are mapped to a coset of the group whose order is the period. -/
theorem eval_coset_point (hn : n ∣ starkPrime - 1) (hc : c.IsFor n) (offset : Felt) (i : Nat) :
    c.eval (offset * Felt.rootOfUnity n ^ i) =
      Polynomial.eval c.coefficients (offset ^ c.copies * Felt.rootOfUnity c.period ^ i) := by
  have hroot : Felt.rootOfUnity n ^ c.copies = Felt.rootOfUnity c.period := by
    rw [← hc.copies_mul_period, mul_comm] at hn ⊢
    exact Felt.rootOfUnity_pow hn
  rw [eval, mul_pow, ← pow_mul, mul_comm i, pow_mul, hroot]

theorem isPrimitiveRoot_period (hn : n ∣ starkPrime - 1) (hc : c.IsFor n) :
    IsPrimitiveRoot (Felt.rootOfUnity c.period) c.period :=
  Felt.rootOfUnity_isPrimitiveRoot (dvd_trans ⟨c.copies, by rw [mul_comm, hc.copies_mul_period]⟩ hn)

/-- The table of a column for a coset holds its values at the points of one period. -/
theorem cosetValues_eq_map (hn : n ∣ starkPrime - 1) (hc : c.IsFor n) (offset : Felt) :
    c.cosetValues offset =
      (List.range c.period).map fun i => c.eval (offset * Felt.rootOfUnity n ^ i) := by
  have hroot := isPrimitiveRoot_period hn hc
  have hlength := hc.length_le
  simp only [eval_coset_point hn hc, cosetValues]
  obtain ⟨k, hk⟩ := (isPowerOfTwo_iff _).mp hc.isPowerOfTwo_period
  rw [hk] at hroot hlength ⊢
  rw [Nat.log2_two_pow, Polynomial.values_eq_map hroot]
  · simp only [Polynomial.eval_append_replicate, Polynomial.eval_zipWith_powersFrom, one_mul]
  · simp [Polynomial.powersFrom_eq_map, hlength]

theorem length_cosetValues (hn : n ∣ starkPrime - 1) (hc : c.IsFor n) (offset : Felt) :
    (c.cosetValues offset).length = c.period := by
  rw [cosetValues_eq_map hn hc, List.length_map, List.length_range]

/-- Looked up cyclically, the table holds the values at the points of all rows. -/
theorem lookupCyclic_cosetValues (hn : n ∣ starkPrime - 1) (hc : c.IsFor n) (offset : Felt)
    (i : Nat) : Composition.lookupCyclic (c.cosetValues offset).toArray i =
      c.eval (offset * Felt.rootOfUnity n ^ i) := by
  have hpos := pos_of_isPowerOfTwo hc.isPowerOfTwo_period
  have hpow : Felt.rootOfUnity c.period ^ (i % c.period) = Felt.rootOfUnity c.period ^ i := by
    rw [Felt.pow_eq_pow_iff hpos (isPrimitiveRoot_period hn hc), Nat.mod_mod]
  rw [cosetValues_eq_map hn hc, Composition.lookupCyclic_map_range hpos, eval_coset_point hn hc,
    eval_coset_point hn hc, hpow]

/-- On the multiples of its step a column has the values that it was built from, again and
again. -/
theorem eval_of_ofValues (hn : n ∣ starkPrime - 1) {values : List Felt} {step : Nat}
    (h : ofValues values n step = .ok c) (j : Nat) :
    c.eval (Felt.rootOfUnity n ^ (step * j)) = values[j % values.length]?.getD 0 := by
  have hc := isFor_of_ofValues h
  have heval := eval_coset_point hn hc 1 (step * j)
  rw [one_mul, one_pow, one_mul] at heval
  rw [heval]
  obtain ⟨-, hcount, -, -, rfl⟩ := ofValues_eq_ok_iff.mp h
  have hperiod : values.length * step ∣ starkPrime - 1 :=
    (Dvd.intro_left _ hc.copies_mul_period).trans hn
  have hroot := Felt.rootOfUnity_pow hperiod
  rw [period, pow_mul, hroot]
  exact Polynomial.eval_interpolate hcount ((Dvd.intro _ rfl).trans hperiod) j

theorem lookupCyclic_of_ofValues (hn : n ∣ starkPrime - 1) {values : List Felt} {step : Nat}
    (h : ofValues values n step = .ok c) (j : Nat) :
    Composition.lookupCyclic (c.cosetValues 1).toArray (step * j) =
      values[j % values.length]?.getD 0 := by
  rw [lookupCyclic_cosetValues hn (isFor_of_ofValues h), one_mul, eval_of_ofValues hn h]

/-! ## Polynomials -/

/-- The column as a polynomial in the point. -/
noncomputable def poly (c : PeriodicColumn) : Polynomial Felt :=
  (Polynomial.poly c.coefficients).comp (.X ^ c.copies)

@[simp] theorem eval_poly (c : PeriodicColumn) (x : Felt) : c.poly.eval x = c.eval x := by
  rw [poly, Polynomial.eval_comp, Polynomial.eval_pow, Polynomial.eval_X, Polynomial.eval_poly,
    eval]

theorem natDegree_poly_le (c : PeriodicColumn) : c.poly.natDegree ≤ c.degree := by
  rw [poly, Polynomial.natDegree_comp, Polynomial.natDegree_X_pow]
  exact Nat.mul_le_mul_right c.copies (Polynomial.natDegree_poly_le c.coefficients)

/-! ## Values -/

/-- The table for a coset, at the place of a row in its period. -/
theorem cosetValues_getElem?_mod (hn : n ∣ starkPrime - 1) (hc : c.IsFor n) (offset : Felt)
    (i : Nat) : (c.cosetValues offset)[i % c.period]? =
      some (c.eval (offset * Felt.rootOfUnity n ^ i)) := by
  have hlength := length_cosetValues hn hc offset
  have hlt : i % c.period < (c.cosetValues offset).length := by
    rw [hlength]
    exact Nat.mod_lt i (pos_of_isPowerOfTwo hc.isPowerOfTwo_period)
  have hlookup := lookupCyclic_cosetValues hn hc offset i
  rw [Composition.lookupCyclic, List.size_toArray, hlength, List.getElem?_toArray] at hlookup
  rw [← hlookup, List.getElem?_eq_getElem hlt, Option.getD_some]

/-- A column can be built from values for a trace if and only if the length of the trace, the count
of the values and the step are powers of two and the trace holds the values once. At the rows that
are multiples of the step it has the values again and again, its table for a coset has its values
at the points of the coset, again and again, too, and it is a polynomial of at most its degree. -/
theorem ofValues_exact (values : List Felt) (n step : Nat) :
    ((∃ c, ofValues values n step = .ok c) ↔ (∃ k, n = 2 ^ k) ∧ (∃ k, values.length = 2 ^ k) ∧
      (∃ k, step = 2 ^ k) ∧ values.length * step ≤ n) ∧
    ∀ c g, ofValues values n step = .ok c → Felt.rootOfUnity? n = some g →
      (∀ row, step ∣ row → values[row / step % values.length]? = some (c.eval (g ^ row))) ∧
      c.period = values.length * step ∧
      (∀ offset, (c.cosetValues offset).length = c.period ∧
        ∀ i, (c.cosetValues offset)[i % c.period]? = some (c.eval (offset * g ^ i))) ∧
      ∃ p : Polynomial Felt, p.natDegree ≤ c.degree ∧ ∀ x, p.eval x = c.eval x := by
  refine ⟨exists_ofValues_iff, fun c g h hg => ?_⟩
  obtain ⟨-, hn, rfl⟩ := Felt.rootOfUnity?_eq_some_iff.mp hg
  have hc := isFor_of_ofValues h
  obtain ⟨-, hcount, hstep, -, hcolumn⟩ := ofValues_eq_ok_iff.mp h
  refine ⟨?_, hcolumn ▸ rfl, fun offset => ⟨length_cosetValues hn hc offset,
    cosetValues_getElem?_mod hn hc offset⟩, c.poly, natDegree_poly_le c, eval_poly c⟩
  rintro _ ⟨j, rfl⟩
  have hlt := Nat.mod_lt j (pos_of_isPowerOfTwo hcount)
  rw [Nat.mul_div_cancel_left j (pos_of_isPowerOfTwo hstep), eval_of_ofValues hn h,
    List.getElem?_eq_getElem hlt, Option.getD_some]

theorem ofValues_exact_strided : ∃ c, ofValues [5, 7] 16 2 = .ok c ∧
    c.eval (Felt.rootOfUnity 16 ^ 10) = 7 ∧ c.period = 4 ∧
    (c.cosetValues 3)[1]? = some (c.eval (3 * Felt.rootOfUnity 16 ^ 13)) ∧
    ∃ p : Polynomial Felt, p.natDegree ≤ c.degree ∧ ∀ x, p.eval x = c.eval x := by
  obtain ⟨hbuilt, hexact⟩ := ofValues_exact [5, 7] 16 2
  obtain ⟨c, hc⟩ := hbuilt.mpr ⟨⟨4, rfl⟩, ⟨1, rfl⟩, ⟨1, rfl⟩, by decide⟩
  obtain ⟨hvalues, hperiod, htable, hpoly⟩ := hexact c _ hc (if_pos (by decide))
  have hrow := hvalues 10 ⟨5, rfl⟩
  have hcoset := (htable 3).2 13
  rw [hperiod] at hcoset
  exact ⟨c, hc, (Option.some.inj hrow).symm, hperiod, hcoset, hpoly⟩

end PeriodicColumn

end CairoTrace
