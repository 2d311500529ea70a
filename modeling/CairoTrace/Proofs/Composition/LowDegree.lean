import CairoTrace.Proofs.TracePolynomial

/-!
# Valid traces and compositions of low degree

If all constraints hold on a trace, their quotients are polynomials, and so is their composition
with any coefficients; its degree is below the bound. Conversely, a composition that is such a
polynomial for all coefficients is one for each constraint alone, and as the field is much larger
than the degrees, the factor of the domain then divides the constraint. A check of a trace thus
finds no violation if and only if the composition always has a low degree
(`checkConstraints_eq_nil_iff_lowDegree`).
-/

namespace CairoTrace

variable {n degreeBound : Nat} {mask : List Cell} {cs : List Constraint}
  {columns : List (Array Felt)} {periodic : List PeriodicColumn} {b : Bindings}
  {challenges : List Felt} {hints : List (Option Felt)} {comp : Composition}

namespace Constraint

/-! ## Quotients -/

/-- The quotient of a constraint as a polynomial. -/
noncomputable def quotientPoly (n : Nat) (columns : List (Array Felt))
    (periodic : List PeriodicColumn) (b : Bindings) (c : Constraint) : Polynomial Felt :=
  Polynomial.divByMonic (c.numerator n columns periodic b)
    ((c.domain.factor n).poly (Felt.rootOfUnity n))

theorem mul_quotientPoly {c : Constraint} (hexp : 0 < (c.domain.factor n).exponent)
    (hdvd : (c.domain.factor n).poly (Felt.rootOfUnity n) ∣ c.numerator n columns periodic b) :
    (c.domain.factor n).poly (Felt.rootOfUnity n) * c.quotientPoly n columns periodic b =
      c.numerator n columns periodic b := by
  have hmonic := VanishingFactor.monic_poly (Felt.rootOfUnity n) hexp
  have hdiv := Polynomial.modByMonic_add_div (c.numerator n columns periodic b)
    ((c.domain.factor n).poly (Felt.rootOfUnity n))
  rwa [(Polynomial.modByMonic_eq_zero_iff_dvd hmonic).mpr hdvd, zero_add] at hdiv

theorem eval_quotientPoly {c : Constraint} (hexp : 0 < (c.domain.factor n).exponent)
    (hdvd : (c.domain.factor n).poly (Felt.rootOfUnity n) ∣ c.numerator n columns periodic b)
    {x : Felt} (hx : (c.domain.factor n).eval x (Felt.rootOfUnity n) ≠ 0) :
    (c.quotientPoly n columns periodic b).eval x =
      c.quotient n b (pointCell n columns x) (Composition.periodicAt periodic x) x := by
  rw [quotient, ← eval_numerator, ← mul_quotientPoly hexp hdvd, Polynomial.eval_mul,
    VanishingFactor.eval_poly, mul_div_cancel_left₀ _ hx]

theorem degree_quotientPoly_lt (hn : n ∣ starkPrime - 1) {c : Constraint}
    (hexp : 0 < (c.domain.factor n).exponent) (hc : c.degree n periodic < degreeBound) :
    (c.quotientPoly n columns periodic b).degree < degreeBound := by
  have hnumerator : (c.numerator n columns periodic b).natDegree ≤ _ := c.natDegree_numerator_le hn
  have hquotient : (c.quotientPoly n columns periodic b).natDegree ≤ c.degree n periodic := by
    rw [quotientPoly, Polynomial.natDegree_divByMonic _ (VanishingFactor.monic_poly _ hexp),
      VanishingFactor.natDegree_poly]
    exact Nat.sub_le_sub_right hnumerator _
  exact Polynomial.degree_le_natDegree.trans_lt (by exact_mod_cast hquotient.trans_lt hc)

end Constraint

namespace Composition

/-! ## The values of compositions -/

theorem neighborAt_map {value : Cell → Felt} {cell : Cell} (h : cell ∈ mask) :
    neighborAt mask (mask.map value) cell = value cell := by
  rw [neighborAt, List.getElem?_map, List.getElem?_idxOf h, Option.map_some, Option.getD_some]

theorem zipWith_mul_congr {α : Type} {f g : α → Felt} {l : List α} (weights : List Felt)
    (h : ∀ a ∈ l, f a = g a) :
    List.zipWith (fun k a => k * f a) weights l = List.zipWith (fun k a => k * g a) weights l := by
  have hmap := congrArg (List.zipWith (· * ·) weights) (List.map_congr_left h)
  rwa [List.zipWith_map_right, List.zipWith_map_right] at hmap

/-- With the values of the columns around a point, a composition resolves to the sum of the
quotients there. -/
theorem evalAt_pointCell (columns : List (Array Felt))
    (h : Accepts n mask cs periodic b degreeBound comp) {x : Felt}
    {coefficients : List Felt} (hcoefficients : coefficients.length = cs.length)
    (hne : ∀ c ∈ cs, (c.domain.factor n).eval x (Felt.rootOfUnity n) ≠ 0) :
    ∃ q, comp.evalAt x (mask.map (pointCell n columns x)) coefficients = .ok q ∧
      q.resolve = .ok (List.zipWith (fun k c => k * c.quotient n b (pointCell n columns x)
        (periodicAt periodic x) x) coefficients cs).sum := by
  obtain ⟨q, hq, hden, hvalue⟩ := evalAt_eq_ok h (List.length_map _) hcoefficients hne
  refine ⟨q, hq, Fraction.resolve_eq_ok_iff.mpr ⟨hden, hvalue.trans ?_⟩⟩
  rw [zipWith_mul_congr coefficients fun c hc => ?_]
  rw [Constraint.quotient, Constraint.quotient, Constraint.value_congr
    (h.composable c hc).leaves_bound fun cell hcell => neighborAt_map hcell]

theorem sum_zipWith_replicate_zero {α : Type} (f : α → Felt) (l : List α) :
    (List.zipWith (fun k a => k * f a) (List.replicate l.length 0) l).sum = 0 := by
  induction l with
  | nil => rfl
  | cons a l ih =>
    rw [List.length_cons, List.replicate_succ, List.zipWith_cons_cons, List.sum_cons, zero_mul,
      zero_add, ih]

/-- A sum that is weighted by zeros and a single one. -/
theorem sum_zipWith_set {α : Type} (f : α → Felt) {l : List α} {i : Nat} {a : α}
    (ha : l[i]? = some a) :
    (List.zipWith (fun k a => k * f a) ((List.replicate l.length 0).set i 1) l).sum = f a := by
  induction l generalizing i with
  | nil => simp at ha
  | cons b l ih =>
    rw [List.length_cons, List.replicate_succ]
    cases i with
    | zero =>
      obtain rfl := Option.some.inj ha
      rw [List.set_cons_zero, List.zipWith_cons_cons, List.sum_cons, sum_zipWith_replicate_zero,
        one_mul, add_zero]
    | succ i =>
      rw [List.set_cons_succ, List.zipWith_cons_cons, List.sum_cons, zero_mul, zero_add, ih ha]

/-! ## Compositions of low degree -/

/-- Whether a composition with some coefficients is a polynomial of a degree below a bound, wherever
it has a value. -/
def IsLowDegree (comp : Composition) (n degreeBound : Nat) (cs : List Constraint)
    (columns : List (Array Felt)) (coefficients : List Felt) : Prop :=
  ∃ C : Polynomial Felt, C.degree < degreeBound ∧
    ∀ x, (∀ c ∈ cs, (c.domain.factor n).eval x (Felt.rootOfUnity n) ≠ 0) →
      ∃ q, comp.evalAt x (comp.mask.map (pointCell n columns x)) coefficients = .ok q ∧
        q.resolve = .ok (C.eval x)

/-- Quotients that are polynomials make compositions of low degree. -/
theorem isLowDegree_of_dvd (h : Accepts n mask cs periodic b degreeBound comp)
    (hword : n < 2 ^ 64)
    (hdvd : ∀ c ∈ cs, (c.domain.factor n).poly (Felt.rootOfUnity n) ∣
      c.numerator n columns periodic b)
    {coefficients : List Felt} (hcoefficients : coefficients.length = cs.length) :
    comp.IsLowDegree n degreeBound cs columns coefficients := by
  have hn := dvd_order_of_isPowerOfTwo h.isPowerOfTwo hword
  have hexp (c : Constraint) (hc : c ∈ cs) : 0 < (c.domain.factor n).exponent :=
    Rows.exponent_pos h.isPowerOfTwo (h.composable c hc).domain_fits
  refine ⟨(List.zipWith (fun k c => k • c.quotientPoly n columns periodic b) coefficients cs).sum,
    ?_, fun x hne => ?_⟩
  · rw [← Polynomial.mem_degreeLT]
    refine list_sum_mem fun p hp => ?_
    obtain ⟨i, hi, rfl⟩ := List.mem_iff_getElem.mp hp
    rw [List.getElem_zipWith]
    refine Submodule.smul_mem _ _ (Polynomial.mem_degreeLT.mpr ?_)
    have hc := List.getElem_mem (l := cs) (n := i) (by simpa [hcoefficients] using hi)
    exact Constraint.degree_quotientPoly_lt hn (hexp _ hc) (h.composable _ hc).degree_lt
  · obtain ⟨q, hq, hvalue⟩ := evalAt_pointCell columns h hcoefficients hne
    refine ⟨q, by rw [h.mask_eq, hq], hvalue.trans (congrArg _ ?_)⟩
    have hsum := map_list_sum (Polynomial.evalRingHom x)
      (List.zipWith (fun k c => k • c.quotientPoly n columns periodic b) coefficients cs)
    rw [List.map_zipWith] at hsum
    simp only [Polynomial.coe_evalRingHom, Polynomial.eval_smul, smul_eq_mul] at hsum
    rw [hsum, zipWith_mul_congr coefficients fun c hc => ?_]
    exact (Constraint.eval_quotientPoly (hexp c hc) (hdvd c hc) (hne c hc)).symm

/-- The difference between a constraint and a multiple of the factor of its domain has a degree that
is far below the size of the field. -/
theorem natDegree_sub_mul_lt (hn : isPowerOfTwo n = true) (hword : n < 2 ^ 64)
    (hbound : degreeBound < 2 ^ 64) {c : Constraint}
    (hc : c.Composable n mask periodic b degreeBound) {C : Polynomial Felt}
    (hC : C.degree < degreeBound) :
    ((c.numerator n columns periodic b - (c.domain.factor n).poly (Felt.rootOfUnity n) * C) *
      (.X ^ n - 1)).natDegree < starkPrime := by
  have hexp : (c.domain.factor n).exponent ≤ n :=
    Nat.le_of_dvd (pos_of_isPowerOfTwo hn) (Rows.exponent_dvd hn hc.domain_fits)
  have hnumerator : (c.numerator n columns periodic b).natDegree ≤ degreeBound + n := by
    have hle : (c.numerator n columns periodic b).natDegree ≤ _ :=
      c.natDegree_numerator_le (dvd_order_of_isPowerOfTwo hn hword)
    have hlt := hc.degree_lt
    rw [Constraint.degree, Composition.termDegree] at hlt
    omega
  have hmultiple : ((c.domain.factor n).poly (Felt.rootOfUnity n) * C).natDegree ≤
      degreeBound + n := by
    have hle : C.natDegree ≤ degreeBound := Polynomial.natDegree_le_of_degree_le hC.le
    have hmul := Polynomial.natDegree_mul_le
      (p := (c.domain.factor n).poly (Felt.rootOfUnity n)) (q := C)
    rw [VanishingFactor.natDegree_poly] at hmul
    omega
  have hunit : (.X ^ n - 1 : Polynomial Felt).natDegree ≤ n :=
    (Polynomial.natDegree_sub_le _ _).trans (by simp)
  have hdifference := (Polynomial.natDegree_sub_le _ _).trans (max_le hnumerator hmultiple)
  calc ((c.numerator n columns periodic b - (c.domain.factor n).poly (Felt.rootOfUnity n) * C) *
      (.X ^ n - 1)).natDegree
      ≤ degreeBound + n + n := Polynomial.natDegree_mul_le.trans (add_le_add hdifference hunit)
    _ < 3 * 2 ^ 64 := by omega
    _ < starkPrime := by decide

/-- A composition of a low degree for all coefficients is one for each constraint alone. The
difference of the constraint and the multiple of the factor of its domain is zero outside of the
trace domain, and on it the polynomial `x^n - 1` is. -/
theorem dvd_of_isLowDegree (h : Accepts n mask cs periodic b degreeBound comp)
    (hword : n < 2 ^ 64) (hbound : degreeBound < 2 ^ 64)
    (hlow : ∀ coefficients : List Felt, coefficients.length = cs.length →
      comp.IsLowDegree n degreeBound cs columns coefficients) {c : Constraint} (hc : c ∈ cs) :
    (c.domain.factor n).poly (Felt.rootOfUnity n) ∣ c.numerator n columns periodic b := by
  -- coefficients that leave one constraint only
  obtain ⟨i, hi⟩ := List.mem_iff_getElem?.mp hc
  have hlength : ((List.replicate cs.length (0 : Felt)).set i 1).length = cs.length := by simp
  obtain ⟨C, hdegree, hvalue⟩ := hlow _ hlength
  have hroot := isPrimitiveRoot_of_isPowerOfTwo h.isPowerOfTwo hword
  have hroots (x : Felt) : ((c.numerator n columns periodic b -
      (c.domain.factor n).poly (Felt.rootOfUnity n) * C) * (.X ^ n - 1)).eval x = 0 := by
    rw [Polynomial.eval_mul, mul_eq_zero]
    by_cases hne : ∀ c ∈ cs, (c.domain.factor n).eval x (Felt.rootOfUnity n) ≠ 0
    · left
      obtain ⟨q, hq, hC⟩ := hvalue x hne
      obtain ⟨q', hq', hquotient⟩ := evalAt_pointCell columns h hlength hne
      rw [h.mask_eq] at hq
      obtain rfl := Except.ok.inj (hq.symm.trans hq')
      rw [sum_zipWith_set _ hi] at hquotient
      rw [Polynomial.eval_sub, Polynomial.eval_mul, VanishingFactor.eval_poly,
        Except.ok.inj (hC.symm.trans hquotient), Constraint.quotient, ← Constraint.eval_numerator,
        mul_div_cancel₀ _ (hne c hc), sub_self]
    · right
      push Not at hne
      obtain ⟨c', hc', hx⟩ := hne
      have hone := Rows.pow_eq_one_of_eval_factor h.isPowerOfTwo hroot
        (h.composable c' hc').domain_fits hx
      rw [Polynomial.eval_sub, Polynomial.eval_pow, Polynomial.eval_X, Polynomial.eval_one, hone,
        sub_self]
  -- no other polynomial of that degree is zero on the whole field
  have hproduct := Polynomial.eq_zero_of_natDegree_lt_card_of_eval_eq_zero _
    Function.injective_id hroots (by
      rw [Felt.card_felt]
      exact natDegree_sub_mul_lt h.isPowerOfTwo hword hbound (h.composable c hc) hdegree)
  have hunit : (.X ^ n - 1 : Polynomial Felt) ≠ 0 := by
    rw [← Polynomial.C_1]
    exact Polynomial.X_pow_sub_C_ne_zero (pos_of_isPowerOfTwo h.isPowerOfTwo) 1
  exact ⟨C, sub_eq_zero.mp ((mul_eq_zero.mp hproduct).resolve_right hunit)⟩

/-- Constraints that can be composed can be checked on columns that hold the cells of the mask. -/
theorem Accepts.checkable (h : Accepts n mask cs periodic b degreeBound comp)
    (hwidth : ∀ cell ∈ mask, cell.1 < columns.length) {c : Constraint} (hc : c ∈ cs) :
    c.Checkable n columns.length b := by
  have hcomposable := h.composable c hc
  refine ⟨hcomposable.domain_fits, hcomposable.exclusions_fit, fun l hl => ?_⟩
  have hbound := hcomposable.leaves_bound l hl
  cases l with
  | cell column offset => exact hwidth _ hbound
  | constant v | periodic i | challenge i | hint i => exact hbound

/-- A check of a trace finds no violation if and only if the composition with any coefficients is a
polynomial of a degree below the bound. -/
theorem checkConstraints_eq_nil_iff_lowDegree
    (h : ofConstraints n cs periodic challenges hints degreeBound = .ok comp) (hword : n < 2 ^ 64)
    (hbound : degreeBound < 2 ^ 64)
    (hperiodic : ∀ p ∈ periodic, ∃ values step, PeriodicColumn.ofValues values n step = .ok p)
    (hsize : ∀ column ∈ columns, column.size = n)
    (hwidth : ∀ cell ∈ comp.mask, cell.1 < columns.length) :
    checkConstraints n columns cs periodic challenges hints = .ok [] ↔
      ∀ coefficients : List Felt, coefficients.length = cs.length →
        comp.IsLowDegree n degreeBound cs columns coefficients := by
  have haccepts := accepts_of_ofMask h
  have hfor (p : PeriodicColumn) (hp : p ∈ periodic) : p.IsFor n := by
    obtain ⟨values, step, hp⟩ := hperiodic p hp
    exact PeriodicColumn.isFor_of_ofValues hp
  rw [haccepts.mask_eq] at hwidth
  rw [checkConstraints_eq_nil_iff haccepts.isPowerOfTwo hsize fun c hc =>
    haccepts.checkable hwidth hc]
  have hholds (c : Constraint) (hc : c ∈ cs) :
      c.Holds n columns periodic ⟨challenges, hints, periodic.length⟩ ↔ _ :=
    Constraint.holds_iff_dvd haccepts.isPowerOfTwo hword hfor (haccepts.composable c hc).domain_fits
      (haccepts.composable c hc).exclusions_fit
  constructor
  · intro hall coefficients hcoefficients
    exact isLowDegree_of_dvd haccepts hword (fun c hc => (hholds c hc).mp (hall c hc)) hcoefficients
  · intro hlow c hc
    exact (hholds c hc).mpr (dvd_of_isLowDegree haccepts hword hbound hlow hc)

theorem checkConstraints_products :
    ∃ comp, ofConstraints 4 products [alternating] [] [] 4 = .ok comp ∧
      (checkConstraints 4 [#[1, 1, 2, 2]] products [alternating] [] [] = .ok [] ↔
        ∀ coefficients : List Felt, coefficients.length = products.length →
          comp.IsLowDegree 4 4 products [#[1, 1, 2, 2]] coefficients) := by
  have hmask : deriveMask products = [(0, 0), (0, 1)] := by decide
  obtain ⟨comp, h⟩ := exists_ofMask_products
  rw [← hmask] at h
  have hperiodic : ∀ p ∈ [alternating], ∃ values step,
      PeriodicColumn.ofValues values 4 step = .ok p :=
    List.forall_mem_singleton.mpr ⟨[1, 2], 1, rfl⟩
  have hwidth : ∀ cell ∈ comp.mask, cell.1 < [#[1, 1, 2, 2]].length := by
    rw [(accepts_of_ofMask h).mask_eq, hmask]
    simp
  exact ⟨comp, h, checkConstraints_eq_nil_iff_lowDegree h (by decide) (by decide) hperiodic
    (by simp) hwidth⟩

end Composition

end CairoTrace
