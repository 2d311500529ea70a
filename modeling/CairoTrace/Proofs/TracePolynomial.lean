import CairoTrace.Proofs.Check
import CairoTrace.Proofs.Composition.PointEvaluation
import CairoTrace.Proofs.Polynomial.Periodic
import Mathlib.LinearAlgebra.Lagrange

/-!
# Constraints as polynomials

The columns of a trace are interpolated over its domain, and a constraint becomes a polynomial in
the point (`Constraint.poly`). At the points of rows cells and periodic columns have the values that
they have on the rows (`pointCell_row`, `periodicAt_row`), so that a constraint holds if and only if
its polynomial, times the factors of its exclusions, is divisible by the factor of its domain
(`Constraint.holds_iff_dvd`).
-/

namespace CairoTrace

variable {n : Nat} {columns : List (Array Felt)} {periodic : List PeriodicColumn} {b : Bindings}

/-! ## Columns -/

/-- The polynomial of a degree below `n` with the values of a column on the trace domain. -/
noncomputable def columnPoly (n : Nat) (column : Array Felt) : Polynomial Felt :=
  Lagrange.interpolate (Finset.range n) (Felt.rootOfUnity n ^ ·) (column[·]?.getD 0)

/-- The value of a cell around a point, from the polynomials of the columns. -/
noncomputable def pointCell (n : Nat) (columns : List (Array Felt)) (x : Felt)
    (cell : Cell) : Felt :=
  (columnPoly n (columns[cell.1]?.getD #[])).eval (x * Felt.rootOfUnity n ^ cell.2)

theorem injOn_points (hn : n ∣ starkPrime - 1) :
    Set.InjOn (Felt.rootOfUnity n ^ ·) (Finset.range n : Set Nat) := by
  intro i hi j hj hij
  rw [Finset.mem_coe, Finset.mem_range] at hi hj
  exact (Felt.rootOfUnity_isPrimitiveRoot hn).pow_inj hi hj hij

theorem eval_columnPoly (hn : n ∣ starkPrime - 1) {column : Array Felt} {i : Nat} (hi : i < n) :
    (columnPoly n column).eval (Felt.rootOfUnity n ^ i) = column[i]?.getD 0 :=
  Lagrange.eval_interpolate_at_node _ (injOn_points hn) (Finset.mem_range.mpr hi)

theorem degree_columnPoly_lt (hn : n ∣ starkPrime - 1) (column : Array Felt) :
    (columnPoly n column).degree < n := by
  have hdegree := Lagrange.degree_interpolate_lt (column[·]?.getD 0) (injOn_points hn)
  rwa [Finset.card_range] at hdegree

theorem natDegree_columnPoly_le (hn : n ∣ starkPrime - 1) (column : Array Felt) :
    (columnPoly n column).natDegree ≤ n - 1 := by
  have hlt := degree_columnPoly_lt hn column
  by_cases hzero : columnPoly n column = 0
  · rw [hzero, Polynomial.natDegree_zero]
    exact Nat.zero_le _
  · exact Nat.le_sub_one_of_lt ((Polynomial.natDegree_lt_iff_degree_lt hzero).mpr hlt)

theorem coe_wrapRow (hpos : 0 < n) (row : Nat) (offset : Int) :
    (Composition.wrapRow n row offset : Int) = (row + offset) % n :=
  Int.toNat_of_nonneg (Int.emod_nonneg _ (Int.natCast_ne_zero.mpr hpos.ne'))

theorem wrapRow_lt (hpos : 0 < n) (row : Nat) (offset : Int) :
    Composition.wrapRow n row offset < n := by
  have hlt := Int.emod_lt_of_pos (row + offset) (Int.natCast_pos.mpr hpos)
  rw [← coe_wrapRow hpos] at hlt
  exact Int.ofNat_lt.mp hlt

/-- Offsets in the exponent of the generator wrap around as rows do. -/
theorem point_mul_zpow (hpos : 0 < n) (hn : n ∣ starkPrime - 1) (row : Nat) (offset : Int) :
    Felt.rootOfUnity n ^ row * Felt.rootOfUnity n ^ offset =
      Felt.rootOfUnity n ^ Composition.wrapRow n row offset := by
  have hroot := Felt.rootOfUnity_isPrimitiveRoot hn
  have hne : Felt.rootOfUnity n ≠ 0 := hroot.ne_zero hpos.ne'
  rw [← zpow_natCast, ← zpow_natCast, coe_wrapRow hpos, ← zpow_add₀ hne]
  nth_rewrite 1 [← Int.mul_ediv_add_emod (row + offset) n]
  rw [zpow_add₀ hne, zpow_mul, zpow_natCast, hroot.pow_eq_one, one_zpow, one_mul]

/-- The cells around the point of a row are those read from the row. -/
theorem pointCell_row (hpos : 0 < n) (hn : n ∣ starkPrime - 1) (row : Nat) :
    pointCell n columns (Felt.rootOfUnity n ^ row) = rowCell n columns row := by
  funext cell
  rw [pointCell, point_mul_zpow hpos hn, eval_columnPoly hn (wrapRow_lt hpos row cell.2), rowCell]

theorem periodicAt_row (hn : n ∣ starkPrime - 1) (hperiodic : ∀ p ∈ periodic, p.IsFor n)
    (row : Nat) :
    Composition.periodicAt periodic (Felt.rootOfUnity n ^ row) = rowPeriodic periodic row := by
  funext i
  rw [Composition.periodicAt, rowPeriodic]
  cases hp : periodic[i]? with
  | none => rfl
  | some p =>
    rw [Option.map_some, Option.map_some, Option.getD_some, Option.getD_some,
      p.lookupCyclic_cosetValues hn (hperiodic p (List.mem_of_getElem? hp)), one_mul]

/-! ## Leaves -/

namespace Leaf

/-- What a leaf reads, as a polynomial in the point. -/
noncomputable def poly (n : Nat) (columns : List (Array Felt)) (periodic : List PeriodicColumn)
    (b : Bindings) : Leaf → Polynomial Felt
  | .constant v => .C v
  | .cell column offset =>
    (columnPoly n (columns[column]?.getD #[])).comp (.X * .C (Felt.rootOfUnity n ^ offset))
  | .periodic i => (periodic[i]?.map (·.poly)).getD 0
  | .challenge i => .C (b.challenges[i]?.getD 0)
  | .hint i => .C (b.hints[i]?.join.getD 0)

theorem eval_poly (l : Leaf) (x : Felt) :
    (l.poly n columns periodic b).eval x =
      l.read b (pointCell n columns x) (Composition.periodicAt periodic x) := by
  cases l with
  | constant v | challenge i | hint i => exact Polynomial.eval_C
  | cell column offset =>
    rw [poly, read, pointCell, Polynomial.eval_comp, Polynomial.eval_mul, Polynomial.eval_X,
      Polynomial.eval_C]
  | periodic i =>
    rw [poly, read, Composition.periodicAt]
    cases periodic[i]? with
    | none => exact Polynomial.eval_zero
    | some p => exact p.eval_poly x

theorem natDegree_poly_le (hn : n ∣ starkPrime - 1) (l : Leaf) :
    (l.poly n columns periodic b).natDegree ≤ l.degree n periodic := by
  cases l with
  | constant v | challenge i | hint i => exact (Polynomial.natDegree_C _).le
  | cell column offset =>
    have hlinear := Polynomial.natDegree_mul_C_le (.X : Polynomial Felt)
      (Felt.rootOfUnity n ^ offset)
    rw [Polynomial.natDegree_X] at hlinear
    rw [poly, Polynomial.natDegree_comp]
    exact (Nat.mul_le_mul (natDegree_columnPoly_le hn _) hlinear).trans_eq (mul_one _)
  | periodic i =>
    rw [poly, degree]
    cases periodic[i]? with
    | none => exact Polynomial.natDegree_zero.le
    | some p => exact p.natDegree_poly_le

end Leaf

/-! ## Constraints -/

namespace Constraint

/-- The expression of a constraint as a polynomial in the point. -/
noncomputable def poly (n : Nat) (columns : List (Array Felt)) (periodic : List PeriodicColumn)
    (b : Bindings) (c : Constraint) : Polynomial Felt :=
  c.expr.eval (Leaf.poly n columns periodic b)

/-- The polynomial of a constraint times the factors of its exclusions. -/
noncomputable def numerator (n : Nat) (columns : List (Array Felt)) (periodic : List PeriodicColumn)
    (b : Bindings) (c : Constraint) : Polynomial Felt :=
  c.poly n columns periodic b * ((c.exclusionFactors n).map (·.poly (Felt.rootOfUnity n))).prod

theorem eval_poly (c : Constraint) (x : Felt) :
    (c.poly n columns periodic b).eval x =
      c.value b (pointCell n columns x) (Composition.periodicAt periodic x) := by
  have hhom := Expr.hom_eval (Polynomial.evalRingHom x) (Leaf.poly n columns periodic b) c.expr
  simp only [Polynomial.coe_evalRingHom, Leaf.eval_poly] at hhom
  exact hhom

theorem eval_numerator (c : Constraint) (x : Felt) :
    (c.numerator n columns periodic b).eval x =
      c.value b (pointCell n columns x) (Composition.periodicAt periodic x) *
        ((c.exclusionFactors n).map (·.eval x (Felt.rootOfUnity n))).prod := by
  have hprod := map_list_prod (Polynomial.evalRingHom x)
    ((c.exclusionFactors n).map (·.poly (Felt.rootOfUnity n)))
  simp only [Polynomial.coe_evalRingHom, List.map_map, Function.comp_def,
    VanishingFactor.eval_poly] at hprod
  rw [numerator, Polynomial.eval_mul, eval_poly, hprod]

theorem natDegree_numerator_le (hn : n ∣ starkPrime - 1) (c : Constraint) :
    (c.numerator n columns periodic b).natDegree ≤ c.expr.degree (Leaf.degree n periodic) +
      ((c.exclusionFactors n).map (·.exponent)).foldr (· + ·) 0 := by
  have hexpr : (c.poly n columns periodic b).natDegree ≤ c.expr.degree (Leaf.degree n periodic) :=
    Expr.natDegree_eval_le fun l _ => l.natDegree_poly_le hn
  have hprod (fs : List VanishingFactor) :
      (fs.map (VanishingFactor.poly · (Felt.rootOfUnity n))).prod.natDegree ≤
        (fs.map (·.exponent)).foldr (· + ·) 0 := by
    induction fs with
    | nil => simp
    | cons f fs ih =>
      rw [List.map_cons, List.prod_cons, List.map_cons, List.foldr_cons]
      exact Polynomial.natDegree_mul_le.trans (add_le_add (f.natDegree_poly _).le ih)
  exact Polynomial.natDegree_mul_le.trans (add_le_add hexpr (hprod _))

/-- The factors of the exclusions are zero at the point of a row if and only if it is excluded. -/
theorem prod_exclusionFactors_row_eq_zero_iff (hn : isPowerOfTwo n = true)
    (hword : n < 2 ^ 64) {c : Constraint} (hc : ∀ rows ∈ c.exclusions, rows.fits n = true)
    {row : Nat} (hrow : row < n) :
    ((c.exclusionFactors n).map
        (·.eval (Felt.rootOfUnity n ^ row) (Felt.rootOfUnity n))).prod = 0 ↔
      ∃ rows ∈ c.exclusions, rows.contains n row = true := by
  rw [List.prod_eq_zero_iff, exclusionFactors, List.map_map, List.mem_map]
  refine exists_congr fun rows => and_congr_right fun hrows => ?_
  exact Rows.eval_factor_row_eq_zero_iff hn (isPrimitiveRoot_of_isPowerOfTwo hn hword)
    (hc rows hrows) hrow

/-- A constraint holds on a trace if and only if the factor of its domain divides its polynomial,
with the factors of its exclusions. -/
theorem holds_iff_dvd (hn : isPowerOfTwo n = true) (hword : n < 2 ^ 64)
    (hperiodic : ∀ p ∈ periodic, p.IsFor n) {c : Constraint} (hdomain : c.domain.fits n = true)
    (hexclusions : ∀ rows ∈ c.exclusions, rows.fits n = true) :
    c.Holds n columns periodic b ↔
      (c.domain.factor n).poly (Felt.rootOfUnity n) ∣ c.numerator n columns periodic b := by
  have hpos := pos_of_isPowerOfTwo hn
  have hclass := Rows.isResidueClass_of_fits hn hdomain
  have hroot := isPrimitiveRoot_of_isPowerOfTwo hn hword
  have hrow (row : Nat) : (c.numerator n columns periodic b).eval (Felt.rootOfUnity n ^ row) =
      c.value b (rowCell n columns row) (rowPeriodic periodic row) * ((c.exclusionFactors n).map
        (·.eval (Felt.rootOfUnity n ^ row) (Felt.rootOfUnity n))).prod := by
    have hdvd := dvd_order_of_isPowerOfTwo hn hword
    rw [eval_numerator, pointCell_row hpos hdvd, periodicAt_row hdvd hperiodic]
  constructor
  · intro h
    refine Rows.poly_factor_dvd hn hroot hdomain fun row hcontains => ?_
    rw [hrow]
    by_cases hexcluded : ∃ rows ∈ c.exclusions, rows.contains n row = true
    · rw [(prod_exclusionFactors_row_eq_zero_iff hn hword hexclusions
        (Rows.contains_iff.mp hcontains).1).mpr hexcluded, mul_zero]
    · rw [h row ((mem_appliedRows_iff hclass).mpr ⟨hcontains, hexcluded⟩), zero_mul]
  · rintro ⟨q, hq⟩ row happlied
    obtain ⟨hcontains, hexcluded⟩ := (mem_appliedRows_iff hclass).mp happlied
    have hlt := (Rows.contains_iff.mp hcontains).1
    have hzero := hrow row
    rw [hq, Polynomial.eval_mul, VanishingFactor.eval_poly,
      (Rows.eval_factor_row_eq_zero_iff hn hroot hdomain hlt).mpr hcontains, zero_mul] at hzero
    exact (mul_eq_zero.mp hzero.symm).resolve_right fun hprod => hexcluded
      ((prod_exclusionFactors_row_eq_zero_iff hn hword hexclusions hlt).mp hprod)

end Constraint

end CairoTrace
