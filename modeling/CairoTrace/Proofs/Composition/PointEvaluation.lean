import CairoTrace.Proofs.Composition.Acceptance

/-!
# The composition at a point

A constraint has a quotient at every point where its domain factor is not zero. The composition
that has been accepted for some constraints has no value at a point exactly if one of the domain
factors is zero there, and otherwise its value is the sum of the quotients, each with its own
coefficient (`evalAt_eq_sum`). The grouping by factors and the split of the factors into linear and
tabled ones leave no trace in the value.
-/

namespace CairoTrace

namespace Constraint

/-- The quotient of a constraint at a point, from the values of cells and periodic columns there. -/
def quotient (n : Nat) (b : Bindings) (cell : Cell → Felt) (periodic : Nat → Felt) (x : Felt)
    (c : Constraint) : Felt :=
  c.value b cell periodic * ((c.exclusionFactors n).map (·.eval x (Felt.rootOfUnity n))).prod /
    (c.domain.factor n).eval x (Felt.rootOfUnity n)

end Constraint

namespace Composition

variable {n degreeBound : Nat} {mask : List Cell} {cs : List Constraint}
  {periodic : List PeriodicColumn} {b : Bindings} {comp : Composition}

/-- The value that neighbors hold for a cell, at its place in the mask. -/
def neighborAt (mask : List Cell) (neighbors : List Felt) (cell : Cell) : Felt :=
  neighbors[mask.idxOf cell]?.getD 0

/-- The values of periodic columns at a point. -/
def periodicAt (periodic : List PeriodicColumn) (x : Felt) (i : Nat) : Felt :=
  (periodic[i]?.map (·.eval x)).getD 0

/-! ## The values of factors -/

/-- Linear factors from their shifts and the others from their values, in the order of the
factors. -/
theorem factorValues_eq (x g : Felt) (factors : List VanishingFactor) :
    factorValues x factors ((factors.filter (·.exponent == 1)).map (·.shiftValue g))
      ((factors.filter (·.exponent != 1)).map (·.eval x g)) = factors.map (·.eval x g) := by
  induction factors with
  | nil => rfl
  | cons f factors ih =>
    rw [factorValues, List.map_cons]
    split
    · next h =>
      rw [List.filter_cons_of_pos (by simpa using h), List.filter_cons_of_neg (by simpa using h),
        List.map_cons, List.headD_cons, List.tail_cons, ih, VanishingFactor.eval, h, pow_one]
    · next h =>
      rw [List.filter_cons_of_pos (by simpa using h), List.filter_cons_of_neg (by simpa using h),
        List.map_cons, List.headD_cons, List.tail_cons, ih]

/-! ## The values of expressions -/

theorem maskPlaces_eq_idxOf (hmask : mask.Nodup) {cell : Cell} {i : Nat}
    (h : (maskPlaces mask)[cell]? = some i) : i = mask.idxOf cell := by
  obtain ⟨hi, rfl⟩ := List.getElem?_eq_some_iff.mp (maskPlaces_eq_some h)
  exact (hmask.idxOf_getElem i hi).symm

/-- Compiled expressions have the values of the expressions that they come from. -/
theorem Compiles.map_eval {done : List (Constraint × Nat)} {s : Compiled}
    (h : Compiles n mask periodic b degreeBound done s) (hmask : mask.Nodup) (neighbors : List Felt)
    (periodicValue : Nat → Felt) :
    s.exprs.map (·.eval (BoundLeaf.value (neighbors[·]?.getD 0) periodicValue)) =
      done.map (·.1.value b (neighborAt mask neighbors) periodicValue) := by
  rw [← List.forall₂_eq_eq_eq, List.forall₂_map_left_iff, List.forall₂_map_right_iff]
  refine h.exprs.flip.imp fun e p he => Constraint.eval_of_tryMap_bind he fun cell i hi => ?_
  rw [neighborAt, maskPlaces_eq_idxOf hmask hi]

/-- A sum over elements with their indices, whose weights are the entries of a list. -/
theorem sum_map_zipIdx {α : Type} {weights : List Felt} {l : List α} (value f : α → Felt)
    (h : weights.length = l.length) :
    (l.zipIdx.map fun p =>
        (List.zipWith (fun k a => k * value a) weights l).toArray[p.2]?.getD 0 * f p.1).sum =
      (List.zipWith (fun k a => k * (value a * f a)) weights l).sum := by
  congr 1
  apply List.ext_getElem
  · simp [h]
  · intro i hi _
    have hl : i < l.length := by simpa using hi
    have hw : i < weights.length := h ▸ hl
    simp [hl, hw, mul_assoc]

/-! ## The value at a point -/

theorem checkCount_self (error : Nat → Nat → ConstraintError) (k : Nat) :
    checkCount error k k = .ok () := if_pos rfl

variable {challenges : List Felt} {hints : List (Option Felt)}

/-- The composition at a point, once the lengths of what it is given are right. -/
theorem evalAt_eq_sumGroups
    (h : Accepts n mask cs periodic b degreeBound comp) {x : Felt}
    {neighbors coefficients : List Felt} (hneighbors : neighbors.length = mask.length)
    (hcoefficients : coefficients.length = cs.length) :
    comp.evalAt x neighbors coefficients =
      sumGroups (comp.factors.map (·.eval x (Felt.rootOfUnity n))).toArray
        (List.zipWith (fun k c => k * c.value b (neighborAt mask neighbors) (periodicAt periodic x))
          coefficients cs).toArray
        comp.groups := by
  have hexprs := (h.compiles.map_eval h.mask_nodup neighbors (periodicAt periodic x)).trans
    (Result.map_zipIdx_comp
      (Constraint.value b (neighborAt mask neighbors) (periodicAt periodic x)) cs)
  have hlength := h.compiles.exprs.length_eq
  rw [List.length_zipIdx] at hlength
  rw [evalAt, evalFrom, h.mask_eq, hneighbors, List.length_map, hcoefficients, ← hlength,
    pointShifts, List.length_map, List.length_map]
  simp only [checkCount_self, Result.ok_bind]
  congr 2
  · rw [h.generator_eq]
    exact factorValues_eq x (Felt.rootOfUnity n) comp.factors
  · have hperiodic : (fun i => (comp.periodic.map (·.eval x)).toArray[i]?.getD 0) =
        periodicAt periodic x := by
      funext i
      rw [List.getElem?_toArray, List.getElem?_map, h.periodic_eq, periodicAt]
    rw [hperiodic]
    simp only [List.getElem?_toArray]
    have hweigh := congrArg (List.zipWith (· * ·) coefficients) hexprs
    rwa [List.zipWith_map_right, List.zipWith_map_right] at hweigh

theorem evalAt_eq_error (h : Accepts n mask cs periodic b degreeBound comp) {x : Felt}
    {neighbors coefficients : List Felt} (hneighbors : neighbors.length = mask.length)
    (hcoefficients : coefficients.length = cs.length)
    (hzero : ∃ c ∈ cs, (c.domain.factor n).eval x (Felt.rootOfUnity n) = 0) :
    comp.evalAt x neighbors coefficients = .error .pointOnDomain := by
  rw [evalAt_eq_sumGroups h hneighbors hcoefficients]
  have htable := tabulates_map comp.factors (·.eval x (Felt.rootOfUnity n))
  apply sumGroups_eq_error
  apply (h.compiles.denominators _ _ htable 0).mpr
  exact (Result.exists_mem_zipIdx_iff (p := fun c => _ = 0)).mpr hzero

theorem evalAt_eq_ok (h : Accepts n mask cs periodic b degreeBound comp) {x : Felt}
    {neighbors coefficients : List Felt} (hneighbors : neighbors.length = mask.length)
    (hcoefficients : coefficients.length = cs.length)
    (hne : ∀ c ∈ cs, (c.domain.factor n).eval x (Felt.rootOfUnity n) ≠ 0) :
    ∃ q, comp.evalAt x neighbors coefficients = .ok q ∧ q.denominator ≠ 0 ∧
      q.value = (List.zipWith (fun k c => k * c.quotient n b (neighborAt mask neighbors)
        (periodicAt periodic x) x) coefficients cs).sum := by
  rw [evalAt_eq_sumGroups h hneighbors hcoefficients]
  have htable := tabulates_map comp.factors (·.eval x (Felt.rootOfUnity n))
  have hgroups : ∀ g ∈ comp.groups,
      (comp.factors.map (·.eval x (Felt.rootOfUnity n))).toArray[g.factor]?.getD 0 ≠ 0 := by
    intro g hg hzero
    obtain ⟨p, hp, hzero⟩ := (h.compiles.denominators _ _ htable 0).mp ⟨g, hg, hzero⟩
    exact hne p.1 (List.fst_mem_of_mem_zipIdx hp) hzero
  obtain ⟨q, hq, hden, hvalue⟩ := sumGroups_eq_ok
    (List.zipWith (fun k c => k * c.value b (neighborAt mask neighbors) (periodicAt periodic x))
      coefficients cs).toArray hgroups
  refine ⟨q, hq, hden, ?_⟩
  rw [hvalue, h.compiles.sum _ _ _ htable]
  simp only [Constraint.quotient, mul_div_assoc]
  exact sum_map_zipIdx (Constraint.value b (neighborAt mask neighbors) (periodicAt periodic x))
    (fun c => ((c.exclusionFactors n).map (·.eval x (Felt.rootOfUnity n))).prod /
      (c.domain.factor n).eval x (Felt.rootOfUnity n)) hcoefficients

/-- A zero denominator is the only fault. -/
theorem evalAt_eq_error_or_ok (h : Accepts n mask cs periodic b degreeBound comp) (x : Felt)
    {neighbors coefficients : List Felt} (hneighbors : neighbors.length = mask.length)
    (hcoefficients : coefficients.length = cs.length) :
    comp.evalAt x neighbors coefficients = .error .pointOnDomain ∨
      ∃ q, comp.evalAt x neighbors coefficients = .ok q ∧ q.denominator ≠ 0 := by
  by_cases hzero : ∃ c ∈ cs, (c.domain.factor n).eval x (Felt.rootOfUnity n) = 0
  · exact .inl (evalAt_eq_error h hneighbors hcoefficients hzero)
  · push Not at hzero
    obtain ⟨q, hq, hden, -⟩ := evalAt_eq_ok h hneighbors hcoefficients hzero
    exact .inr ⟨q, hq, hden⟩

/-- The composition that has been accepted for some constraints has no value at a point if and only
if the factor of one of the domains is zero there. Otherwise it resolves to the sum of the quotients
of the constraints, each with its own coefficient. -/
theorem evalAt_eq_sum (h : ofMask n mask cs periodic challenges hints degreeBound = .ok comp)
    {x : Felt} {neighbors coefficients : List Felt} (hneighbors : neighbors.length = mask.length)
    (hcoefficients : coefficients.length = cs.length) :
    (comp.evalAt x neighbors coefficients = .error .pointOnDomain ↔
      ∃ c ∈ cs, (c.domain.factor n).eval x (Felt.rootOfUnity n) = 0) ∧
    ((∀ c ∈ cs, (c.domain.factor n).eval x (Felt.rootOfUnity n) ≠ 0) →
      ∃ q, comp.evalAt x neighbors coefficients = .ok q ∧ q.denominator ≠ 0 ∧
        q.resolve = .ok (List.zipWith
          (fun k c => k * c.quotient n ⟨challenges, hints, periodic.length⟩
            (neighborAt mask neighbors) (periodicAt periodic x) x) coefficients cs).sum) := by
  have haccepts := accepts_of_ofMask h
  constructor
  · refine ⟨fun herror => ?_, evalAt_eq_error haccepts hneighbors hcoefficients⟩
    by_contra hne
    push Not at hne
    obtain ⟨q, hq, -⟩ := evalAt_eq_ok haccepts hneighbors hcoefficients hne
    cases herror.symm.trans hq
  · intro hne
    obtain ⟨q, hq, hden, hvalue⟩ := evalAt_eq_ok haccepts hneighbors hcoefficients hne
    exact ⟨q, hq, hden, Fraction.resolve_eq_ok_iff.mpr ⟨hden, hvalue⟩⟩

theorem evalAt_products :
    ∃ comp, ofMask 4 [(0, 0), (0, 1)] products [alternating] [] [] 4 = .ok comp ∧
      (∀ c ∈ products, (c.domain.factor 4).eval 5 (Felt.rootOfUnity 4) ≠ 0) ∧
      ∃ q, comp.evalAt 5 [6, 7] [8, 9] = .ok q ∧ q.denominator ≠ 0 ∧
        q.resolve = .ok (List.zipWith (fun k c => k * c.quotient 4 ⟨[], [], 1⟩
          (neighborAt [(0, 0), (0, 1)] [6, 7]) (periodicAt [alternating] 5) 5) [8, 9] products).sum := by
  obtain ⟨comp, h⟩ := exists_ofMask_products
  have hne : ∀ c ∈ products, (c.domain.factor 4).eval 5 (Felt.rootOfUnity 4) ≠ 0 := by
    decide
  exact ⟨comp, h, hne, (evalAt_eq_sum h rfl rfl).2 hne⟩

end Composition

end CairoTrace
