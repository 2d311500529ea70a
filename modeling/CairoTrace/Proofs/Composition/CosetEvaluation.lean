import CairoTrace.Proofs.Check
import CairoTrace.Proofs.Composition.PointEvaluation
import CairoTrace.Proofs.Polynomial.Periodic

/-!
# The composition on a coset

On a coset of the trace domain the values of periodic columns and of factors repeat, and they are
looked up in tables. The tables hold what an evaluation at the point computes
(`lookupCyclic_factorTable`), so that the values on a coset are those at its points
(`evalOnCoset_eq_mapM`, `evalOnCoset_spec`).
-/

namespace CairoTrace

namespace Composition

variable {n degreeBound : Nat} {mask : List Cell} {cs : List Constraint}
  {periodic : List PeriodicColumn} {b : Bindings} {challenges : List Felt}
  {hints : List (Option Felt)} {comp : Composition}

/-! ## Tables -/

/-- Looked up cyclically, the table of a factor holds its values at the points of all rows. -/
theorem lookupCyclic_factorTable {g : Felt} (hg : IsPrimitiveRoot g n) (hn : 0 < n)
    {exponent : Nat} (hexp : exponent ∣ n) (point shift : Felt) (i : Nat) :
    lookupCyclic (factorTable point g n exponent shift).toArray i =
      (point * g ^ i) ^ exponent - shift := by
  have hpos : 0 < n / exponent :=
    Nat.div_pos (Nat.le_of_dvd hn hexp) (Nat.pos_of_dvd_of_pos hexp hn)
  have hroot : IsPrimitiveRoot (g ^ exponent) (n / exponent) :=
    hg.pow hn (Nat.mul_div_cancel' hexp).symm
  have hpow : (g ^ exponent) ^ (i % (n / exponent)) = (g ^ exponent) ^ i := by
    rw [Felt.pow_eq_pow_iff hpos hroot, Nat.mod_mod]
  rw [factorTable, Polynomial.powersFrom_eq_map, List.map_map, lookupCyclic_map_range hpos,
    Function.comp_apply, hpow, mul_pow, ← pow_mul, ← pow_mul, mul_comm i]

/-- The exponents of the factors of accepted constraints divide the length of the trace. -/
theorem Accepts.exponent_dvd (h : Accepts n mask cs periodic b degreeBound comp)
    {f : VanishingFactor} (hf : f ∈ comp.factors) : f.exponent ∣ n := by
  obtain ⟨p, hp, hfactor⟩ := h.compiles.factors f hf
  have hc := h.compiles.composable p hp
  rcases hfactor with rfl | hexclusion
  · exact Rows.exponent_dvd h.isPowerOfTwo hc.domain_fits
  · obtain ⟨rows, hrows, rfl⟩ := List.mem_map.mp hexclusion
    exact Rows.exponent_dvd h.isPowerOfTwo (hc.exclusions_fit rows hrows)

/-- The tables of the factors of accepted constraints. -/
theorem factorTables_eq_ok (h : Accepts n mask cs periodic b degreeBound comp) (offset : Felt) :
    factorTables offset comp.generator n comp.domainExponents comp.domainShifts =
      .ok (comp.tabledFactors.map fun f =>
        factorTable offset comp.generator n f.exponent (f.shiftValue comp.generator)) := by
  have hzip : comp.domainExponents.zip comp.domainShifts =
      comp.tabledFactors.map fun f => (f.exponent, f.shiftValue comp.generator) := by
    rw [domainExponents, domainShifts, List.zip_map']
  rw [factorTables, hzip, domainExponents, domainShifts, List.length_map, List.length_map,
    checkCount_self, Result.ok_bind, List.mapM_map]
  refine Result.mapM_eq_map fun f hf => ?_
  have hdvd := h.exponent_dvd (List.mem_of_mem_filter hf)
  have hexp : f.exponent ≠ 0 :=
    (Nat.pos_of_dvd_of_pos hdvd (pos_of_isPowerOfTwo h.isPowerOfTwo)).ne'
  exact if_neg (not_or.mpr ⟨hexp, not_not.mpr (Nat.mod_eq_zero_of_dvd hdvd)⟩)

/-- A row of the tables of the periodic columns holds their values at its point. -/
theorem map_lookupCyclic_periodic (h : Accepts n mask cs periodic b degreeBound comp)
    (hn : n ∣ starkPrime - 1) (hperiodic : ∀ p ∈ periodic, p.IsFor n) (offset : Felt) (i : Nat) :
    (comp.periodic.map fun p => (p.cosetValues offset).toArray).map (lookupCyclic · i) =
      comp.periodic.map (·.eval (offset * comp.generator ^ i)) := by
  rw [List.map_map]
  refine List.map_congr_left fun p hp => ?_
  rw [h.periodic_eq] at hp
  rw [h.generator_eq]
  exact p.lookupCyclic_cosetValues hn (hperiodic p hp) offset i

/-- A row of the tables of the factors holds their values at its point. -/
theorem map_lookupCyclic_tabledFactors (h : Accepts n mask cs periodic b degreeBound comp)
    (hn : n ∣ starkPrime - 1) (offset : Felt) (i : Nat) :
    ((comp.tabledFactors.map fun f => factorTable offset comp.generator n f.exponent
        (f.shiftValue comp.generator)).map (·.toArray)).map (lookupCyclic · i) =
      comp.tabledFactors.map (·.eval (offset * comp.generator ^ i) comp.generator) := by
  rw [List.map_map, List.map_map]
  refine List.map_congr_left fun f hf => ?_
  rw [h.generator_eq]
  exact lookupCyclic_factorTable (Felt.rootOfUnity_isPrimitiveRoot hn)
    (pos_of_isPowerOfTwo h.isPowerOfTwo) (h.exponent_dvd (List.mem_of_mem_filter hf)) _ _ i

/-! ## Columns -/

/-- The number of columns that a mask needs is no more than there are. -/
theorem width_le_iff {columns : Nat} :
    mask.foldl (fun w cell => max w (cell.1 + 1)) 0 ≤ columns ↔
      ∀ cell ∈ mask, cell.1 < columns := by
  have hle (start : Nat) : mask.foldl (fun w cell => max w (cell.1 + 1)) start ≤ columns ↔
      start ≤ columns ∧ ∀ cell ∈ mask, cell.1 < columns := by
    induction mask generalizing start with
    | nil => simp
    | cons cell mask ih =>
      rw [List.foldl_cons, ih, max_le_iff, List.forall_mem_cons, and_assoc, Nat.add_one_le_iff]
  rw [hle, and_iff_right (Nat.zero_le columns)]

/-- The values of the cells of a mask around a row, from the columns of a trace. -/
def rowNeighbors (n : Nat) (mask : List Cell) (columns : List (Array Felt)) (row : Nat) :
    List Felt :=
  mask.map (rowCell n columns row)

/-- The evaluation of the composition at the point of a row of a coset, where the values of the
cells around the row are those of columns on the coset. -/
def evalAtRow (comp : Composition) (offset : Felt) (columns : List (Array Felt))
    (coefficients : List Felt) (row : Nat) : Except ConstraintError Fraction :=
  comp.evalAt (offset * comp.generator ^ row)
    (rowNeighbors comp.traceLength comp.mask columns row) coefficients

/-! ## The coset -/

theorem zipIdx_map_range {α : Type} (f : Nat → α) (k : Nat) :
    ((List.range k).map f).zipIdx = (List.range k).map fun i => (f i, i) := by
  rw [List.zipIdx_eq_zip_range', List.length_map, List.length_range, ← List.range_eq_range']
  have hzip := List.zip_map' (f := f) (g := id) (l := List.range k)
  rw [List.map_id] at hzip
  exact hzip

/-- The values on a coset are those at its points. -/
theorem evalOnCoset_eq_mapM (h : Accepts n mask cs periodic b degreeBound comp)
    (hn : n ∣ starkPrime - 1) (hperiodic : ∀ p ∈ periodic, p.IsFor n) (offset : Felt)
    {columns : List (Array Felt)} {coefficients : List Felt}
    (hsize : ∀ column ∈ columns, column.size = n) (hwidth : ∀ cell ∈ mask, cell.1 < columns.length)
    (hcoefficients : coefficients.length = cs.length) :
    comp.evalOnCoset offset columns coefficients =
      (List.range n).mapM fun i =>
        (comp.evalAtRow offset columns coefficients i).map Fraction.value := by
  have hlength := h.compiles.exprs.length_eq
  rw [List.length_zipIdx] at hlength
  have hshape : ¬ (columns.length < mask.foldl (fun w cell => max w (cell.1 + 1)) 0 ∨
      columns.any (·.size ≠ n) = true) := by
    rw [not_or, not_lt]
    exact ⟨width_le_iff.mpr hwidth, by simpa using hsize⟩
  rw [evalOnCoset]
  simp only [h.traceLength_eq, h.mask_eq, factorTables_eq_ok h, ← hlength, hcoefficients,
    checkCount_self, Result.ok_bind, Polynomial.powersFrom_eq_map]
  rw [if_neg hshape, zipIdx_map_range, List.mapM_map]
  refine Result.mapM_congr fun i _ => ?_
  simp only [Function.comp_apply, evalAtRow, h.mask_eq, h.traceLength_eq, evalAt,
    map_lookupCyclic_periodic h hn hperiodic, map_lookupCyclic_tabledFactors h hn,
    List.getElem?_toArray]
  exact bind_pure_comp Fraction.value _

/-- The values on a coset exist if and only if those at all of its points do, and then they are
what those resolve to. The only fault is a point at which a denominator is zero. -/
theorem evalOnCoset_spec (h : ofMask n mask cs periodic challenges hints degreeBound = .ok comp)
    (hword : n < 2 ^ 64)
    (hperiodic : ∀ p ∈ periodic, ∃ values step, PeriodicColumn.ofValues values n step = .ok p)
    (offset : Felt) {columns : List (Array Felt)} {coefficients : List Felt}
    (hsize : ∀ column ∈ columns, column.size = n) (hwidth : ∀ cell ∈ mask, cell.1 < columns.length)
    (hcoefficients : coefficients.length = cs.length) :
    ((∃ values, comp.evalOnCoset offset columns coefficients = .ok values) ↔
      ∀ i < n, ∃ q, comp.evalAtRow offset columns coefficients i = .ok q) ∧
    (∀ values, comp.evalOnCoset offset columns coefficients = .ok values → values.length = n ∧
      ∀ i < n, ∃ q v, comp.evalAtRow offset columns coefficients i = .ok q ∧ q.resolve = .ok v ∧
        values[i]? = some v) ∧
    ((∃ i < n, ∃ e, comp.evalAtRow offset columns coefficients i = .error e) →
      comp.evalOnCoset offset columns coefficients = .error .pointOnDomain) := by
  have haccepts := accepts_of_ofMask h
  have hn := dvd_order_of_isPowerOfTwo haccepts.isPowerOfTwo hword
  have hcoset := evalOnCoset_eq_mapM haccepts hn
    (fun p hp => by
      obtain ⟨values, step, hp⟩ := hperiodic p hp
      exact PeriodicColumn.isFor_of_ofValues hp) offset hsize hwidth hcoefficients
  have hrow (i : Nat) : comp.evalAtRow offset columns coefficients i = .error .pointOnDomain ∨
      ∃ q, comp.evalAtRow offset columns coefficients i = .ok q ∧ q.denominator ≠ 0 := by
    rw [evalAtRow, haccepts.mask_eq]
    exact evalAt_eq_error_or_ok haccepts _ (List.length_map _) hcoefficients
  have hiff : (∃ values, comp.evalOnCoset offset columns coefficients = .ok values) ↔
      ∀ i < n, ∃ q, comp.evalAtRow offset columns coefficients i = .ok q := by
    simp only [hcoset, Result.exists_mapM_eq_ok_iff, List.mem_range, Result.map_eq_ok_iff]
    exact forall₂_congr fun i _ => ⟨fun ⟨_, q, hq, _⟩ => ⟨q, hq⟩, fun ⟨q, hq⟩ => ⟨_, q, hq, rfl⟩⟩
  refine ⟨hiff, fun values hvalues => ?_, ?_⟩
  · rw [hcoset, Result.mapM_eq_ok_iff] at hvalues
    have hlength := hvalues.length_eq
    rw [List.length_range] at hlength
    refine ⟨hlength.symm, fun i hi => ?_⟩
    have hvalue := hvalues.get (i := i) (by simpa using hi) (hlength ▸ hi)
    obtain ⟨q, hq, hv⟩ := Result.map_eq_ok_iff.mp hvalue
    rw [List.get_eq_getElem, List.getElem_range] at hq
    have hden : q.denominator ≠ 0 := by
      rcases hrow i with herror | ⟨q', hq', hden⟩
      · cases herror.symm.trans hq
      · obtain rfl := Except.ok.inj (hq.symm.trans hq')
        exact hden
    exact ⟨q, _, hq, Fraction.resolve_eq_ok_iff.mpr ⟨hden, hv⟩, List.getElem?_eq_getElem _⟩
  · rintro ⟨i, hi, e, he⟩
    cases hresult : comp.evalOnCoset offset columns coefficients with
    | ok values =>
      obtain ⟨q, hq⟩ := hiff.mp ⟨values, hresult⟩ i hi
      cases he.symm.trans hq
    | error e' =>
      rw [hcoset] at hresult
      obtain ⟨j, -, hj⟩ := Result.exists_of_mapM_eq_error hresult
      rw [Result.map_eq_error_iff] at hj
      rcases hrow j with herror | ⟨q, hq, -⟩
      · rw [Except.error.inj (hj.symm.trans herror)]
      · cases hj.symm.trans hq

theorem evalOnCoset_products :
    ∃ comp, ofMask 4 [(0, 0), (0, 1)] products [alternating] [] [] 4 = .ok comp ∧
      ((∃ values, comp.evalOnCoset 3 [#[1, 1, 2, 2]] [8, 9] = .ok values) ↔
        ∀ i < 4, ∃ q, comp.evalAtRow 3 [#[1, 1, 2, 2]] [8, 9] i = .ok q) := by
  obtain ⟨comp, h⟩ := exists_ofMask_products
  have hperiodic : ∀ p ∈ [alternating], ∃ values step,
      PeriodicColumn.ofValues values 4 step = .ok p :=
    List.forall_mem_singleton.mpr ⟨[1, 2], 1, rfl⟩
  exact ⟨comp, h, (evalOnCoset_spec h (by decide) hperiodic 3 (by simp) (by simp) rfl).1⟩

end Composition

end CairoTrace
