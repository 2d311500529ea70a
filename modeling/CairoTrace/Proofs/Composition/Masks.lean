import CairoTrace.Proofs.Composition.PointEvaluation
import CairoTrace.Proofs.Mask
import Mathlib.Data.List.NodupEquivFin

/-!
# Masks of a composition

The mask that is derived from constraints is in ascending order (`pairwise_deriveMask`). Where it
makes a composition, another mask does exactly if it is a permutation of it
(`exists_ofMask_iff_perm`): a cell that is read and missing is refused as the leaf that reads it is
bound (`compileNext_eq_error`), and a place that no leaf is bound to is refused at the end. The
compositions of two masks differ in the places of cells alone (`eq_of_ofMask`), so that they have
the same value if each place holds the value of its cell (`evalFrom_eq_of_perm`).
-/

namespace CairoTrace

theorem pairwise_deriveMask (cs : List Constraint) :
    (deriveMask cs).Pairwise (cellLt · · = true) := by
  rw [deriveMask_eq]
  exact pairwise_foldl_insertSorted isStrictlyTotal_cellLt .nil

namespace Constraint

variable {n degreeBound : Nat} {mask mask' : List Cell} {periodic : List PeriodicColumn}
  {b : Bindings} {c : Constraint}

theorem Composable.mem_of_reads (h : c.Composable n mask periodic b degreeBound) {cell : Cell}
    (hread : c.Reads cell) : cell ∈ mask :=
  h.leaves_bound _ hread

/-- A constraint can be composed with every mask that has the cells that it reads. -/
theorem Composable.of_mask (h : c.Composable n mask periodic b degreeBound)
    (hmask : ∀ cell, c.Reads cell → cell ∈ mask') :
    c.Composable n mask' periodic b degreeBound where
  domain_fits := h.domain_fits
  exclusions_fit := h.exclusions_fit
  exclusions_subset := h.exclusions_subset
  leaves_bound l hl := by
    have hbound := h.leaves_bound l hl
    cases l with
    | cell column offset => exact hmask (column, offset) hl
    | constant v | periodic i | challenge i | hint i => exact hbound
  degree_lt := h.degree_lt

end Constraint

namespace Composition

variable {n degreeBound : Nat} {mask mask' : List Cell} {cs : List Constraint}
  {periodic : List PeriodicColumn} {b : Bindings} {challenges : List Felt}
  {hints : List (Option Felt)} {comp comp' : Composition}

/-! ## Masks that are accepted -/

theorem exists_ofMask_iff_perm
    (h : ofConstraints n cs periodic challenges hints degreeBound = .ok comp) :
    (∃ comp', ofMask n mask cs periodic challenges hints degreeBound = .ok comp') ↔
      mask.Perm (deriveMask cs) := by
  have haccepts := accepts_of_ofMask h
  rw [exists_ofMask_eq_ok_iff, and_iff_right haccepts.isPowerOfTwo]
  constructor
  · rintro ⟨hcs, hnodup, hread⟩
    refine (List.perm_ext_iff_of_nodup hnodup (nodup_deriveMask cs)).mpr fun cell => ?_
    rw [mem_deriveMask_iff]
    exact ⟨hread cell, fun ⟨c, hc, hcell⟩ => (hcs c hc).mem_of_reads hcell⟩
  · intro hperm
    refine ⟨fun c hc => ?_, hperm.nodup_iff.mpr (nodup_deriveMask cs), fun cell hcell => ?_⟩
    · refine (haccepts.composable c hc).of_mask fun cell hcell => hperm.mem_iff.mpr ?_
      exact mem_deriveMask_iff.mpr ⟨c, hc, hcell⟩
    · exact mem_deriveMask_iff.mp (hperm.mem_iff.mp hcell)

/-! ## Masks that are refused -/

/-- A leaf that is bound with one mask fails with another only for a cell that is missing there. -/
theorem bind_eq_error {l : Leaf} {known : Cell → Prop} (hbound : l.IsBound b known)
    {e : ConstraintError} (h : l.bind b ((maskPlaces mask)[·]?) = .error e) :
    ∃ cell : Cell, l = .cell cell.1 cell.2 ∧ e = .unknownMaskEntry cell.1 cell.2 ∧
      cell ∉ mask := by
  cases l with
  | constant v => cases h
  | cell column offset =>
    rw [Leaf.bind] at h
    split at h
    · cases h
    · next hnone =>
      refine ⟨(column, offset), rfl, (Except.error.inj h).symm, fun hmem => ?_⟩
      obtain ⟨i, hi⟩ := (exists_maskPlaces_iff _).mpr hmem
      cases hnone.symm.trans hi
  | periodic i =>
    rw [Leaf.bind, if_pos (show i < b.periodicCount from hbound)] at h
    cases h
  | challenge i =>
    rw [Leaf.bind, List.getElem?_eq_getElem hbound] at h
    cases h
  | hint i =>
    obtain ⟨v, hv⟩ := hbound
    rw [Leaf.bind, hv] at h
    cases h

/-- A constraint that can be composed with one mask fails with another only for a cell that it reads
and that is missing there. -/
theorem compileNext_eq_error (hn : isPowerOfTwo n = true) {c : Constraint}
    (hc : c.Composable n mask periodic b degreeBound) {s : Compiled} {i : Nat}
    {e : ConstraintError}
    (h : compileNext n degreeBound b (leafDegree n periodic.toArray) (maskPlaces mask') s i c =
      .error e) :
    ∃ cell : Cell, e = .unknownMaskEntry cell.1 cell.2 ∧ c.Reads cell ∧ cell ∉ mask' := by
  have hfactors : constraintFactors n c = .ok (c.domain.factor n, c.exclusionFactors n) :=
    (constraintFactors_eq_ok_iff hn).mpr ⟨⟨hc.domain_fits, fun rows hrows =>
      ⟨hc.exclusions_subset rows hrows, hc.exclusions_fit rows hrows⟩⟩, rfl⟩
  rcases hbind : c.expr.tryMap (Leaf.bind b ((maskPlaces mask')[·]?)) with e' | expr
  · rw [compileNext, hfactors, Result.ok_bind] at h
    simp only [hbind] at h
    obtain rfl := Except.error.inj h
    obtain ⟨l, hl, hleaf⟩ := Expr.exists_of_tryMap_eq_error hbind
    obtain ⟨cell, rfl, rfl, hmem⟩ := bind_eq_error (hc.leaves_bound l hl) hleaf
    exact ⟨cell, rfl, hl, hmem⟩
  · -- a constraint whose leaves have been bound can be composed
    have hleaves := Expr.exists_tryMap_eq_ok_iff.mp ⟨expr, hbind⟩
    have hmask' : c.Composable n mask' periodic b degreeBound := hc.of_mask fun cell hcell =>
      (exists_bind_iff_isBound (.cell cell.1 cell.2)).mp (hleaves _ hcell)
    obtain ⟨s', hs'⟩ := exists_compileNext_eq_ok hn hmask' s i
    cases h.symm.trans hs'

/-- A mask without a cell that is read is refused, as one of those that it misses is unknown. -/
theorem ofMask_eq_unknown
    (h : ofConstraints n cs periodic challenges hints degreeBound = .ok comp) {cell : Cell}
    {c : Constraint} (hc : c ∈ cs) (hread : c.Reads cell) (hmem : cell ∉ mask) :
    ∃ cell : Cell, ofMask n mask cs periodic challenges hints degreeBound =
        .error (.unknownMaskEntry cell.1 cell.2) ∧
      (∃ c ∈ cs, c.Reads cell) ∧ cell ∉ mask := by
  have haccepts := accepts_of_ofMask h
  have hn := haccepts.isPowerOfTwo
  rcases hrun : cs.zipIdx.foldlM (fun s p => compileNext n degreeBound
      ⟨challenges, hints, periodic.length⟩ (leafDegree n periodic.toArray) (maskPlaces mask) s
        p.2 p.1) {} with e | s
  · obtain ⟨p, hp, t, hstep⟩ := Result.exists_of_foldlM_eq_error hrun
    have hpc := List.fst_mem_of_mem_zipIdx hp
    obtain ⟨other, rfl, hother, hmissing⟩ :=
      compileNext_eq_error hn (haccepts.composable p.1 hpc) hstep
    refine ⟨other, ?_, ⟨p.1, hpc, hother⟩, hmissing⟩
    rw [ofMask, if_neg (not_not.mpr hn)]
    simp only [hrun]
    rfl
  · obtain ⟨i, hi⟩ := List.mem_iff_getElem?.mp hc
    have hcomposable := (Compiles.of_foldlM hn hrun).composable (c, i)
      (List.mk_mem_zipIdx_iff_getElem?.mpr hi)
    exact absurd (hcomposable.mem_of_reads hread) hmem

theorem duplicate_of_places {cell : Cell} {i j : Nat} (hi : mask[i]? = some cell)
    (hj : mask[j]? = some cell) (hne : i ≠ j) : List.Duplicate cell mask := by
  obtain ⟨hi', rfl⟩ := List.getElem?_eq_some_iff.mp hi
  obtain ⟨hj', heq⟩ := List.getElem?_eq_some_iff.mp hj
  rw [List.duplicate_iff_exists_distinct_get]
  rcases hne.lt_or_gt with hlt | hlt
  · exact ⟨⟨i, hi'⟩, ⟨j, hj'⟩, hlt, rfl, heq.symm⟩
  · exact ⟨⟨j, hj'⟩, ⟨i, hi'⟩, hlt, heq.symm, rfl⟩

/-- A mask with all cells that are read is refused, unless it is accepted, for a cell that is not
read or that is there twice. -/
theorem ofMask_eq_unused
    (h : ofConstraints n cs periodic challenges hints degreeBound = .ok comp)
    (hmask : ∀ c ∈ cs, ∀ cell, c.Reads cell → cell ∈ mask)
    (hperm : ¬ mask.Perm (deriveMask cs)) :
    ∃ cell ∈ mask, ofMask n mask cs periodic challenges hints degreeBound =
        .error (.unusedMaskEntry cell.1 cell.2) ∧
      ((∀ c ∈ cs, ¬ c.Reads cell) ∨ List.Duplicate cell mask) := by
  have haccepts := accepts_of_ofMask h
  have hn := haccepts.isPowerOfTwo
  obtain ⟨s, hrun⟩ := Result.exists_foldlM_eq_ok (l := cs.zipIdx)
    (fun p hp s => exists_compileNext_eq_ok hn ((haccepts.composable p.1
      (List.fst_mem_of_mem_zipIdx hp)).of_mask (hmask p.1 (List.fst_mem_of_mem_zipIdx hp))) s p.2)
    {}
  rcases hfind : mask.zipIdx.find?
      (fun q => (usedPlaces mask.length s.exprs)[q.2]? != some true) with _ | ⟨cell, i⟩
  · have hok : ∃ comp', ofMask n mask cs periodic challenges hints degreeBound = .ok comp' :=
      ⟨_, ofMask_eq_ok_iff.mpr ⟨hn, s, hrun, find?_unused_eq_none_iff.mp hfind, rfl⟩⟩
    exact absurd ((exists_ofMask_iff_perm h).mp hok) hperm
  · have hplace := List.mk_mem_zipIdx_iff_getElem?.mp (List.mem_of_find?_eq_some hfind)
    have hlt := (List.getElem?_eq_some_iff.mp hplace).1
    have hunused := List.find?_some hfind
    refine ⟨cell, List.mem_of_getElem? hplace, ?_, ?_⟩
    · rw [ofMask, if_neg (not_not.mpr hn)]
      simp only [hrun, Result.ok_bind, hfind]
      rfl
    · by_cases hread : ∃ c ∈ cs, c.Reads cell
      · obtain ⟨c, hc, hcell⟩ := hread
        obtain ⟨j, hj⟩ := (exists_maskPlaces_iff cell).mpr (hmask c hc cell hcell)
        -- the cell was found at another place, as this one is not used
        have hne : i ≠ j := by
          rintro rfl
          have hused : ∃ c ∈ cs, ∃ cell, c.Reads cell ∧ (maskPlaces mask)[cell]? = some i :=
            ⟨c, hc, cell, hcell, hj⟩
          refine bne_iff_ne.mp hunused (getElem?_usedPlaces.mpr ⟨hlt, ?_⟩)
          exact (Compiles.of_foldlM hn hrun).exists_cell_mem_iff.mpr
            (Result.exists_mem_zipIdx_iff.mpr hused)
        exact .inr (duplicate_of_places hplace (maskPlaces_eq_some hj) hne)
      · push Not at hread
        exact .inl hread

/-! ## The order of a mask -/

/-- The compositions of one list of constraints with two masks differ in the places of cells alone. -/
theorem eq_of_ofMask (h : ofMask n mask cs periodic challenges hints degreeBound = .ok comp)
    (h' : ofMask n mask' cs periodic challenges hints degreeBound = .ok comp') :
    comp' = { comp with mask := mask', exprs := comp'.exprs } := by
  obtain ⟨hn, s, hrun, -, rfl⟩ := ofMask_eq_ok_iff.mp h
  obtain ⟨-, s', hrun', -, rfl⟩ := ofMask_eq_ok_iff.mp h'
  obtain ⟨hfactors, hgroups⟩ := Result.foldlM_relation
    (r := fun s t : Compiled => s.factors = t.factors ∧ s.groups = t.groups)
    (fun p s t s' t' hsame hs ht => by
      obtain ⟨-, e, -, rfl⟩ := (compileNext_eq_ok_iff hn).mp hs
      obtain ⟨-, e', -, rfl⟩ := (compileNext_eq_ok_iff hn).mp ht
      simp only [Compiled.next, hsame.1, hsame.2, and_self])
    ⟨rfl, rfl⟩ hrun hrun'
  rw [hfactors, hgroups]

theorem neighborAt_eq_of_mem_zip (hmask : mask.Nodup) {neighbors : List Felt} {cell : Cell}
    {v : Felt} (h : (cell, v) ∈ mask.zip neighbors) : neighborAt mask neighbors cell = v := by
  obtain ⟨i, hi⟩ := List.mem_iff_getElem?.mp h
  obtain ⟨hcell, hv⟩ := List.getElem?_zip_eq_some.mp hi
  obtain ⟨hlt, rfl⟩ := List.getElem?_eq_some_iff.mp hcell
  rw [neighborAt, hmask.idxOf_getElem i hlt, hv, Option.getD_some]

section Permuted

variable {neighbors neighbors' : List Felt} (hlength : neighbors.length = mask.length)
  (hperm : (mask'.zip neighbors').Perm (mask.zip neighbors))

include hlength hperm

/-- Masks that pair their cells with the same values hold them, whatever their order. -/
theorem neighborAt_congr (hmask : mask.Nodup) (hmask' : mask'.Nodup) {cell : Cell}
    (hcell : cell ∈ mask) : neighborAt mask neighbors cell = neighborAt mask' neighbors' cell := by
  obtain ⟨i, hi, rfl⟩ := List.mem_iff_getElem.mp hcell
  have hmem : (mask[i], neighbors[i]) ∈ mask.zip neighbors :=
    List.mem_iff_getElem?.mpr ⟨i, List.getElem?_zip_eq_some.mpr
      ⟨List.getElem?_eq_getElem hi, List.getElem?_eq_getElem (hlength ▸ hi)⟩⟩
  rw [neighborAt_eq_of_mem_zip hmask hmem,
    neighborAt_eq_of_mem_zip hmask' (hperm.mem_iff.mpr hmem)]

theorem map_eval_eq_of_perm (h : Accepts n mask cs periodic b degreeBound comp)
    (h' : Accepts n mask' cs periodic b degreeBound comp') (periodicValue : Nat → Felt) :
    comp'.exprs.map (·.eval (BoundLeaf.value (neighbors'[·]?.getD 0) periodicValue)) =
      comp.exprs.map (·.eval (BoundLeaf.value (neighbors[·]?.getD 0) periodicValue)) := by
  refine (h'.compiles.map_eval h'.mask_nodup neighbors' periodicValue).trans
    (Eq.trans ?_ (h.compiles.map_eval h.mask_nodup neighbors periodicValue).symm)
  refine List.map_congr_left fun p hp => ?_
  have hbound := (h.composable p.1 (List.fst_mem_of_mem_zipIdx hp)).leaves_bound
  exact (Constraint.value_congr hbound fun cell hcell =>
    neighborAt_congr hlength hperm h.mask_nodup h'.mask_nodup hcell).symm

/-- The value of a composition does not depend on the order of its mask. -/
theorem evalFrom_eq_of_perm
    (h : ofMask n mask cs periodic challenges hints degreeBound = .ok comp)
    (h' : ofMask n mask' cs periodic challenges hints degreeBound = .ok comp')
    (hlength' : neighbors'.length = mask'.length) (periodicValues coefficients : List Felt)
    (x : Felt) (shifts tabled : List Felt) :
    comp'.evalFrom neighbors' periodicValues coefficients x shifts tabled =
      comp.evalFrom neighbors periodicValues coefficients x shifts tabled := by
  have haccepts := accepts_of_ofMask h
  have heval := map_eval_eq_of_perm hlength hperm haccepts (accepts_of_ofMask h')
    (periodicValues.toArray[·]?.getD 0)
  have hcount : comp'.exprs.length = comp.exprs.length := by
    simpa only [List.length_map] using congrArg List.length heval
  have hweighted := congrArg (List.zipWith (· * ·) coefficients) heval
  rw [List.zipWith_map_right, List.zipWith_map_right] at hweighted
  rw [eq_of_ofMask h h', evalFrom, evalFrom, haccepts.mask_eq, hlength, hlength', hcount]
  simp only [checkCount_self, Result.ok_bind, List.getElem?_toArray] at hweighted ⊢
  rw [hweighted]
  rfl

end Permuted

/-- The mask that is derived from constraints has the cells that they read, in strictly ascending
order. If it makes a composition, another mask does if and only if it is a permutation of it, and
then the composition has the same value at every point for neighbors that are permuted as the mask
is. A mask without a cell that is read is refused for such a cell; a mask that is refused otherwise
has a cell that is not read or that is there twice. -/
theorem ofMask_exact (n : Nat) (cs : List Constraint) (periodic : List PeriodicColumn)
    (challenges : List Felt) (hints : List (Option Felt)) (degreeBound : Nat) :
    (deriveMask cs).Pairwise (fun p q => p.1 < q.1 ∨ p.1 = q.1 ∧ p.2 < q.2) ∧
    (∀ cell, cell ∈ deriveMask cs ↔ ∃ c ∈ cs, c.Reads cell) ∧
    ∀ comp, ofConstraints n cs periodic challenges hints degreeBound = .ok comp →
      ∀ mask : List Cell,
        ((∃ comp', ofMask n mask cs periodic challenges hints degreeBound = .ok comp') ↔
          mask.Perm (deriveMask cs)) ∧
        (∀ comp', ofMask n mask cs periodic challenges hints degreeBound = .ok comp' →
          ∀ neighbors neighbors' : List Felt, neighbors.length = (deriveMask cs).length →
            neighbors'.length = mask.length →
            (mask.zip neighbors').Perm ((deriveMask cs).zip neighbors) →
            ∀ x coefficients,
              comp'.evalAt x neighbors' coefficients = comp.evalAt x neighbors coefficients) ∧
        ((∃ cell ∉ mask, ∃ c ∈ cs, c.Reads cell) →
          ∃ cell ∉ mask, (∃ c ∈ cs, c.Reads cell) ∧
            ofMask n mask cs periodic challenges hints degreeBound =
              .error (.unknownMaskEntry cell.1 cell.2)) ∧
        ((∀ c ∈ cs, ∀ cell, c.Reads cell → cell ∈ mask) → ¬ mask.Perm (deriveMask cs) →
          ∃ cell ∈ mask, ((∀ c ∈ cs, ¬ c.Reads cell) ∨ List.Duplicate cell mask) ∧
            ofMask n mask cs periodic challenges hints degreeBound =
              .error (.unusedMaskEntry cell.1 cell.2)) := by
  refine ⟨(pairwise_deriveMask cs).imp fun {p q} hlt => ?_, fun cell => mem_deriveMask_iff,
    fun comp h mask => ⟨exists_ofMask_iff_perm h, ?_, ?_, ?_⟩⟩
  · simpa [cellLt] using hlt
  · intro comp' h' neighbors neighbors' hlength hlength' hperm x coefficients
    have heq := eq_of_ofMask h h'
    have heval := evalFrom_eq_of_perm hlength hperm h h' hlength'
      (comp.periodic.map (·.eval x)) coefficients x comp.pointShifts
      (comp.tabledFactors.map (·.eval x comp.generator))
    rw [evalAt, evalAt, ← heval, heq]
    rfl
  · rintro ⟨cell, hmem, c, hc, hread⟩
    obtain ⟨other, herror, hother, hmissing⟩ := ofMask_eq_unknown h hc hread hmem
    exact ⟨other, hmissing, hother, herror⟩
  · intro hmask hperm
    obtain ⟨cell, hmem, herror, hcell⟩ := ofMask_eq_unused h hmask hperm
    exact ⟨cell, hmem, hcell, herror⟩

theorem ofMask_exact_products :
    ∃ comp comp', ofConstraints 4 products [alternating] [] [] 4 = .ok comp ∧
      ofMask 4 [(0, 1), (0, 0)] products [alternating] [] [] 4 = .ok comp' ∧
      comp'.evalAt 5 [7, 6] [8, 9] = comp.evalAt 5 [6, 7] [8, 9] ∧
      (∃ cell ∉ [(0, 1)], (∃ c ∈ products, c.Reads cell) ∧
        ofMask 4 [(0, 1)] products [alternating] [] [] 4 =
          .error (.unknownMaskEntry cell.1 cell.2)) ∧
      ∃ cell ∈ [(0, 0), (0, 1), (0, 0)],
        ofMask 4 [(0, 0), (0, 1), (0, 0)] products [alternating] [] [] 4 =
          .error (.unusedMaskEntry cell.1 cell.2) := by
  have hmask : deriveMask products = [(0, 0), (0, 1)] := by decide
  obtain ⟨comp, hcomp⟩ := exists_ofMask_products
  obtain ⟨-, hmem, hmasks⟩ := ofMask_exact 4 products [alternating] [] [] 4
  have h := hmasks comp (by rwa [ofConstraints, hmask])
  rw [hmask] at hmem h
  obtain ⟨hiff, heval, -⟩ := h [(0, 1), (0, 0)]
  obtain ⟨comp', hcomp'⟩ := hiff.mpr (.swap _ _ _)
  refine ⟨comp, comp', by rwa [ofConstraints, hmask], hcomp',
    heval comp' hcomp' [6, 7] [7, 6] rfl rfl (.swap _ _ _) 5 [8, 9], ?_, ?_⟩
  · exact (h [(0, 1)]).2.2.1 ⟨(0, 0), by decide, (hmem _).mp (by decide)⟩
  · obtain ⟨cell, hcell, -, herror⟩ := (h [(0, 0), (0, 1), (0, 0)]).2.2.2
      (fun c hc cell hread => List.mem_append_left [(0, 0)] ((hmem cell).mpr ⟨c, hc, hread⟩))
      (by decide)
    exact ⟨cell, hcell, herror⟩

end Composition

end CairoTrace
