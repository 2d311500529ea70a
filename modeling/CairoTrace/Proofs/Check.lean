import CairoTrace.Constraint.Check
import CairoTrace.Proofs.Binding
import CairoTrace.Proofs.Rows

/-!
# What a check of a trace reports

A trace is checked without a fault if and only if its columns have its length and every constraint
can be checked (`exists_checkConstraints_eq_ok_iff`). It is reported free of violations if and only
if, moreover, every constraint is zero on all rows of its domain that are not excluded
(`checkConstraints_eq_nil_iff`).
-/

namespace CairoTrace

/-- The value of a cell read from a row of a trace. -/
def rowCell (n : Nat) (columns : List (Array Felt)) (row : Nat) (cell : Cell) : Felt :=
  ((columns[cell.1]?.getD #[])[Composition.wrapRow n row cell.2]?).getD 0

/-- The value of a periodic column on a row. -/
def rowPeriodic (periodic : List PeriodicColumn) (row i : Nat) : Felt :=
  Composition.lookupCyclic ((periodic[i]?.map fun p => (p.cosetValues 1).toArray).getD #[]) row

namespace Constraint

/-- The condition for a constraint to be checked on a trace of some columns. -/
structure Checkable (n width : Nat) (b : Bindings) (c : Constraint) : Prop where
  domain_fits : c.domain.fits n = true
  exclusions_fit : ∀ rows ∈ c.exclusions, rows.fits n = true
  leaves_bound : ∀ l ∈ c.expr.leaves, l.IsBound b (·.1 < width)

variable {n : Nat} {columns : List (Array Felt)} {periodic : List PeriodicColumn} {b : Bindings}

theorem mem_appliedRows_iff {c : Constraint} (hdomain : c.domain.IsResidueClass n) {row : Nat} :
    row ∈ c.appliedRows n ↔ c.domain.contains n row = true ∧
      ¬ ∃ rows ∈ c.exclusions, rows.contains n row = true := by
  rw [appliedRows, List.mem_filter, hdomain.mem_toList_iff]
  simp

/-- The rows on which a constraint is not zero, of those that it applies to. -/
def violatedRows (n : Nat) (columns : List (Array Felt)) (periodic : List PeriodicColumn)
    (b : Bindings) (c : Constraint) : List Nat :=
  (c.appliedRows n).filter fun row =>
    ¬ (c.value b (rowCell n columns row) (rowPeriodic periodic row)).isZero

/-- Whether a constraint is zero on the rows that it applies to. -/
def Holds (n : Nat) (columns : List (Array Felt)) (periodic : List PeriodicColumn) (b : Bindings)
    (c : Constraint) : Prop :=
  ∀ row ∈ c.appliedRows n, c.value b (rowCell n columns row) (rowPeriodic periodic row) = 0

theorem violatedRows_eq_nil_iff {c : Constraint} :
    c.violatedRows n columns periodic b = [] ↔ c.Holds n columns periodic b := by
  simp [violatedRows, Holds, List.filter_eq_nil_iff]

theorem valueAt_eq (row : Nat) (e : Expr (BoundLeaf Cell)) :
    valueAt n columns.toArray (periodic.map fun p => (p.cosetValues 1).toArray).toArray row e =
      e.eval (BoundLeaf.value (rowCell n columns row) (rowPeriodic periodic row)) := by
  have hcell : rowCell n columns row = fun cell =>
      ((columns.toArray[cell.1]?.getD #[])[Composition.wrapRow n row cell.2]?).getD 0 := by
    simp [rowCell, funext_iff]
  have hperiodic : rowPeriodic periodic row = fun i => Composition.lookupCyclic
      ((periodic.map fun p => (p.cosetValues 1).toArray).toArray[i]?.getD #[]) row := by
    simp [rowPeriodic, funext_iff]
  rw [valueAt, hcell, hperiodic]

theorem failingRows_eq_ok_iff (hn : isPowerOfTwo n = true) {c : Constraint} {rows : List Nat} :
    c.failingRows n columns.toArray (periodic.map fun p => (p.cosetValues 1).toArray).toArray b =
        .ok rows ↔
      c.Checkable n columns.length b ∧ c.violatedRows n columns periodic b = rows := by
  have hlocate (cell : Cell) :
      (∃ place, (if cell.1 < columns.toArray.size then some (cell.1, cell.2) else none) =
        some place) ↔ cell.1 < columns.length := by
    simp
  have hvalue (e : Expr (BoundLeaf Cell)) (row : Nat)
      (he : c.expr.tryMap (Leaf.bind b fun cell =>
        if cell.1 < columns.toArray.size then some (cell.1, cell.2) else none) = .ok e) :
      valueAt n columns.toArray (periodic.map fun p => (p.cosetValues 1).toArray).toArray row e =
        c.value b (rowCell n columns row) (rowPeriodic periodic row) := by
    rw [valueAt_eq]
    refine eval_of_tryMap_bind he fun cell p hp => ?_
    split at hp
    · rw [← Option.some.inj hp]
    · cases hp
  rw [failingRows, Result.check_bind_eq_ok_iff, Result.check_bind_eq_ok_iff,
    Result.forM_eq_ok_iff, Result.bind_eq_ok_iff]
  simp only [Rows.validate_eq_ok_iff, hn, true_and, Result.pure_eq_ok, Except.ok.injEq]
  constructor
  · rintro ⟨hdomain, hexclusions, e, he, rfl⟩
    refine ⟨⟨hdomain, hexclusions, fun l hl => ?_⟩, ?_⟩
    · exact (l.exists_bind_eq_ok_iff hlocate).mp (Expr.exists_tryMap_eq_ok_iff.mp ⟨e, he⟩ l hl)
    · simp only [violatedRows, ← hvalue e _ he]
  · rintro ⟨h, rfl⟩
    obtain ⟨e, he⟩ := Expr.exists_tryMap_eq_ok_iff.mpr fun (l : Leaf) hl =>
      (l.exists_bind_eq_ok_iff hlocate).mpr (h.leaves_bound l hl)
    refine ⟨h.domain_fits, h.exclusions_fit, e, he, ?_⟩
    simp only [violatedRows, ← hvalue e _ he]

end Constraint

variable {n : Nat} {columns : List (Array Felt)} {cs : List Constraint}
  {periodic : List PeriodicColumn} {challenges : List Felt} {hints : List (Option Felt)}

theorem checkConstraints_eq_ok_iff {violations : List Violation} :
    checkConstraints n columns cs periodic challenges hints = .ok violations ↔
      isPowerOfTwo n = true ∧ (∀ column ∈ columns, column.size = n) ∧
      (∀ c ∈ cs, c.Checkable n columns.length ⟨challenges, hints, periodic.length⟩) ∧
      cs.zipIdx.flatMap (fun p =>
        (p.1.violatedRows n columns periodic ⟨challenges, hints, periodic.length⟩).map
          fun row => ⟨p.2, p.1.name, row⟩) = violations := by
  simp only [checkConstraints, Result.throw_bind, Result.ite_error_eq_ok_iff, not_not]
  refine and_congr_right fun hn => and_congr (by simp) ?_
  have hrows (p : Constraint × Nat) (vs : List Violation) :
      (p.1.failingRows n columns.toArray (periodic.map fun p => (p.cosetValues 1).toArray).toArray
          ⟨challenges, hints, periodic.length⟩ >>=
        fun rows => pure (rows.map fun row => (⟨p.2, p.1.name, row⟩ : Violation))) = .ok vs ↔
      p.1.Checkable n columns.length ⟨challenges, hints, periodic.length⟩ ∧
        (p.1.violatedRows n columns periodic ⟨challenges, hints, periodic.length⟩).map
          (fun row => ⟨p.2, p.1.name, row⟩) = vs := by
    simp only [Result.bind_eq_ok_iff, Constraint.failingRows_eq_ok_iff hn, Result.pure_eq_ok,
      Except.ok.injEq]
    exact ⟨fun ⟨_, ⟨hc, hrows⟩, h⟩ => ⟨hc, hrows ▸ h⟩, fun ⟨hc, h⟩ => ⟨_, ⟨hc, rfl⟩, h⟩⟩
  rw [Result.bind_eq_ok_iff]
  simp only [Result.mapM_eq_ok_iff_of hrows]
  simp only [Result.pure_eq_ok, Except.ok.injEq, ← Result.forall_mem_zipIdx_iff (l := cs),
    List.flatMap_def]
  exact ⟨fun ⟨_, ⟨hcs, hvs⟩, h⟩ => ⟨hcs, hvs ▸ h⟩, fun ⟨hcs, h⟩ => ⟨_, ⟨hcs, rfl⟩, h⟩⟩

/-- A trace can be checked if and only if its columns have its length and every constraint can be
checked. -/
theorem exists_checkConstraints_eq_ok_iff :
    (∃ violations, checkConstraints n columns cs periodic challenges hints = .ok violations) ↔
      isPowerOfTwo n = true ∧ (∀ column ∈ columns, column.size = n) ∧
      ∀ c ∈ cs, c.Checkable n columns.length ⟨challenges, hints, periodic.length⟩ := by
  simp only [checkConstraints_eq_ok_iff, exists_and_left, exists_eq', and_true]

/-- A trace that can be checked has no violations if and only if every constraint is zero on the
rows that it applies to. -/
theorem checkConstraints_eq_nil_iff (hn : isPowerOfTwo n = true)
    (hsize : ∀ column ∈ columns, column.size = n)
    (hcs : ∀ c ∈ cs, c.Checkable n columns.length ⟨challenges, hints, periodic.length⟩) :
    checkConstraints n columns cs periodic challenges hints = .ok [] ↔
      ∀ c ∈ cs, c.Holds n columns periodic ⟨challenges, hints, periodic.length⟩ := by
  rw [checkConstraints_eq_ok_iff, and_iff_right hn, and_iff_right hsize, and_iff_right hcs,
    List.flatMap_eq_nil_iff]
  simp only [List.map_eq_nil_iff, Constraint.violatedRows_eq_nil_iff]
  exact Result.forall_mem_zipIdx_iff

end CairoTrace
