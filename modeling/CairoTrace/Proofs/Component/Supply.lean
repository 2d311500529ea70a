import CairoTrace.Component.Basic
import CairoTrace.Proofs.Check
import CairoTrace.Proofs.Composition.Acceptance
import CairoTrace.Proofs.Polynomial.Periodic

/-!
# What the constraints of a component need

A layout has columns, periodic columns, challenges and hints for the constraints of its components
(`Supply`). A constraint is placed if its rows fit and at most one part of them is excluded
(`Rows.FitsExcept`), it reads only what is supplied, and its weight, which is its degree in units of
the degree of a column, is at most two (`Constraint.IsPlaced`). Such a constraint can be checked
(`IsPlaced.checkable`) and, for every degree bound from twice the length of the trace on, composed
(`IsPlaced.composable`).
-/

namespace CairoTrace

/-- What a layout has for constraints to read. -/
structure Supply where
  /-- The number of columns. -/
  columns : Nat
  /-- The number of periodic columns. -/
  periodic : Nat
  /-- The number of challenges. -/
  challenges : Nat
  hints : List Hint

/-- Whether everything that is supplied by one is by another. -/
structure Supply.IsWithin (s s' : Supply) : Prop where
  columns_le : s.columns ≤ s'.columns
  periodic_le : s.periodic ≤ s'.periodic
  challenges_le : s.challenges ≤ s'.challenges
  hints_subset : s.hints ⊆ s'.hints

def Leaf.IsSupplied (s : Supply) : Leaf → Prop
  | .constant _ => True
  | .cell column _ => column < s.columns
  | .periodic i => i < s.periodic
  | .challenge i => i < s.challenges
  | .hint i => ∃ h ∈ s.hints, h.index = i

instance (s : Supply) (l : Leaf) : Decidable (l.IsSupplied s) :=
  match l with
  | .constant _ => isTrue trivial
  | .cell column _ => inferInstanceAs (Decidable (column < s.columns))
  | .periodic i => inferInstanceAs (Decidable (i < s.periodic))
  | .challenge i => inferInstanceAs (Decidable (i < s.challenges))
  | .hint i => inferInstanceAs (Decidable (∃ h ∈ s.hints, h.index = i))

/-- The degree of a leaf in units of the degree of a column. -/
def Leaf.weight : Leaf → Nat
  | .cell _ _ | .periodic _ => 1
  | _ => 0

namespace Term

/-- Whether everything is supplied that a term reads. -/
def IsSupplied (s : Supply) (e : Term) : Prop := ∀ l ∈ e.leaves, l.IsSupplied s

instance (s : Supply) (e : Term) : Decidable (e.IsSupplied s) :=
  inferInstanceAs (Decidable (∀ l ∈ e.leaves, l.IsSupplied s))

/-- The degree of a term in units of the degree of a column. -/
def weight (e : Term) : Nat := e.degree Leaf.weight

variable {s : Supply}

/-! ## Terms -/

@[simp] theorem isSupplied_neg {e : Term} : IsSupplied s (.neg e) ↔ IsSupplied s e := Iff.rfl

@[simp] theorem isSupplied_add {e f : Term} :
    IsSupplied s (.add e f) ↔ IsSupplied s e ∧ IsSupplied s f := by
  simp only [IsSupplied, Expr.leaves_add, List.forall_mem_append]

@[simp] theorem isSupplied_mul {e f : Term} :
    IsSupplied s (.mul e f) ↔ IsSupplied s e ∧ IsSupplied s f := by
  simp only [IsSupplied, Expr.leaves_mul, List.forall_mem_append]

theorem isSupplied_leaf {l : Leaf} : IsSupplied s (.leaf l) ↔ l.IsSupplied s := by
  simp [IsSupplied]

@[simp] theorem isSupplied_constant (v : Felt) : IsSupplied s (constant v) :=
  isSupplied_leaf.mpr trivial

@[simp] theorem isSupplied_ofNat (n : Nat) : IsSupplied s (no_index (OfNat.ofNat n)) :=
  isSupplied_constant _

@[simp] theorem isSupplied_pow2 (e : Nat) : IsSupplied s (pow2 e) := isSupplied_constant _

@[simp] theorem isSupplied_periodic {i : Nat} : IsSupplied s (periodic i) ↔ i < s.periodic :=
  isSupplied_leaf

@[simp] theorem isSupplied_cellLeaf {column : Nat} {offset : Int} :
    IsSupplied s (.leaf (.cell column offset)) ↔ column < s.columns :=
  isSupplied_leaf

@[simp] theorem isSupplied_cell {c : VirtualColumn} {i : Int} :
    IsSupplied s (c.cell i) ↔ c.column < s.columns :=
  isSupplied_leaf

@[simp] theorem isSupplied_current {c : VirtualColumn} :
    IsSupplied s c.current ↔ c.column < s.columns :=
  isSupplied_leaf

@[simp] theorem isSupplied_next {c : VirtualColumn} : IsSupplied s c.next ↔ c.column < s.columns :=
  isSupplied_leaf

@[simp] theorem isSupplied_challenge {c : Challenge} :
    IsSupplied s c.term ↔ c.index < s.challenges :=
  isSupplied_leaf

theorem isSupplied_hint {h : Hint} (hmem : h ∈ s.hints) : IsSupplied s h.term :=
  isSupplied_leaf.mpr ⟨h, hmem, rfl⟩

@[simp] theorem isSupplied_booleanity {e : Term} :
    IsSupplied s (booleanity e) ↔ IsSupplied s e := by
  simp [booleanity]

@[simp] theorem weight_neg (e : Term) : weight (.neg e) = weight e := rfl

@[simp] theorem weight_add (e f : Term) : weight (.add e f) = max (weight e) (weight f) := rfl

@[simp] theorem weight_mul (e f : Term) : weight (.mul e f) = weight e + weight f := rfl

@[simp] theorem weight_constant (v : Felt) : weight (constant v) = 0 := rfl

@[simp] theorem weight_ofNat (n : Nat) : weight (no_index (OfNat.ofNat n)) = 0 := rfl

@[simp] theorem weight_pow2 (e : Nat) : weight (pow2 e) = 0 := rfl

@[simp] theorem weight_periodic (i : Nat) : weight (periodic i) = 1 := rfl

@[simp] theorem weight_cell (c : VirtualColumn) (i : Int) : weight (c.cell i) = 1 := rfl

@[simp] theorem weight_current (c : VirtualColumn) : weight c.current = 1 := rfl

@[simp] theorem weight_next (c : VirtualColumn) : weight c.next = 1 := rfl

@[simp] theorem weight_challenge (c : Challenge) : weight c.term = 0 := rfl

@[simp] theorem weight_hint (h : Hint) : weight h.term = 0 := rfl

@[simp] theorem weight_booleanity (e : Term) : weight (booleanity e) = 2 * weight e := by
  simp [booleanity]
  omega

end Term

/-! ## Rows -/

namespace Rows

/-- Whether a set of rows fits in a trace of length `n` and there is at most one exclusion, which
is a part of it. -/
structure FitsExcept (n : Nat) (domain : Rows) (exclusions : List Rows) : Prop where
  domain_fits : domain.fits n = true
  exclusions_fit : ∀ rows ∈ exclusions, rows.fits n = true
  exclusions_subset : ∀ rows ∈ exclusions, rows.isSubset n domain = true
  exclusions_length_le : exclusions.length ≤ 1

variable {n : Nat} {domain : Rows}

theorem fitsExcept_nil (h : domain.fits n = true) : domain.FitsExcept n [] :=
  ⟨h, by simp, by simp, by simp⟩

theorem fitsExcept_singleton {rows : Rows} (h : domain.fits n = true) (hrows : rows.fits n = true)
    (hsubset : rows.isSubset n domain = true) : domain.FitsExcept n [rows] :=
  ⟨h, by simpa, by simpa, by simp⟩

theorem fitsExcept_first (hn : isPowerOfTwo n = true) : (Rows.first 0).FitsExcept n [] :=
  fitsExcept_nil (fits_first (pos_of_isPowerOfTwo hn))

theorem fitsExcept_fromEnd {k : Nat} (hk : 1 ≤ k) (hle : k ≤ n) :
    (Rows.fromEnd k).FitsExcept n [] :=
  fitsExcept_nil (fits_fromEnd hk hle)

theorem fitsExcept_every {step : Nat} (hstep : isPowerOfTwo step = true) (hle : step ≤ n) :
    (Rows.every step 0).FitsExcept n [] :=
  fitsExcept_nil (fits_every hstep hle (pos_of_isPowerOfTwo hstep))

/-- Every row of a progression but the last one. -/
theorem fitsExcept_every_fromEnd {step : Nat} (hn : isPowerOfTwo n = true)
    (hstep : isPowerOfTwo step = true) (hle : step ≤ n) :
    (Rows.every step 0).FitsExcept n [.fromEnd step] := by
  have hpos := pos_of_isPowerOfTwo hstep
  exact fitsExcept_singleton (fits_every hstep hle hpos) (fits_fromEnd hpos hle)
    (fromEnd_isSubset_every (dvd_of_isPowerOfTwo hstep hn hle) dvd_rfl)

end Rows

/-! ## Constraints -/

namespace Constraint

/-- The condition for a constraint to be part of a layout for traces of length `n`. -/
structure IsPlaced (n : Nat) (s : Supply) (c : Constraint) : Prop where
  rows : c.domain.FitsExcept n c.exclusions
  isSupplied : c.expr.IsSupplied s
  weight_le : c.expr.weight ≤ 2

variable {n : Nat} {s : Supply}

@[simp] theorem isPlaced_mk {name : String} {e : Term} {domain : Rows} {exclusions : List Rows} :
    IsPlaced n s ⟨name, e, domain, exclusions⟩ ↔
      domain.FitsExcept n exclusions ∧ e.IsSupplied s ∧ e.weight ≤ 2 :=
  ⟨fun h => ⟨h.rows, h.isSupplied, h.weight_le⟩, fun h => ⟨h.1, h.2.1, h.2.2⟩⟩

theorem IsPlaced.mono {s' : Supply} {c : Constraint} (h : c.IsPlaced n s) (hs : s.IsWithin s') :
    c.IsPlaced n s' := by
  refine { h with isSupplied := fun l hl => ?_ }
  have hsupplied := h.isSupplied l hl
  cases l with
  | constant v => trivial
  | cell column offset => exact hsupplied.trans_le hs.columns_le
  | periodic i => exact hsupplied.trans_le hs.periodic_le
  | challenge i => exact hsupplied.trans_le hs.challenges_le
  | hint i =>
    obtain ⟨hint, hmem, heq⟩ := hsupplied
    exact ⟨hint, hs.hints_subset hmem, heq⟩

end Constraint

/-! ## Values -/

/-- Whether everything that is supplied has a value. -/
structure Supply.HasValues (s : Supply) (b : Bindings) : Prop where
  periodic_eq : b.periodicCount = s.periodic
  challenges_eq : b.challenges.length = s.challenges
  hints : ∀ h ∈ s.hints, ∃ v, b.hints[h.index]? = some (some v)

theorem Leaf.IsSupplied.isBound {s : Supply} {b : Bindings} {l : Leaf} {known : Cell → Prop}
    (h : l.IsSupplied s) (hb : s.HasValues b)
    (hknown : ∀ column offset, l = .cell column offset → known (column, offset)) :
    l.IsBound b known := by
  cases l with
  | constant v => trivial
  | cell column offset => exact hknown column offset rfl
  | periodic i => exact h.trans_eq hb.periodic_eq.symm
  | challenge i => exact h.trans_eq hb.challenges_eq.symm
  | hint i =>
    obtain ⟨hint, hmem, rfl⟩ := h
    exact hb.hints hint hmem

namespace Constraint

variable {n degreeBound : Nat} {s : Supply} {b : Bindings} {periodic : List PeriodicColumn}
  {c : Constraint}

theorem IsPlaced.checkable (h : c.IsPlaced n s) (hb : s.HasValues b) :
    c.Checkable n s.columns b where
  domain_fits := h.rows.domain_fits
  exclusions_fit := h.rows.exclusions_fit
  leaves_bound := fun l hl => (h.isSupplied l hl).isBound hb fun column offset heq => by
    subst heq
    exact h.isSupplied _ hl

/-- No leaf has a degree above that of a column. -/
theorem degree_leaf_le (hperiodic : ∀ p ∈ periodic, p.IsFor n) (l : Leaf) :
    l.degree n periodic ≤ (n - 1) * l.weight := by
  cases l with
  | constant v | challenge i | hint i => exact Nat.zero_le _
  | cell column offset => exact (mul_one _).ge
  | periodic i =>
    rw [Leaf.degree, Leaf.weight, mul_one]
    cases hi : periodic[i]? with
    | none => exact Nat.zero_le _
    | some p => exact (hperiodic p (List.mem_of_getElem? hi)).degree_le

/-- The factor of an exclusion adds no more to the degree than the factor of the domain takes from
it. -/
theorem IsPlaced.sum_exponents_le (hn : isPowerOfTwo n = true) (h : c.IsPlaced n s) :
    ((c.exclusionFactors n).map (·.exponent)).foldr (· + ·) 0 ≤ (c.domain.factor n).exponent := by
  have hfit := h.rows.exclusions_fit
  have hsubset := h.rows.exclusions_subset
  have hlength := h.rows.exclusions_length_le
  rw [exclusionFactors]
  match hexclusions : c.exclusions with
  | [] => exact Nat.zero_le _
  | [rows] =>
    rw [hexclusions] at hfit hsubset
    have hle := Rows.exponent_le_of_isSubset hn (hfit rows (by simp)) h.rows.domain_fits
      (hsubset rows (by simp))
    simpa using hle
  | _ :: _ :: _ =>
    rw [hexclusions] at hlength
    simp at hlength

theorem IsPlaced.degree_lt (hn : isPowerOfTwo n = true) (hperiodic : ∀ p ∈ periodic, p.IsFor n)
    (hbound : 2 * n ≤ degreeBound) (h : c.IsPlaced n s) : c.degree n periodic < degreeBound := by
  have hpos := pos_of_isPowerOfTwo hn
  have hexpr : c.expr.degree (Leaf.degree n periodic) ≤ (n - 1) * c.expr.weight :=
    Expr.degree_le_mul fun l _ => degree_leaf_le hperiodic l
  have hweight : (n - 1) * c.expr.weight ≤ (n - 1) * 2 := Nat.mul_le_mul_left _ h.weight_le
  have hexclusions := h.sum_exponents_le hn
  rw [degree, Composition.termDegree]
  omega

theorem IsPlaced.composable {mask : List Cell} (hn : isPowerOfTwo n = true)
    (hperiodic : ∀ p ∈ periodic, p.IsFor n) (hbound : 2 * n ≤ degreeBound) (hb : s.HasValues b)
    (hmask : ∀ cell, c.Reads cell → cell ∈ mask) (h : c.IsPlaced n s) :
    c.Composable n mask periodic b degreeBound where
  domain_fits := h.rows.domain_fits
  exclusions_fit := h.rows.exclusions_fit
  exclusions_subset := h.rows.exclusions_subset
  leaves_bound := fun l hl => (h.isSupplied l hl).isBound hb fun column offset heq => by
    subst heq
    exact hmask (column, offset) hl
  degree_lt := h.degree_lt hn hperiodic hbound

end Constraint

end CairoTrace
