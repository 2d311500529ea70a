import CairoTrace.Component.EcOpCells
import CairoTrace.Component.EcdsaCells
import CairoTrace.Component.PedersenCells
import CairoTrace.Proofs.Component.Supply

/-!
# Sums of points

The constraints of a sum of points are placed when the rows of the sum fit in the trace and the
point of each step is a term of a weight of one at most (`SubsetSum.Fits.isPlaced_of_mem`). The
constraints of the three builtins of the Stark curve are then placed as well.
-/

namespace CairoTrace

variable {n : Nat} {s : Supply}

/-! ## Sums -/

namespace SubsetSum

/-- The condition on the cells of a sum. -/
structure Fits (n : Nat) (s : Supply) (sum : SubsetSum) : Prop where
  isPowerOfTwo_step : isPowerOfTwo sum.step = true
  height_le : sum.height ≤ n
  scalarBits_lt : sum.scalarBits < steps
  x_lt : sum.x.column < s.columns
  y_lt : sum.y.column < s.columns
  suffix_lt : sum.suffix.column < s.columns
  slope_lt : sum.slope.column < s.columns

variable {sum : SubsetSum}

theorem fits_ofColumns {x y suffix slope step bits : Nat} (hstep : isPowerOfTwo step = true)
    (hheight : steps * step ≤ n) (hbits : bits < steps) (hx : x < s.columns) (hy : y < s.columns)
    (hsuffix : suffix < s.columns) (hslope : slope < s.columns) :
    (ofColumns x y suffix slope step bits).Fits n s :=
  ⟨hstep, hheight, hbits, hx, hy, hsuffix, hslope⟩

theorem Fits.isPowerOfTwo_height (h : sum.Fits n s) : isPowerOfTwo sum.height = true :=
  isPowerOfTwo_mul (by decide) h.isPowerOfTwo_step

/-- A step of a sum that is taken is in the rows of the sum. -/
theorem Fits.fits_every (h : sum.Fits n s) {k : Nat} (hk : k < steps) :
    (Rows.every sum.height (k * sum.step)).fits n = true :=
  Rows.fits_every h.isPowerOfTwo_height h.height_le
    (Nat.mul_lt_mul_of_pos_right hk (pos_of_isPowerOfTwo h.isPowerOfTwo_step))

theorem Fits.fitsExcept_height (h : sum.Fits n s) : (Rows.every sum.height 0).FitsExcept n [] :=
  Rows.fitsExcept_every h.isPowerOfTwo_height h.height_le

theorem Fits.fitsExcept_extractionEnd (h : sum.Fits n s) :
    (Rows.every sum.height (sum.scalarBits * sum.step)).FitsExcept n [] :=
  Rows.fitsExcept_nil (h.fits_every h.scalarBits_lt)

theorem Fits.fitsExcept_lastStep (h : sum.Fits n s) : sum.lastStep.FitsExcept n [] :=
  Rows.fitsExcept_nil (h.fits_every (by decide))

theorem Fits.fitsExcept_transition (h : sum.Fits n s) :
    sum.transition.FitsExcept n [sum.lastStep] := by
  have hle : sum.step ≤ n := (Nat.le_mul_of_pos_left _ (by decide)).trans h.height_le
  exact Rows.fitsExcept_singleton
    (Rows.fits_every h.isPowerOfTwo_step hle (pos_of_isPowerOfTwo h.isPowerOfTwo_step))
    (h.fits_every (by decide))
    (Rows.every_isSubset_every (Dvd.intro_left _ rfl) (Dvd.intro_left _ rfl))

theorem Fits.isPlaced_onSteps (h : sum.Fits n s) {name : String} {e : Term} (he : e.IsSupplied s)
    (hweight : e.weight ≤ 2) : (sum.onSteps name e).IsPlaced n s :=
  ⟨h.fitsExcept_transition, he, hweight⟩

theorem Fits.isPlaced_of_mem (h : sum.Fits n s) {label : String} {pointX pointY : Term}
    (hx : pointX.IsSupplied s) (hxweight : pointX.weight ≤ 1) (hy : pointY.IsSupplied s)
    (hyweight : pointY.weight ≤ 1) :
    ∀ c ∈ sum.constraints label pointX pointY, c.IsPlaced n s := by
  simp [constraints, onSteps, bit, h.fitsExcept_transition, h.fitsExcept_extractionEnd,
    h.fitsExcept_lastStep, h.x_lt, h.y_lt, h.suffix_lt, h.slope_lt, hx, hy]
  omega

theorem Fits.isPlaced_xDiffInvConstraint (h : sum.Fits n s) {label : String}
    {xDiffInv : VirtualColumn} {pointX : Term} (hinv : xDiffInv.column < s.columns)
    (hx : pointX.IsSupplied s) (hxweight : pointX.weight ≤ 1) :
    (sum.xDiffInvConstraint label xDiffInv pointX).IsPlaced n s := by
  apply h.isPlaced_onSteps
  · simp [hinv, h.x_lt, hx]
  · simp
    omega

theorem Fits.isPlaced_of_mem_unpacking (h : sum.Fits n s) {label : String}
    {unpacking : VirtualColumn} (hunpacking : unpacking.column < s.columns) :
    ∀ c ∈ sum.unpackingConstraints label unpacking, c.IsPlaced n s := by
  simp [unpackingConstraints, h.fitsExcept_height, h.suffix_lt, hunpacking]

end SubsetSum

/-- The condition on the cells of a doubling. -/
structure Doubling.Fits (s : Supply) (d : Doubling) : Prop where
  x_lt : d.x.column < s.columns
  y_lt : d.y.column < s.columns
  slope_lt : d.slope.column < s.columns

theorem Doubling.Fits.isPlaced_of_mem {d : Doubling} {sum : SubsetSum} (hd : d.Fits s)
    (h : sum.Fits n s) {label : String} : ∀ c ∈ d.constraints label sum, c.IsPlaced n s := by
  simp [constraints, SubsetSum.onSteps, h.fitsExcept_transition, hd.x_lt, hd.y_lt, hd.slope_lt]

/-! ## Hashes -/

namespace PedersenCells

/-- The condition on the cells of an instance. -/
structure Fits (n : Nat) (s : Supply) (c : PedersenCells) : Prop where
  sum : c.sum.Fits n s
  height_le : c.height ≤ n
  unpacking_lt : c.unpacking.column < s.columns
  input0_lt : c.input0.column < s.columns
  input1_lt : c.input1.column < s.columns
  output_lt : c.output.column < s.columns
  periodic_lt : c.periodic + 1 < s.periodic
  hint : .pedersenStart ∈ s.hints

theorem Fits.isPlaced_of_mem {cells : PedersenCells} (hn : isPowerOfTwo n = true)
    (h : cells.Fits n s) : ∀ c ∈ cells.constraints, c.IsPlaced n s := by
  have hheight : isPowerOfTwo cells.height = true :=
    isPowerOfTwo_mul (by decide) h.sum.isPowerOfTwo_height
  have hevery := Rows.fitsExcept_every hheight h.height_le
  have hbutLast := Rows.fitsExcept_every_fromEnd hn hheight h.height_le
  have hfirst := Rows.fitsExcept_first hn
  have hperiodic : cells.periodic < s.periodic := (Nat.lt_succ_self _).trans h.periodic_lt
  have hhint := Term.isSupplied_hint h.hint
  rw [constraints, List.forall_mem_append, List.forall_mem_append]
  refine ⟨⟨h.sum.isPlaced_of_mem_unpacking h.unpacking_lt, ?_⟩, ?_⟩
  · exact h.sum.isPlaced_of_mem (by simpa using hperiodic) (by simp)
      (by simpa using h.periodic_lt) (by simp)
  · simp [hevery, hbutLast, hfirst, hhint, VirtualColumn.valueColumn, VirtualColumn.shifted,
      h.sum.x_lt, h.sum.y_lt, h.sum.suffix_lt, h.input0_lt, h.input1_lt, h.output_lt]

end PedersenCells

/-! ## Signatures -/

namespace EcdsaCells

/-- The condition on the cells of an instance. -/
structure Fits (n : Nat) (s : Supply) (c : EcdsaCells) : Prop where
  key : c.key.Fits n s
  keyXDiffInv_lt : c.keyXDiffInv.column < s.columns
  doubling : c.doubling.Fits s
  generator : c.generator.Fits n s
  generatorXDiffInv_lt : c.generatorXDiffInv.column < s.columns
  cells_lt : c.cells < s.columns
  pubkey_lt : c.pubkey.column < s.columns
  message_lt : c.message.column < s.columns
  periodic_lt : c.periodic + 1 < s.periodic
  hint : .ecdsaStart ∈ s.hints

variable {cells : EcdsaCells}

theorem Fits.isPlaced_of_mem_sum (h : cells.Fits n s) :
    ∀ c ∈ cells.sumConstraints, c.IsPlaced n s := by
  have hperiodic : cells.periodic < s.periodic := (Nat.lt_succ_self _).trans h.periodic_lt
  have hpointX : (Term.periodic cells.periodic).IsSupplied s := by simpa using hperiodic
  have hpointY : (Term.periodic (cells.periodic + 1)).IsSupplied s := by simpa using h.periodic_lt
  have hkeyX : cells.doubling.x.current.IsSupplied s := by simpa using h.doubling.x_lt
  have hkeyY : cells.doubling.y.current.IsSupplied s := by simpa using h.doubling.y_lt
  simp only [sumConstraints, List.forall_mem_append, List.forall_mem_singleton]
  refine ⟨⟨⟨⟨?_, ?_⟩, ?_⟩, ?_⟩, ?_⟩
  · exact h.doubling.isPlaced_of_mem h.key
  · exact h.generator.isPlaced_of_mem hpointX (by simp) hpointY (by simp)
  · exact h.generator.isPlaced_xDiffInvConstraint h.generatorXDiffInv_lt hpointX (by simp)
  · exact h.key.isPlaced_of_mem hkeyX (by simp) hkeyY (by simp)
  · exact h.key.isPlaced_xDiffInvConstraint h.keyXDiffInv_lt hkeyX (by simp)

theorem Fits.isPlaced_of_mem_signature (h : cells.Fits n s) :
    ∀ c ∈ cells.signatureConstraints, c.IsPlaced n s := by
  have hevery : (Rows.every cells.height 0).FitsExcept n [] := h.generator.fitsExcept_height
  simp [signatureConstraints, hevery, h.key.fitsExcept_height, h.generator.x_lt, h.generator.y_lt,
    h.generator.suffix_lt, h.key.x_lt, h.key.y_lt, h.key.suffix_lt, h.doubling.x_lt,
    h.doubling.y_lt, h.doubling.slope_lt, h.cells_lt, bSlope, bXDiffInv, rPointSlope,
    rPointXDiffInv, messageInv, keyXSquared, once]

theorem Fits.isPlaced_of_mem_memory (hn : isPowerOfTwo n = true) (h : cells.Fits n s) :
    ∀ c ∈ cells.memoryConstraints, c.IsPlaced n s := by
  have hevery : (Rows.every cells.height 0).FitsExcept n [] := h.generator.fitsExcept_height
  have hbutLast : (Rows.every cells.height 0).FitsExcept n [.fromEnd cells.height] :=
    Rows.fitsExcept_every_fromEnd hn h.generator.isPowerOfTwo_height h.generator.height_le
  have hfirst := Rows.fitsExcept_first hn
  have hhint := Term.isSupplied_hint h.hint
  simp [memoryConstraints, hevery, hbutLast, hfirst, hhint, VirtualColumn.valueColumn,
    VirtualColumn.shifted, h.pubkey_lt, h.message_lt, h.generator.suffix_lt, h.doubling.x_lt]

theorem Fits.isPlaced_of_mem (hn : isPowerOfTwo n = true) (h : cells.Fits n s) :
    ∀ c ∈ cells.constraints, c.IsPlaced n s := by
  rw [constraints, List.forall_mem_append, List.forall_mem_append]
  exact ⟨⟨h.isPlaced_of_mem_sum, h.isPlaced_of_mem_signature⟩, h.isPlaced_of_mem_memory hn⟩

end EcdsaCells

/-! ## Multiples of a point -/

namespace EcOpCells

/-- The condition on the cells of an instance. -/
structure Fits (n : Nat) (s : Supply) (c : EcOpCells) : Prop where
  sum : c.sum.Fits n s
  xDiffInv_lt : c.xDiffInv.column < s.columns
  doubling : c.doubling.Fits s
  unpacking_lt : c.unpacking.column < s.columns
  memory_lt : c.memory.column < s.columns
  hint : .ecOpStart ∈ s.hints

variable {cells : EcOpCells}

theorem Fits.isPlaced_of_mem_address (hn : isPowerOfTwo n = true) (h : cells.Fits n s) :
    ∀ c ∈ cells.addressConstraints, c.IsPlaced n s := by
  have hevery : (Rows.every cells.height 0).FitsExcept n [] := h.sum.fitsExcept_height
  have hbutLast : (Rows.every cells.height 0).FitsExcept n [.fromEnd cells.height] :=
    Rows.fitsExcept_every_fromEnd hn h.sum.isPowerOfTwo_height h.sum.height_le
  have hfirst := Rows.fitsExcept_first hn
  have hhint := Term.isSupplied_hint h.hint
  rw [addressConstraints, List.forall_mem_cons, List.forall_mem_cons, List.forall_mem_map]
  refine ⟨?_, ?_, fun p _ => ?_⟩
  · simp [hfirst, hhint, h.memory_lt]
  · simp [hbutLast, h.memory_lt]
  · simp [hevery, h.memory_lt]

theorem Fits.isPlaced_of_mem (hn : isPowerOfTwo n = true) (h : cells.Fits n s) :
    ∀ c ∈ cells.constraints, c.IsPlaced n s := by
  have hevery : (Rows.every cells.height 0).FitsExcept n [] := h.sum.fitsExcept_height
  have hqX : cells.doubling.x.current.IsSupplied s := by simpa using h.doubling.x_lt
  have hqY : cells.doubling.y.current.IsSupplied s := by simpa using h.doubling.y_lt
  simp only [constraints, List.forall_mem_append]
  refine ⟨⟨⟨⟨⟨?_, ?_⟩, ?_⟩, ?_⟩, ?_⟩, ?_⟩
  · exact h.isPlaced_of_mem_address hn
  · exact h.doubling.isPlaced_of_mem h.sum
  · simp [hevery, VirtualColumn.valueColumn, VirtualColumn.shifted, h.memory_lt, h.doubling.x_lt,
      h.doubling.y_lt]
  · exact h.sum.isPlaced_of_mem_unpacking h.unpacking_lt
  · exact h.sum.isPlaced_of_mem hqX (by simp) hqY (by simp)
  · rw [List.forall_mem_cons]
    refine ⟨h.sum.isPlaced_xDiffInvConstraint h.xDiffInv_lt hqX (by simp), ?_⟩
    simp [hevery, VirtualColumn.valueColumn, VirtualColumn.shifted, h.memory_lt, h.sum.x_lt,
      h.sum.y_lt, h.sum.suffix_lt]

end EcOpCells

end CairoTrace
