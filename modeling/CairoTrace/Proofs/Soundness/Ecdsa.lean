import CairoTrace.Proofs.Completeness.PointSum
import CairoTrace.Proofs.Component.SignatureRows
import CairoTrace.Proofs.Layout.PointColumns

/-!
# Soundness of signatures

The periodic columns of a layout have the multiples of the generator by powers of two
(`EcdsaCells.onRow_generatorPoint`). In an instance whose constraints hold, the generator's sum
leads to `z·G` less the shift point and the first key's sum to `r·Q` more than it, so that the shift
point cancels from the second key `B = z·G + r·Q` (`EcdsaCells.Links.add_results`). The second key's
sum leads to `w·B` more than the shift point, which is taken off again before `r` is compared
(`EcdsaCells.Links.exists_point_eq`). Together they say that the key in memory has signed the
message in memory (`EcdsaCells.exists_signature_of_holdOnInstance`).
-/

namespace CairoTrace

open SubsetSum (steps)

/-- The numbers `r` and `w` sign the message `z` with the key `Q`. -/
structure Ecdsa.IsSignature (z r w : Nat) (Q : CurvePoint) : Prop where
  message_mem : z ∈ Set.Ico 1 (2 ^ scalarBits)
  r_mem : r ∈ Set.Ico 1 (2 ^ scalarBits)
  w_mem : w ∈ Set.Ico 1 (2 ^ scalarBits)
  sum_ne_zero : z • CurvePoint.generator + r • Q ≠ 0
  exists_point_eq : ∃ y, (w • (z • CurvePoint.generator + r • Q)).point = .affine (r : Felt) y

/-- A sum whose first suffix has an inverse has a positive scalar. -/
theorem PointSum.Extracts.exists_positive_scalar {t : PointSum} {inv : Felt}
    (h : t.Extracts Ecdsa.scalarBits) (hinv : t.suffix 0 * inv = 1) :
    ∃ m ∈ Set.Ico 1 (2 ^ Ecdsa.scalarBits),
      ∀ k < steps, t.suffix k = ((m / 2 ^ k : Nat) : Felt) := by
  obtain ⟨m, hm, hsuffix⟩ := h.exists_scalar (by decide) (by decide)
  refine ⟨m, ⟨Nat.one_le_iff_ne_zero.mpr ?_, hm⟩, hsuffix⟩
  rintro rfl
  rw [hsuffix 0 (by decide), Nat.zero_div, Nat.cast_zero, zero_mul] at hinv
  exact zero_ne_one hinv

namespace EcdsaCells

variable {cells : EcdsaCells} {n i : Nat} {columns : List (Array Felt)}
  {periodic : List PeriodicColumn} {b : Bindings}

/-! ## Multiples of the generator -/

/-- The coordinates of the multiple of the generator that is added on a step. -/
def generatorX (k : Nat) : Felt := (2 ^ k • CurvePoint.generator).point.x

def generatorY (k : Nat) : Felt := (2 ^ k • CurvePoint.generator).point.y

theorem generator_point_eq (k : Nat) :
    (2 ^ k • CurvePoint.generator).point = .affine (generatorX k) (generatorY k) :=
  CurvePoint.point_eq_affine (CurvePoint.two_pow_nsmul_ne_zero CurvePoint.generator_ne_zero k)

theorem length_generatorPoints : Ecdsa.generatorPoints.length = steps := by
  rw [Ecdsa.generatorPoints_eq_map, List.length_map, List.length_range]
  rfl

/-- The columns of the generator's points have room beside the cells of an instance. -/
theorem exists_periodicColumns_eq_ok (hn : isPowerOfTwo n = true) (h : cells.IsArranged n) :
    ∃ columns, cells.periodicColumns n = .ok columns := by
  refine exists_pointColumns_eq_ok hn ?_ (isPowerOfTwo_generator_step h) ?_
  · rw [length_generatorPoints]
    decide
  · rw [length_generatorPoints]
    exact h.height_le

section Build

variable {config : LayoutConfig} {modulus : Nat} {params : Option Pedersen.Params} {l : Layout}
  (hbuild : Layout.build config n params modulus = .ok l) (hword : n < 2 ^ 64)
  (hcells : .ecdsa cells ∈ l.components)
include hbuild hword hcells

/-- The periodic columns of a layout have the generator's points on the steps of an instance. -/
theorem onRow_generatorPoint {k : Nat} (hk : k < steps) :
    (Term.periodic cells.periodic).onRow n columns l.periodic b
        (cells.generator.step * (steps * i + k)) = generatorX k ∧
      (Term.periodic (cells.periodic + 1)).onRow n columns l.periodic b
        (cells.generator.step * (steps * i + k)) = generatorY k := by
  refine Layout.onRow_pointColumns (p := (2 ^ k • CurvePoint.generator).point)
    hbuild hword hcells rfl rfl ?_
  rw [length_generatorPoints, Nat.mul_add_mod, Nat.mod_eq_of_lt hk,
    Ecdsa.generatorPoints_eq_map, List.getElem?_map, List.getElem?_range (n := EcOp.steps) hk]
  rfl

/-- In a layout the constraints of an instance that are not on addresses are equations between its
cells and the multiples of the generator. -/
theorem verificationConstraints_holdOnInstance_iff_of_build (hi : i < n / cells.height) :
    (∀ c ∈ cells.verificationConstraints,
      c.HoldsOnInstance n columns l.periodic b cells.height i) ↔
      cells.Verifies columns i generatorX generatorY := by
  obtain ⟨hn, -, harranged⟩ := Layout.isArranged_of_build hbuild
  exact verificationConstraints_holdOnInstance_iff hn hword (harranged _ hcells) hi
    (fun _ hk => (onRow_generatorPoint hbuild hword hcells (Nat.lt_of_succ_lt hk)).1)
    (fun _ hk => (onRow_generatorPoint hbuild hword hcells (Nat.lt_of_succ_lt hk)).2)

/-- In a layout the constraints of an instance are those on addresses and equations between its
cells and the multiples of the generator. -/
theorem holdOnInstance_iff_of_build (hi : i < n / cells.height) :
    (∀ c ∈ cells.constraints, c.HoldsOnInstance n columns l.periodic b cells.height i) ↔
      (∀ c ∈ cells.addressConstraints,
        c.HoldsOnInstance n columns l.periodic b cells.height i) ∧
        cells.Verifies columns i generatorX generatorY := by
  obtain ⟨hn, -, harranged⟩ := Layout.isArranged_of_build hbuild
  exact holdOnInstance_iff hn hword (harranged _ hcells) hi
    (fun _ hk => (onRow_generatorPoint hbuild hword hcells (Nat.lt_of_succ_lt hk)).1)
    (fun _ hk => (onRow_generatorPoint hbuild hword hcells (Nat.lt_of_succ_lt hk)).2)

end Build

/-! ## The points between the sums -/

namespace Links

variable (h : cells.Links columns i) {R S : CurvePoint}
include h

/-- The generator's sum starts at the negative of the shift point. -/
theorem generator_start : (-CurvePoint.shift).point =
    .affine ((cells.generatorAt columns i).x 0) ((cells.generatorAt columns i).y 0) := by
  rw [h.generator_x, eq_neg_of_add_eq_zero_left h.generator_y]
  rfl

theorem key_start {j : Nat} (hj : j < 2) : CurvePoint.shift.point =
    .affine ((cells.keyAt columns i j).x 0) ((cells.keyAt columns i j).y 0) := by
  rw [h.key_x j hj, h.key_y j hj]
  rfl

theorem key_onCurve : (Point.affine ((cells.pointAt columns i 0).x 0)
    ((cells.pointAt columns i 0).y 0)).onCurve = true := by
  rw [Point.onCurve_affine_iff, h.q_on_curve, h.q_x_squared]
  ring

/-- The second key is the sum of the results of the first two sums. -/
theorem add_results
    (hR : R.point = .affine ((cells.generatorAt columns i).x (steps - 1))
      ((cells.generatorAt columns i).y (steps - 1)))
    (hS : S.point = .affine ((cells.keyAt columns i 0).x (steps - 1))
      ((cells.keyAt columns i 0).y (steps - 1))) :
    (R + S).point =
      .affine ((cells.pointAt columns i 1).x 0) ((cells.pointAt columns i 1).y 0) := by
  rw [CurvePoint.add_point, hR, hS,
    Point.add_eq_affine_iff_of_chord h.b_xDiffInv (sub_eq_iff_eq_add'.mpr h.b_slope)]
  exact ⟨h.b_x, h.b_y⟩

/-- Less the shift point, the result of the third sum has the scalar of the second one as its first
coordinate. -/
theorem exists_point_eq (hR : R.point = .affine ((cells.keyAt columns i 1).x (steps - 1))
      ((cells.keyAt columns i 1).y (steps - 1))) :
    ∃ y, (R + -CurvePoint.shift).point = .affine ((cells.keyAt columns i 0).suffix 0) y := by
  have hshift : -CurvePoint.shift.point = .affine Ecdsa.shift.x (-Ecdsa.shift.y) := rfl
  refine ⟨cells.onceAt columns i 4 * ((cells.keyAt columns i 1).x (steps - 1) -
    (cells.keyAt columns i 0).suffix 0) - (cells.keyAt columns i 1).y (steps - 1), ?_⟩
  rw [CurvePoint.add_point, CurvePoint.neg_point, hR, hshift,
    Point.add_eq_affine_iff_of_chord h.r_xDiffInv ((sub_neg_eq_add _ _).trans h.r_slope)]
  exact ⟨h.r_x, add_sub_cancel _ _⟩

end Links

/-! ## Results of the sums -/

namespace AddsUp

theorem two_pow_scalarBits_le : 2 ^ Ecdsa.scalarBits ≤ 2 ^ (steps - 1) :=
  Nat.pow_le_pow_right (by decide) (by decide)

variable (h : cells.AddsUp columns i generatorX generatorY) (hlinks : cells.Links columns i)
include h hlinks

theorem exists_generator_result : ∃ z : Nat, z ∈ Set.Ico 1 (2 ^ Ecdsa.scalarBits) ∧
    (cells.generatorAt columns i).suffix 0 = (z : Felt) ∧
    (-CurvePoint.shift + z • CurvePoint.generator).point =
      .affine ((cells.generatorAt columns i).x (steps - 1))
        ((cells.generatorAt columns i).y (steps - 1)) := by
  obtain ⟨z, hz, hsuffix⟩ := h.generator_extracts.exists_positive_scalar hlinks.z_nonzero
  refine ⟨z, hz, ?_, ?_⟩
  · rw [hsuffix 0 (by decide), pow_zero, Nat.div_one]
  · exact h.generator_adds.last_eq h.generator_xDiffInv hsuffix
      (hz.2.trans_le two_pow_scalarBits_le) hlinks.generator_start
      fun k _ => generator_point_eq k

theorem exists_key_result {j : Nat} (hj : j < 2) :
    ∃ m : Nat, m ∈ Set.Ico 1 (2 ^ Ecdsa.scalarBits) ∧
    (cells.keyAt columns i j).suffix 0 = (m : Felt) ∧
    ∀ Q : CurvePoint,
      Q.point = .affine ((cells.pointAt columns i j).x 0) ((cells.pointAt columns i j).y 0) →
      (CurvePoint.shift + m • Q).point = .affine ((cells.keyAt columns i j).x (steps - 1))
        ((cells.keyAt columns i j).y (steps - 1)) := by
  obtain ⟨m, hm, hsuffix⟩ :=
    (h.key_extracts j hj).exists_positive_scalar (hlinks.r_and_w_nonzero j hj)
  refine ⟨m, hm, ?_, fun Q hQ => ?_⟩
  · rw [hsuffix 0 (by decide), pow_zero, Nat.div_one]
  · exact (h.key_adds j hj).last_eq (h.key_xDiffInv j hj) hsuffix
      (hm.2.trans_le two_pow_scalarBits_le) (hlinks.key_start hj)
      fun k hk => (h.doubles j hj).point_eq hQ (Nat.lt_of_succ_lt hk)

end AddsUp

/-! ## Cells that follow the group law -/

/-- Cells that hold the multiples of the generator and of two keys add up. -/
theorem AddsUp.of_follows {z : Nat} {Q : Nat → CurvePoint} {m : Nat → Nat}
    (hz : z < 2 ^ Ecdsa.scalarBits) (hm : ∀ j < 2, m j < 2 ^ Ecdsa.scalarBits)
    (hQ : ∀ j < 2, Q j ≠ 0) (hzAvoids : CurvePoint.Avoids (-CurvePoint.shift) .generator z)
    (havoids : ∀ j < 2, CurvePoint.shift.Avoids (Q j) (m j))
    (hgenerator : (cells.generatorAt columns i).Follows (-CurvePoint.shift) .generator z)
    (hgeneratorInv : ∀ k, k + 1 < steps →
      cells.generatorXDiffInv.cellAt columns (steps * i + k) =
        (PointSum.multiples (-CurvePoint.shift) .generator z).xDiffInverse generatorX k)
    (hkey : ∀ j < 2, (cells.keyAt columns i j).Follows CurvePoint.shift (Q j) (m j))
    (hkeyInv : ∀ j < 2, ∀ k, k + 1 < steps →
      cells.keyXDiffInv.cellAt columns (steps * (2 * i + j) + k) =
        (PointSum.multiples CurvePoint.shift (Q j) (m j)).xDiffInverse
          (DoubledPoint.multiples (Q j)).x k)
    (hpoint : ∀ j < 2, (cells.pointAt columns i j).Follows (Q j)) :
    cells.AddsUp columns i generatorX generatorY := by
  have hbits : Ecdsa.scalarBits < steps := by decide
  have hpoint_eq (j : Nat) (hj : j < 2) (k : Nat) (hk : k + 1 < steps) :=
    (hpoint j hj).point_eq (hQ j hj) (Nat.lt_of_succ_lt hk)
  have hgenerator_eq (k : Nat) (_ : k + 1 < steps) := generator_point_eq k
  exact {
    doubles j hj := (hpoint j hj).doubles (hQ j hj)
    generator_extracts := hgenerator.extracts hz hbits
    generator_adds := hgenerator.adds hgenerator_eq (neg_ne_zero.mpr CurvePoint.shift_ne_zero)
      hzAvoids
    generator_xDiffInv := hgenerator.xDiffInv hgenerator_eq hzAvoids hgeneratorInv
    key_extracts j hj := (hkey j hj).extracts (hm j hj) hbits
    key_adds j hj := (hkey j hj).adds (hpoint_eq j hj) CurvePoint.shift_ne_zero (havoids j hj)
    key_xDiffInv j hj := (hkey j hj).xDiffInv (hpoint_eq j hj) (havoids j hj) (hkeyInv j hj) }

/-! ## Soundness -/

/-- An instance shows that the message in memory has been signed with the key in memory. -/
theorem Verifies.exists_signature (h : cells.Verifies columns i generatorX generatorY) :
    ∃ (z r w : Nat) (Q : CurvePoint), Ecdsa.IsSignature z r w Q ∧
      z = (cells.messageAt columns i).val ∧
      ∃ y, Q.point = .affine (cells.pubkeyAt columns i) y := by
  obtain ⟨haddsUp, hlinks, hmessage, hpubkey⟩ := h
  obtain ⟨z, hz, hzSuffix, hzG⟩ := haddsUp.exists_generator_result hlinks
  obtain ⟨r, hr, hrSuffix, hrQ⟩ := haddsUp.exists_key_result hlinks Nat.zero_lt_two
  obtain ⟨w, hw, -, hwB⟩ := haddsUp.exists_key_result hlinks Nat.one_lt_two
  let Q : CurvePoint := ⟨_, hlinks.key_onCurve⟩
  let B := z • CurvePoint.generator + r • Q
  have hB : B.point =
      .affine ((cells.pointAt columns i 1).x 0) ((cells.pointAt columns i 1).y 0) := by
    -- The first two sums start at opposite points.
    have hcancel :
        -CurvePoint.shift + z • CurvePoint.generator + (CurvePoint.shift + r • Q) = B := by
      dsimp only [B]
      abel
    rw [← hcancel]
    exact hlinks.add_results hzG (hrQ Q rfl)
  obtain ⟨y, hy⟩ := hlinks.exists_point_eq (hwB B hB)
  rw [add_neg_cancel_comm, hrSuffix] at hy
  refine ⟨z, r, w, Q, ⟨hz, hr, hw, CurvePoint.ne_zero_of_point_eq hB, y, hy⟩, ?_, _,
    by rw [hpubkey]⟩
  rw [hmessage, hzSuffix]
  exact (Felt.val_natCast_of_lt (hz.2.trans (by decide))).symm

/-- Instances of a layout whose constraints hold have the keys and the messages of signatures. -/
theorem exists_signature_of_holdOnInstance {config : LayoutConfig} {modulus : Nat}
    {params : Option Pedersen.Params} {l : Layout}
    (hbuild : Layout.build config n params modulus = .ok l) (hword : n < 2 ^ 64)
    (hcells : .ecdsa cells ∈ l.components) (hi : i < n / cells.height)
    (hholds : ∀ c ∈ cells.constraints, c.HoldsOnInstance n columns l.periodic b cells.height i) :
    ∃ (z r w : Nat) (Q : CurvePoint), Ecdsa.IsSignature z r w Q ∧
      z = (cells.messageAt columns i).val ∧
      ∃ y, Q.point = .affine (cells.pubkeyAt columns i) y := by
  obtain ⟨-, hverifies⟩ := (holdOnInstance_iff_of_build hbuild hword hcells hi).mp hholds
  exact hverifies.exists_signature

/-- A layout with room for one signature in a trace of 512 rows. The message and the numbers of the
signature in the columns below are one. -/
def unitConfig : LayoutConfig where
  name := "signatures"
  ecdsa := some 32

def unitCells : EcdsaCells where
  key := ⟨⟨6, 1, 0⟩, ⟨7, 1, 0⟩, ⟨8, 1, 0⟩, ⟨9, 1, 0⟩, Ecdsa.scalarBits⟩
  keyXDiffInv := ⟨10, 1, 0⟩
  doubling := ⟨⟨11, 1, 0⟩, ⟨12, 1, 0⟩, ⟨13, 1, 0⟩⟩
  generator := ⟨⟨14, 2, 0⟩, ⟨15, 2, 0⟩, ⟨16, 2, 0⟩, ⟨17, 2, 0⟩, Ecdsa.scalarBits⟩
  generatorXDiffInv := ⟨18, 2, 0⟩
  cells := 19
  pubkey := ⟨3, 512, 6⟩
  message := ⟨3, 512, 14⟩
  periodic := 0

/-- A point with the first coordinate one. -/
def unitResult : CurvePoint :=
  ⟨.affine 1 (.ofNat 0x27ff039852193be63e77b8e6adc0b6fbe76e54ff6ad53510fdc370d58446a68),
    by decide⟩

/-- The keys of the two sums. The sum of the first one and the generator is the second one. -/
def unitKey (j : Nat) : CurvePoint :=
  if j = 0 then unitResult + -CurvePoint.generator else unitResult

/-- The memory of the instance, from address 100 on. -/
def unitMemory (row : Nat) : Felt :=
  if row = 7 then (unitKey 0).point.x else if row = 15 then 1 else .ofNat (100 + row / 8)

/-- The cells that the instance has once. -/
def unitOnce : List Felt :=
  let zG := (-CurvePoint.shift + CurvePoint.generator).point
  let rQ := (CurvePoint.shift + unitKey 0).point
  let wB := (CurvePoint.shift + unitKey 1).point
  [1, (unitKey 0).point.x * (unitKey 0).point.x, zG.chord rQ, (zG.x - rQ.x)⁻¹,
    wB.chord (-Ecdsa.shift), (wB.x - Ecdsa.shift.x)⁻¹]

/-- The sum of the multiples of a key. -/
def unitSum (j : Nat) : PointSum := .multiples CurvePoint.shift (unitKey j) 1

def unitDoubling (j : Nat) : DoubledPoint := .multiples (unitKey j)

/-- The slopes of the tangents. The inverse of the scalar takes the place of the last one. -/
def unitSlope (j k : Nat) : Felt := if k + 1 < steps then (unitDoubling j).slope k else 1

def unitRows : List (Nat → Felt) :=
  let generator := PointSum.multiples (-CurvePoint.shift) CurvePoint.generator 1
  let onGenerator (cell : Nat → Felt) (row : Nat) := cell (row / 2)
  let onKeys (cell : Nat → Nat → Felt) (row : Nat) := cell (row / steps) (row % steps)
  [0, 0, 0, unitMemory, 0, 0, onKeys fun j => (unitSum j).x, onKeys fun j => (unitSum j).y,
    onKeys fun j => (unitSum j).suffix, onKeys fun j => (unitSum j).slope,
    onKeys fun j => (unitSum j).xDiffInverse (unitDoubling j).x,
    onKeys fun j => (unitDoubling j).x, onKeys fun j => (unitDoubling j).y,
    onKeys unitSlope, onGenerator generator.x, onGenerator generator.y,
    onGenerator generator.suffix, onGenerator generator.slope,
    onGenerator (generator.xDiffInverse generatorX), fun row => unitOnce[row]?.getD 0]

def unitColumns : List (Array Felt) := columnsOfRows 512 unitRows

theorem unitKey_ne_zero (j : Nat) : unitKey j ≠ 0 := by
  rw [unitKey]
  split
  · exact CurvePoint.ne_zero_of_point_eq rfl
  · exact CurvePoint.ne_zero_of_point_eq rfl

theorem shift_avoids_unitKey {j : Nat} (hj : j < 2) :
    CurvePoint.shift.Avoids (unitKey j) 1 := by
  apply CurvePoint.avoids_one (unitKey_ne_zero j)
  interval_cases j
  · decide +kernel
  · decide +kernel

theorem unitColumns_addUp : unitCells.AddsUp unitColumns 0 generatorX generatorY := by
  have hgenerator {column : Nat} {cell : Nat → Felt}
      (hc : unitRows[column]? = some fun row => cell (row / 2)) (k : Nat) (hk : k < steps) :
      (⟨column, 2, 0⟩ : VirtualColumn).cellAt unitColumns (steps * 0 + k) = cell k := by
    have hrow : (⟨column, 2, 0⟩ : VirtualColumn).row (steps * 0 + k) = 2 * k := by
      rw [VirtualColumn.row, mul_zero, zero_add, zero_add]
    rw [unitColumns, VirtualColumn.cellAt_columnsOfRows hc (by rw [steps] at hk; omega), hrow,
      Nat.mul_div_cancel_left k (by decide)]
  have hkey {column : Nat} (cell : Nat → Nat → Felt)
      (hc : unitRows[column]? = some fun row => cell (row / steps) (row % steps)) {j : Nat}
      (hj : j < 2) (k : Nat) (hk : k < steps) :
      (⟨column, 1, 0⟩ : VirtualColumn).cellAt unitColumns (steps * (2 * 0 + j) + k) = cell j k := by
    have hrow : (⟨column, 1, 0⟩ : VirtualColumn).row (steps * (2 * 0 + j) + k) = steps * j + k := by
      rw [VirtualColumn.row, mul_zero, zero_add, zero_add, one_mul]
    rw [unitColumns, VirtualColumn.cellAt_columnsOfRows hc (by rw [steps] at *; omega), hrow,
      Nat.mul_add_div (by decide), Nat.mul_add_mod, Nat.div_eq_of_lt hk, Nat.mod_eq_of_lt hk,
      add_zero]
  have hsum : (unitCells.generatorAt unitColumns 0).Follows (-CurvePoint.shift)
      CurvePoint.generator 1 :=
    SubsetSum.sumAt_follows (hgenerator rfl) (hgenerator rfl) (hgenerator rfl) (hgenerator rfl)
  have hkeySum (j : Nat) (hj : j < 2) :
      (unitCells.keyAt unitColumns 0 j).Follows CurvePoint.shift (unitKey j) 1 :=
    SubsetSum.sumAt_follows (hkey (fun j => (unitSum j).x) rfl hj)
      (hkey (fun j => (unitSum j).y) rfl hj) (hkey (fun j => (unitSum j).suffix) rfl hj)
      (hkey (fun j => (unitSum j).slope) rfl hj)
  have hslope (j : Nat) (hj : j < 2) (k : Nat) (hk : k + 1 < steps) :
      unitCells.doubling.slope.cellAt unitColumns (steps * (2 * 0 + j) + k) =
        (unitDoubling j).slope k :=
    (hkey unitSlope rfl hj k (Nat.lt_of_succ_lt hk)).trans (if_pos hk)
  have hpoint (j : Nat) (hj : j < 2) :
      (unitCells.pointAt unitColumns 0 j).Follows (unitKey j) :=
    Doubling.pointAt_follows (hkey (fun j => (unitDoubling j).x) rfl hj)
      (hkey (fun j => (unitDoubling j).y) rfl hj) (hslope j hj)
  exact AddsUp.of_follows (by decide) (fun _ _ => by decide) (fun j _ => unitKey_ne_zero j)
    CurvePoint.neg_shift_avoids_generator (fun _ hj => shift_avoids_unitKey hj) hsum
    (fun k hk => hgenerator rfl k (Nat.lt_of_succ_lt hk)) hkeySum
    (fun j hj k hk => hkey (fun j => (unitSum j).xDiffInverse (unitDoubling j).x) rfl hj k
      (Nat.lt_of_succ_lt hk)) hpoint

theorem unitColumns_link : unitCells.Links unitColumns 0 := by
  rw [links_iff]
  decide +kernel

theorem unitColumns_verify : unitCells.Verifies unitColumns 0 generatorX generatorY where
  addsUp := unitColumns_addUp
  links := unitColumns_link
  message := by decide +kernel
  pubkey := by decide +kernel

/-- The bindings of the columns, which have two periodic ones. -/
def unitBindings : Bindings := ⟨[], List.replicate 13 (some 100), 2⟩

theorem unitAddresses_hold (periodic : List PeriodicColumn) : ∀ c ∈ unitCells.addressConstraints,
    c.HoldsOnInstance 512 unitColumns periodic unitBindings 512 0 := by
  have hempty : ∀ c ∈ unitCells.addressConstraints,
      c.HoldsOnInstance 512 unitColumns [] unitBindings 512 0 := by
    simp only [Constraint.HoldsOnInstance]
    decide +kernel
  have hleaves : ∀ c ∈ unitCells.addressConstraints, ∀ p, .periodic p ∉ c.expr.leaves := by
    have hone : (1 : Term).leaves = [.constant 1] := rfl
    simp [addressConstraints, memoryConstraints, VirtualColumn.current, VirtualColumn.next,
      VirtualColumn.cell, Hint.term, hone]
  intro c hc row hrow hi
  rw [Term.onRow_congr_periodic (hleaves c hc)]
  exact hempty c hc row hrow hi

theorem exists_unit_build : ∃ l, Layout.build unitConfig 512 none = .ok l ∧
    .ecdsa unitCells ∈ l.components := by
  have hassembly : ∃ a, (Layout.Assembly.initial unitConfig 512).addBuiltins unitConfig none =
      .ok a ∧ a.components = [.cpu, .memory 21, .rangeCheck16 20, .ecdsa unitCells] :=
    ⟨_, rfl, rfl⟩
  obtain ⟨a, ha, hcomponents⟩ := hassembly
  have hn : isPowerOfTwo 512 = true := by decide
  have hvalid : unitConfig.Valid := LayoutConfig.validate_eq_ok_iff.mp rfl
  have hperiodic : ∀ k ∈ a.components, k.IsArranged unitConfig 512 →
      ∃ columns, k.periodicColumns 512 = .ok columns := by
    simp only [hcomponents, List.forall_mem_cons, List.not_mem_nil, false_implies, implies_true,
      and_true]
    exact ⟨fun _ => ⟨_, rfl⟩, fun _ => ⟨_, rfl⟩, fun _ => ⟨_, rfl⟩,
      exists_periodicColumns_eq_ok hn⟩
  obtain ⟨l, hl, hlcomponents⟩ := Layout.exists_build_eq_ok hvalid hn (by decide) ha hperiodic
  exact ⟨l, hl, by simp [hlcomponents, hcomponents]⟩

/-- The instance has a signature of the message one. -/
theorem exists_signature_unit : ∃ (z r w : Nat) (Q : CurvePoint), Ecdsa.IsSignature z r w Q ∧
    z = (unitCells.messageAt unitColumns 0).val ∧
    ∃ y, Q.point = .affine (unitCells.pubkeyAt unitColumns 0) y := by
  obtain ⟨l, hl, hcells⟩ := exists_unit_build
  have hi : 0 < 512 / unitCells.height := by decide
  have hholds := (holdOnInstance_iff_of_build hl (by decide) hcells hi).mpr
    ⟨unitAddresses_hold l.periodic, unitColumns_verify⟩
  exact exists_signature_of_holdOnInstance hl (by decide) hcells hi hholds

end EcdsaCells

end CairoTrace
