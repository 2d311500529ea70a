import CairoTrace.Proofs.Completeness.Signature
import CairoTrace.Proofs.Soundness.Ecdsa
import CairoTrace.Proofs.Trace.ScriptPlaces

/-!
# Completeness of signatures

The cells that are written with the witness of an instance follow its three sums
(`EcdsaCells.addsUp_of_areHeld`) and have the values between them (`EcdsaCells.links_of_areHeld`).
With the generator's points in the periodic columns, all constraints but those on addresses hold
(`EcdsaCells.verifies_of_writes`).
-/

namespace CairoTrace

open SubsetSum (steps)

/-! ## The steps of a witness -/

namespace Ecdsa

@[simp] theorem getElem?_keySteps {Q : CurvePoint} {m k : Nat} (hk : k < steps) :
    (keySteps Q m)[k]? = some (CurvePoint.sumStep CurvePoint.shift Q m steps k) := by
  rw [keySteps, List.getElem?_map, List.getElem?_range (n := EcOp.steps) hk]
  rfl

theorem length_keySteps (Q : CurvePoint) (m : Nat) : (keySteps Q m).length = steps := by
  rw [keySteps, List.length_map, List.length_range]
  rfl

theorem length_keyDoubling (Q : CurvePoint) (m : Felt) : (keyDoubling Q m).length = steps := by
  rw [keyDoubling, length_withLastSlope, length_doublingSteps]
  rfl

/-- The last step has the inverse of the scalar for the slope of a tangent. -/
theorem getElem?_keyDoubling {Q : CurvePoint} {m : Felt} {k : Nat} (hk : k < steps) :
    (keyDoubling Q m)[k]? = some ⟨(2 ^ k • Q).point,
      if k + 1 = steps then m⁻¹ else (2 ^ k • Q).point.tangent⟩ := by
  have hlast : EcOp.steps - 1 = k ↔ k + 1 = steps := by
    simp only [EcOp.steps, steps] at hk ⊢
    omega
  rw [keyDoubling, withLastSlope, length_doublingSteps, List.getElem?_modify,
    doublingSteps_eq_map, List.getElem?_map, List.getElem?_range (n := EcOp.steps) hk]
  simp only [hlast]
  split
  · rfl
  · rfl

/-- An element of two lists of one length, one after the other. -/
theorem getElem?_append_of_length_eq {α : Type} {f : Nat → List α} {n j k : Nat} (hj : j < 2)
    (hk : k < n) (hlength : ∀ j, (f j).length = n) : (f 0 ++ f 1)[n * j + k]? = (f j)[k]? := by
  interval_cases j
  · rw [mul_zero, zero_add, List.getElem?_append_left (hk.trans_eq (hlength 0).symm)]
  · rw [mul_one, List.getElem?_append_right (by rw [hlength]; omega), hlength,
      Nat.add_sub_cancel_left]

namespace Witness

/-- The keys of the second and the third sum. -/
def sumKeyAt (w : Witness) (Q : CurvePoint) (j : Nat) : CurvePoint :=
  if j = 0 then Q else sumKey w.message.val w.r.val Q

/-- The scalars of the second and the third sum. -/
def scalarAt (w : Witness) (j : Nat) : Felt := if j = 0 then w.r else w.w

variable {w : Witness} {Q : CurvePoint}

namespace Computes

variable (h : w.Computes Q) {j k : Nat}
include h

theorem scalarAt_mem (hj : j < 2) : (w.scalarAt j).val ∈ Set.Ico 1 (2 ^ scalarBits) := by
  interval_cases j
  · exact h.r_mem
  · exact h.w_mem

theorem sumKeyAt_ne_zero (hj : j < 2) : w.sumKeyAt Q j ≠ 0 := by
  interval_cases j
  · exact h.key_ne_zero
  · exact h.accepts.sumKey_ne_zero

theorem avoids (hj : j < 2) : CurvePoint.shift.Avoids (w.sumKeyAt Q j) (w.scalarAt j).val := by
  interval_cases j
  · exact h.accepts.key_avoids
  · exact h.accepts.sumKey_avoids

theorem getElem?_generatorSum (hk : k < steps) : w.generatorSum[k]? =
    some (CurvePoint.sumStep (-CurvePoint.shift) .generator w.message.val steps k) := by
  rw [h.eq_ofSignature, ofSignature, List.getElem?_map, List.getElem?_range (n := EcOp.steps) hk]
  rfl

/-- The second and the third sum are one after the other. -/
theorem getElem?_keySum (hj : j < 2) (hk : k < steps) : w.keySum[steps * j + k]? =
    some (CurvePoint.sumStep CurvePoint.shift (w.sumKeyAt Q j) (w.scalarAt j).val steps k) := by
  have hsum : w.keySum = keySteps (w.sumKeyAt Q 0) (w.scalarAt 0).val ++
      keySteps (w.sumKeyAt Q 1) (w.scalarAt 1).val := congrArg keySum h.eq_ofSignature
  have hsplit := getElem?_append_of_length_eq
    (f := fun j => keySteps (w.sumKeyAt Q j) (w.scalarAt j).val) hj hk fun _ => length_keySteps _ _
  rw [hsum, hsplit, getElem?_keySteps hk]

theorem getElem?_doubling (hj : j < 2) (hk : k < steps) : w.doubling[steps * j + k]? =
    some ⟨(2 ^ k • w.sumKeyAt Q j).point,
      if k + 1 = steps then (w.scalarAt j)⁻¹ else (2 ^ k • w.sumKeyAt Q j).point.tangent⟩ := by
  have hdoubling : w.doubling = keyDoubling (w.sumKeyAt Q 0) (w.scalarAt 0) ++
      keyDoubling (w.sumKeyAt Q 1) (w.scalarAt 1) := congrArg doubling h.eq_ofSignature
  have hsplit := getElem?_append_of_length_eq
    (f := fun j => keyDoubling (w.sumKeyAt Q j) (w.scalarAt j)) hj hk
    fun _ => length_keyDoubling _ _
  rw [hdoubling, hsplit, getElem?_keyDoubling hk]

theorem withIndex (i : Nat) : (w.withIndex i).Computes Q where
  key_ne_zero := h.key_ne_zero
  keyX_eq := h.keyX_eq
  message_mem := h.message_mem
  r_mem := h.r_mem
  w_mem := h.w_mem
  accepts := h.accepts
  eq_ofSignature := by
    exact congrArg (fun u : Witness => { u with inst := { w.inst with index := i } })
      h.eq_ofSignature

theorem key_eq : w.key = Q.point := congrArg key h.eq_ofSignature

theorem generatorResult_ne_zero : generatorResult w.message.val ≠ 0 :=
  h.accepts.generator_avoids.add_nsmul_ne_zero
    (neg_ne_zero.mpr CurvePoint.shift_ne_zero) (lt_two_pow_of_mem h.message_mem)

theorem keyResult_ne_zero (hj : j < 2) :
    keyResult (w.sumKeyAt Q j) (w.scalarAt j).val ≠ 0 :=
  (h.avoids hj).add_nsmul_ne_zero CurvePoint.shift_ne_zero
    (lt_two_pow_of_mem (h.scalarAt_mem hj))

/-- The second key is the sum of the first two results, by their chord. -/
theorem sumKey_chord {zG rQ B : CurvePoint} (hzG : generatorResult w.message.val = zG)
    (hrQ : keyResult Q w.r.val = rQ) (hB : sumKey w.message.val w.r.val Q = B) :
    w.bXDiffInv * (zG.point.x - rQ.point.x) = 1 ∧
      zG.point.y - rQ.point.y = w.bSlope * (zG.point.x - rQ.point.x) ∧
      w.bSlope * w.bSlope = zG.point.x + rQ.point.x + B.point.x ∧
      zG.point.y + B.point.y = w.bSlope * (zG.point.x - B.point.x) := by
  have hzG_ne := h.generatorResult_ne_zero
  have hrQ_ne : keyResult Q w.r.val ≠ 0 := h.keyResult_ne_zero two_pos
  have hx := h.accepts.x_ne
  have hinv := congrArg bXDiffInv h.eq_ofSignature
  have hslope := congrArg bSlope h.eq_ofSignature
  dsimp only [ofSignature] at hinv hslope
  rw [hzG] at hzG_ne hx hinv hslope
  rw [hrQ] at hrQ_ne hx hinv hslope
  rw [← hB, ← add_results_eq, hzG, hrQ]
  exact CurvePoint.chord_add hzG_ne hrQ_ne hx hinv hslope

/-- The result of the third sum leads to `r` when it is shifted back, by their chord. -/
theorem result_chord {wB : CurvePoint}
    (hwB : keyResult (sumKey w.message.val w.r.val Q) w.w.val = wB) :
    w.rPointXDiffInv * (wB.point.x - shift.x) = 1 ∧
      wB.point.y + shift.y = w.rPointSlope * (wB.point.x - shift.x) ∧
      w.rPointSlope * w.rPointSlope = wB.point.x + shift.x + w.r := by
  have hwB_ne : keyResult (sumKey w.message.val w.r.val Q) w.w.val ≠ 0 :=
    h.keyResult_ne_zero one_lt_two
  have hx := h.accepts.sumKey_x_ne
  have hinv := congrArg rPointXDiffInv h.eq_ofSignature
  have hslope := congrArg rPointSlope h.eq_ofSignature
  dsimp only [ofSignature] at hinv hslope
  have hresult : (wB + -CurvePoint.shift).point.x = w.r := by
    rw [← hwB, keyResult_add_neg_shift, h.accepts.x_eq, Felt.natCast_val]
  rw [hwB] at hwB_ne hx hinv hslope
  have hneg_y : (-CurvePoint.shift).point.y = -CurvePoint.shift.point.y := rfl
  rw [← sub_neg_eq_add, ← hneg_y] at hslope
  obtain ⟨hone, hchord, hsquare, -⟩ :=
    CurvePoint.chord_add hwB_ne (neg_ne_zero.mpr CurvePoint.shift_ne_zero) hx hinv hslope
  rw [hresult] at hsquare
  rw [hneg_y, sub_neg_eq_add] at hchord
  exact ⟨hone, hchord, hsquare⟩

end Computes

theorem exists_ofPlace {instances : List (Option EcdsaInstance)}
    (h : ∀ inst, some inst ∈ instances → ∃ w, ofInstance inst = .ok w) :
    ∀ q ∈ instances.zipIdx, ∃ w, ofPlace q = .ok w :=
  exists_witnessOfPlace h (exists_dummy 0)

theorem exists_computes_of_ofPlace {q : Option EcdsaInstance × Nat} (h : ofPlace q = .ok w) :
    ∃ Q, w.Computes Q := by
  obtain ⟨inst, v, i, hv, rfl⟩ := ofPlace_eq_ok h
  obtain ⟨Q, hcomputes, -⟩ := ofInstance_eq_ok hv
  exact ⟨Q, hcomputes.withIndex i⟩

end Witness

end Ecdsa

namespace EcdsaCells

variable {cells : EcdsaCells} {check : Option DilutedCheck} {n start i : Nat} {w : Ecdsa.Witness}
  {columns : List (Array Felt)} {Q : CurvePoint}

/-! ## Cells -/

/-- Columns that hold the steps of a sum follow it. -/
theorem follows_of_sumWrites {sum : SubsetSum} {xDiffInv : VirtualColumn} {P : CurvePoint}
    {m : Nat} (hm : m < 2 ^ (steps - 1))
    (h : ∀ k < steps, Write.AreHeld check columns
      (sumWrites sum xDiffInv (steps * i + k) (CurvePoint.sumStep P Q m steps k))) :
    (sum.sumAt columns i).Follows P Q m ∧ ∀ k, k + 1 < steps →
      xDiffInv.cellAt columns (steps * i + k) =
        (PointSum.multiples P Q m).xDiffInverse (DoubledPoint.multiples Q).x k := by
  refine ⟨SubsetSum.sumAt_follows (fun k hk => (h k hk).cellAt_eq ?_)
    (fun k hk => (h k hk).cellAt_eq ?_) (fun k hk => (h k hk).cellAt_eq ?_)
    (fun k hk => (h k hk).cellAt_eq ?_), fun k hk => ?_⟩
  case refine_3 =>
    rw [← CurvePoint.sumStep_suffix steps]
    simp [sumWrites]
  case refine_4 =>
    rw [← CurvePoint.sumStep_slope hm hk]
    simp [sumWrites]
  case refine_5 =>
    rw [← CurvePoint.sumStep_xDiffInv hk.ne]
    exact (h k (Nat.lt_of_succ_lt hk)).cellAt_eq (by simp [sumWrites])
  all_goals simp [sumWrites, PointSum.multiples, CurvePoint.sumStep]

variable (h : Write.AreHeld check columns (cells.instanceWrites start i w))
include h

/-- The columns hold each step of the generator's sum. -/
theorem areHeld_generatorStep {k : Nat} {s : SumStep} (hs : w.generatorSum[k]? = some s) :
    Write.AreHeld check columns
      (sumWrites cells.generator cells.generatorXDiffInv (steps * i + k) s) := by
  rw [instanceWrites, mul_comm i steps] at h
  have hsteps := h.mono fun _ hwrite =>
    List.mem_append_left _ (List.mem_append_left _ (List.mem_append_left _ hwrite))
  exact hsteps.of_getElem? hs

/-- The columns hold each step of the sums of the keys and of their doublings. -/
theorem areHeld_keyStep {j k : Nat} {s : SumStep} {d : DoublingStep}
    (hs : w.keySum[steps * j + k]? = some s) (hd : w.doubling[steps * j + k]? = some d) :
    Write.AreHeld check columns
        (sumWrites cells.key cells.keyXDiffInv (steps * (2 * i + j) + k) s) ∧
      Write.AreHeld check columns (cells.doublingWrites (steps * (2 * i + j) + k) d) := by
  have hplace : i * (2 * steps) + (steps * j + k) = steps * (2 * i + j) + k := by ring
  have hzip : (w.keySum.zip w.doubling)[steps * j + k]? = some (s, d) :=
    List.getElem?_zip_eq_some.mpr ⟨hs, hd⟩
  have hsteps := h.mono fun _ hwrite =>
    List.mem_append_left _ (List.mem_append_left _ (List.mem_append_right _ hwrite))
  have hstep : Write.AreHeld check columns
      (sumWrites cells.key cells.keyXDiffInv (i * (2 * steps) + (steps * j + k)) s ++
        cells.doublingWrites (i * (2 * steps) + (steps * j + k)) d) := hsteps.of_getElem? hzip
  rw [hplace] at hstep
  exact ⟨hstep.mono fun _ => List.mem_append_left _, hstep.mono fun _ => List.mem_append_right _⟩

/-- The columns hold the cells that an instance has once. -/
theorem onceAt_eq (row : Nat) {v : Felt} (hv : [w.message⁻¹, w.key.x.square, w.bSlope, w.bXDiffInv,
    w.rPointSlope, w.rPointXDiffInv][row]? = some v) : cells.onceAt columns i row = v := by
  have honce := h.mono fun _ hwrite =>
    List.mem_append_left _ (List.mem_append_right _ hwrite)
  have hrow : row < 6 := (List.getElem?_eq_some_iff.mp hv).1
  refine honce.cellAt_eq (c := cells.once row) ?_
  interval_cases row
  all_goals
    obtain rfl := Option.some.inj hv
    simp [messageInv, keyXSquared, bSlope, bXDiffInv, rPointSlope, rPointXDiffInv]

/-- The columns hold the key and the message in memory. -/
theorem memory_eq (harranged : cells.IsArranged n) :
    cells.pubkeyAt columns i = w.key.x ∧ cells.messageAt columns i = w.message := by
  have hmemory := h.mono fun _ hwrite => List.mem_append_right _ hwrite
  exact ⟨hmemory.valueColumn_cellAt_eq harranged.pubkey.column_eq List.mem_cons_self,
    hmemory.valueColumn_cellAt_eq harranged.message.column_eq
      (List.mem_cons_of_mem _ List.mem_cons_self)⟩

/-! ## The sums and what is between them -/

variable (hw : w.Computes Q)
include hw

theorem generatorAt_follows_of_areHeld : (cells.generatorAt columns i).Follows (-CurvePoint.shift)
    .generator w.message.val ∧ ∀ k, k + 1 < steps →
      cells.generatorXDiffInv.cellAt columns (steps * i + k) =
        (PointSum.multiples (-CurvePoint.shift) .generator w.message.val).xDiffInverse
          generatorX k :=
  follows_of_sumWrites (hw.message_mem.2.trans_le AddsUp.two_pow_scalarBits_le) fun _ hk =>
    areHeld_generatorStep h (hw.getElem?_generatorSum hk)

variable {j : Nat} (hj : j < 2)
include hj

theorem keyAt_follows_of_areHeld : (cells.keyAt columns i j).Follows CurvePoint.shift
    (w.sumKeyAt Q j) (w.scalarAt j).val ∧ ∀ k, k + 1 < steps →
      cells.keyXDiffInv.cellAt columns (steps * (2 * i + j) + k) =
        (PointSum.multiples CurvePoint.shift (w.sumKeyAt Q j) (w.scalarAt j).val).xDiffInverse
          (DoubledPoint.multiples (w.sumKeyAt Q j)).x k :=
  follows_of_sumWrites ((hw.scalarAt_mem hj).2.trans_le AddsUp.two_pow_scalarBits_le) fun _ hk =>
    (areHeld_keyStep h (hw.getElem?_keySum hj hk) (hw.getElem?_doubling hj hk)).1

/-- The columns hold the doublings of the keys, and the inverses of the scalars after them. -/
theorem pointAt_follows_of_areHeld : (cells.pointAt columns i j).Follows (w.sumKeyAt Q j) ∧
    (cells.pointAt columns i j).slope (steps - 1) = (w.scalarAt j)⁻¹ := by
  have hstep {k : Nat} (hk : k < steps) :=
    (areHeld_keyStep h (hw.getElem?_keySum hj hk) (hw.getElem?_doubling hj hk)).2
  refine ⟨Doubling.pointAt_follows (fun k hk => (hstep hk).cellAt_eq ?_)
    (fun k hk => (hstep hk).cellAt_eq ?_)
    (fun k hk => (hstep (Nat.lt_of_succ_lt hk)).cellAt_eq ?_),
    (hstep (k := steps - 1) (by decide)).cellAt_eq ?_⟩
  case refine_3 => simp [doublingWrites, DoubledPoint.multiples, hk.ne]
  all_goals simp [doublingWrites, DoubledPoint.multiples, steps]

omit hj

theorem addsUp_of_areHeld : cells.AddsUp columns i generatorX generatorY := by
  obtain ⟨hgenerator, hgeneratorInv⟩ := generatorAt_follows_of_areHeld h hw
  exact AddsUp.of_follows hw.message_mem.2 (fun _ hj => (hw.scalarAt_mem hj).2)
    (fun _ hj => hw.sumKeyAt_ne_zero hj) hw.accepts.generator_avoids (fun _ hj => hw.avoids hj)
    hgenerator hgeneratorInv (fun _ hj => (keyAt_follows_of_areHeld h hw hj).1)
    (fun _ hj => (keyAt_follows_of_areHeld h hw hj).2)
    (fun _ hj => (pointAt_follows_of_areHeld h hw hj).1)

theorem links_of_areHeld : cells.Links columns i := by
  have hlt {m : Felt} (hm : m.val ∈ Set.Ico 1 (2 ^ Ecdsa.scalarBits)) :
      m.val < 2 ^ (steps - 1) := hm.2.trans_le AddsUp.two_pow_scalarBits_le
  have hinv {m : Felt} (hm : m.val ∈ Set.Ico 1 (2 ^ Ecdsa.scalarBits)) : m * m⁻¹ = 1 := by
    have hne : m ≠ 0 := by
      rintro rfl
      exact absurd hm.1 (by decide)
    exact Residue.mul_inv_self hne
  have hgenerator := (generatorAt_follows_of_areHeld h hw).1
  have hkey {j : Nat} (hj : j < 2) := (keyAt_follows_of_areHeld h hw hj).1
  have hpoint {j : Nat} (hj : j < 2) := pointAt_follows_of_areHeld h hw hj
  have hpointX {j : Nat} (hj : j < 2) : (cells.pointAt columns i j).x 0 =
      (w.sumKeyAt Q j).point.x := (hpoint hj).1.x_zero
  have hpointY {j : Nat} (hj : j < 2) : (cells.pointAt columns i j).y 0 =
      (w.sumKeyAt Q j).point.y := (hpoint hj).1.y_zero
  -- the results of the three sums
  obtain ⟨hzx, hzy⟩ := hgenerator.last (hlt hw.message_mem)
  obtain ⟨hrx, hry⟩ := (hkey two_pos).last (hlt (hw.scalarAt_mem two_pos))
  obtain ⟨hwx, hwy⟩ := (hkey one_lt_two).last (hlt (hw.scalarAt_mem one_lt_two))
  -- the slopes between them
  obtain ⟨hbInv, hbSlope, hbx, hby⟩ := hw.sumKey_chord rfl rfl rfl
  obtain ⟨hrInv, hrSlope, hrsq⟩ := hw.result_chord rfl
  have hsuffix {j : Nat} (hj : j < 2) : (cells.keyAt columns i j).suffix 0 = w.scalarAt j :=
    (hkey hj).accumulates.suffix_zero
  exact {
    generator_x := hgenerator.accumulates.x_zero
    generator_y := hgenerator.accumulates.y_zero ▸ neg_add_cancel _
    key_x j hj := (hkey hj).accumulates.x_zero
    key_y j hj := (hkey hj).accumulates.y_zero
    b_slope := by
      rw [onceAt_eq h 2 rfl, hzx, hzy, hrx, hry]
      exact sub_eq_iff_eq_add'.mp hbSlope
    b_x := by
      rw [onceAt_eq h 2 rfl, hzx, hrx, hpointX one_lt_two]
      exact hbx
    b_y := by
      rw [onceAt_eq h 2 rfl, hzx, hzy, hpointX one_lt_two, hpointY one_lt_two]
      exact hby
    b_xDiffInv := by
      rw [onceAt_eq h 3 rfl, hzx, hrx]
      exact hbInv
    r_slope := by
      rw [onceAt_eq h 4 rfl, hwx, hwy]
      exact hrSlope
    r_x := by
      rw [onceAt_eq h 4 rfl, hwx, hsuffix two_pos]
      exact hrsq
    r_xDiffInv := by
      rw [onceAt_eq h 5 rfl, hwx]
      exact hrInv
    z_nonzero := by
      rw [onceAt_eq h 0 rfl, hgenerator.accumulates.suffix_zero]
      exact hinv hw.message_mem
    r_and_w_nonzero j hj := by
      rw [hsuffix hj, (hpoint hj).2]
      exact hinv (hw.scalarAt_mem hj)
    q_x_squared := by
      rw [onceAt_eq h 1 rfl, hpointX two_pos, hw.key_eq]
      rfl
    q_on_curve := by
      have honCurve := Q.onCurve
      rw [CurvePoint.point_eq_affine hw.key_ne_zero, Point.onCurve_affine_iff] at honCurve
      rw [onceAt_eq h 1 rfl, hpointX two_pos, hpointY two_pos, hw.key_eq]
      change Q.point.y * Q.point.y = Q.point.x * (Q.point.x * Q.point.x) + 1 * Q.point.x + _
      linear_combination honCurve }

theorem verifies_of_areHeld (harranged : cells.IsArranged n) :
    cells.Verifies columns i generatorX generatorY := by
  obtain ⟨hpubkey, hmessage⟩ := memory_eq h harranged
  have hgenerator := (generatorAt_follows_of_areHeld h hw).1
  have hpoint := (pointAt_follows_of_areHeld h hw Nat.zero_lt_two).1
  exact {
    addsUp := addsUp_of_areHeld h hw
    links := links_of_areHeld h hw
    message := hmessage.trans hgenerator.accumulates.suffix_zero.symm
    pubkey := hpubkey.trans ((congrArg Point.x hw.key_eq).trans hpoint.x_zero.symm) }

omit h hw

/-! ## All instances -/

/-- The dummy instance has a witness. When all instances have one, there are columns with what they
write, and these have zeros in all constraints but those on addresses. -/
theorem verifies_of_writes {config : LayoutConfig} {modulus : Nat}
    {params : Option Pedersen.Params} {l : Layout}
    (hbuild : Layout.build config n params modulus = .ok l) (hword : n < 2 ^ 64)
    (hcells : .ecdsa cells ∈ l.components) {instances : List (Option EcdsaInstance)}
    (hlength : instances.length = n / cells.height)
    (hinstances : ∀ inst, some inst ∈ instances → ∃ w, Ecdsa.Witness.ofInstance inst = .ok w)
    (check : Option DilutedCheck) (start : Nat) :
    (∃ w, Ecdsa.Witness.dummy 0 = .ok w) ∧
    (∃ columns : List (Array Felt), columns.length = l.mainColumns ∧
      (∀ column ∈ columns, column.size = n) ∧
      Write.AreHeld check columns (cells.writes start instances)) ∧
    ∀ columns : List (Array Felt), Write.AreHeld check columns (cells.writes start instances) →
      ∀ b : Bindings, ∀ c ∈ cells.verificationConstraints, c.Holds n columns l.periodic b := by
  obtain ⟨hn, -, harranged⟩ := Layout.isArranged_of_build hbuild
  have hcells_arranged : cells.IsArranged n := harranged _ hcells
  refine ⟨Ecdsa.Witness.exists_dummy 0, ?_, fun columns hheld b c hc => ?_⟩
  · exact Layout.exists_columns_areHeld_of_writesOwn hbuild hcells
      (writesOwn hcells_arranged (Layout.isAllotted_of_build hbuild hcells rfl) hlength)
  · have hmem : c ∈ (Component.ecdsa cells).constraints := (List.mem_filter.mp hc).1
    rw [Layout.holds_iff_holdsOnInstance hbuild hcells hmem
      (isPowerOfTwo_height hcells_arranged) hcells_arranged.height_le]
    intro i hi
    obtain ⟨w, hw, hsubset⟩ := Write.exists_subset_ofWitnesses
      (cells.instanceWrites start) (Ecdsa.Witness.exists_ofPlace hinstances)
      (List.getElem?_eq_getElem (hi.trans_eq hlength.symm))
    obtain ⟨Q, hcomputes⟩ := Ecdsa.Witness.exists_computes_of_ofPlace hw
    rw [writes_eq_ofWitnesses] at hheld
    exact (verificationConstraints_holdOnInstance_iff_of_build hbuild hword hcells hi).mpr
      (verifies_of_areHeld (hheld.mono hsubset) hcomputes hcells_arranged) c hc

/-- The message one is signed with the numbers one. -/
def unitInstance : EcdsaInstance := ⟨0, (unitKey 0).point.x.val, 1, 1, 1⟩

theorem unitInstance_hasWitness : ∃ w, Ecdsa.Witness.ofInstance unitInstance = .ok w := by
  have hone : 1 ∈ Set.Ico 1 (2 ^ Ecdsa.scalarBits) := by decide
  exact Ecdsa.Witness.exists_ofInstance (unitKey_ne_zero 0) rfl hone hone hone
    (Ecdsa.accepts_of_followsSums (unitKey_ne_zero 0) hone.2 hone.2 hone.2 (by decide +kernel))

theorem verifies_of_writes_unit : ∃ l, ∃ columns : List (Array Felt),
    Layout.build unitConfig 512 none = .ok l ∧ .ecdsa unitCells ∈ l.components ∧
    (∃ w, Ecdsa.Witness.ofInstance unitInstance = .ok w) ∧
    Write.AreHeld none columns (unitCells.writes 100 [some unitInstance]) ∧
    ∀ c ∈ unitCells.verificationConstraints, c.Holds 512 columns l.periodic unitBindings := by
  obtain ⟨l, hl, hcells⟩ := exists_unit_build
  have hinstances (inst : EcdsaInstance) (hinst : some inst ∈ [some unitInstance]) :
      ∃ w, Ecdsa.Witness.ofInstance inst = .ok w := by
    obtain rfl := Option.some.inj (List.mem_singleton.mp hinst)
    exact unitInstance_hasWitness
  obtain ⟨-, ⟨columns, -, -, hheld⟩, hholds⟩ :=
    verifies_of_writes hl (by decide) hcells (by decide) hinstances none 100
  exact ⟨l, columns, hl, hcells, unitInstance_hasWitness, hheld, hholds columns hheld _⟩

end EcdsaCells

end CairoTrace
