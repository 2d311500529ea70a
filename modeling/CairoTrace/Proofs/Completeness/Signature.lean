import CairoTrace.Proofs.Completeness.EcOp
import CairoTrace.Proofs.Curve.Homogeneous
import CairoTrace.Proofs.Curve.Lift

/-!
# The sums of a signature

An instance has a witness exactly if its three sums avoid the points of their steps and the last one
leads to the number `r` (`Ecdsa.Accepts`), for one of the two keys with the first coordinate that is
given (`Ecdsa.Witness.exists_computes`, `Ecdsa.Witness.exists_ofInstance`). The witness then holds
the multiples of the points as the group law has them (`Ecdsa.Witness.ofSignature`). The signature
that fills unused places has one, too (`Ecdsa.Witness.exists_dummy`).
-/

namespace CairoTrace.Ecdsa

/-- The result of the sum of multiples of the generator. -/
def generatorResult (z : Nat) : CurvePoint := -CurvePoint.shift + z • CurvePoint.generator

/-- The result of a sum of multiples of a key. -/
def keyResult (Q : CurvePoint) (m : Nat) : CurvePoint := CurvePoint.shift + m • Q

/-- The key of the last sum of a signature. -/
def sumKey (z r : Nat) (Q : CurvePoint) : CurvePoint := z • CurvePoint.generator + r • Q

/-- The sums of a signature avoid the points of their steps, and the last one leads to `r`. -/
@[mk_iff]
structure Accepts (z r w : Nat) (Q : CurvePoint) : Prop where
  generator_avoids : CurvePoint.Avoids (-CurvePoint.shift) .generator z
  key_avoids : CurvePoint.shift.Avoids Q r
  x_ne : (generatorResult z).point.x ≠ (keyResult Q r).point.x
  sumKey_avoids : CurvePoint.shift.Avoids (sumKey z r Q) w
  sumKey_x_ne : (keyResult (sumKey z r Q) w).point.x ≠ CurvePoint.shift.point.x
  x_eq : (w • sumKey z r Q).point.x = (r : Felt)

/-- The shift point cancels out of the sum of the first two results. -/
theorem add_results_eq (z r : Nat) (Q : CurvePoint) :
    generatorResult z + keyResult Q r = sumKey z r Q := by
  rw [generatorResult, keyResult, sumKey]
  abel

/-- It is added to the result of the last sum. -/
theorem keyResult_add_neg_shift (Q : CurvePoint) (m : Nat) :
    keyResult Q m + -CurvePoint.shift = m • Q :=
  add_neg_cancel_comm _ _

theorem Accepts.sumKey_ne_zero {z r w : Nat} {Q : CurvePoint} (h : Accepts z r w Q) :
    sumKey z r Q ≠ 0 := by
  rw [← add_results_eq]
  intro hzero
  apply h.x_ne
  rw [eq_neg_of_add_eq_zero_left hzero, CurvePoint.neg_point, Point.x_neg]

/-! ## Witnesses -/

section Witness

open CurvePoint (generator sumStep)

/-- The steps of a sum from the shift point. -/
def keySteps (Q : CurvePoint) (m : Nat) : List SumStep :=
  (List.range EcOp.steps).map (sumStep CurvePoint.shift Q m EcOp.steps)

/-- The doublings of a key, the last of which holds the inverse of a scalar. -/
def keyDoubling (Q : CurvePoint) (m : Felt) : List DoublingStep :=
  withLastSlope m⁻¹ (doublingSteps EcOp.steps Q.point)

/-- The witness of a signature that is accepted. -/
def Witness.ofSignature (inst : EcdsaInstance) (Q : CurvePoint) (z r w : Felt) : Witness :=
  let B := sumKey z.val r.val Q
  let zG := (generatorResult z.val).point
  let rQ := (keyResult Q r.val).point
  let wB := (keyResult B w.val).point
  { inst, key := Q.point, message := z, r, w
    generatorSum :=
      (List.range EcOp.steps).map (sumStep (-CurvePoint.shift) generator z.val EcOp.steps)
    keySum := keySteps Q r.val ++ keySteps B w.val
    doubling := keyDoubling Q r ++ keyDoubling B w
    b := B.point
    bSlope := (zG.y - rQ.y) * (zG.x - rQ.x)⁻¹
    bXDiffInv := (zG.x - rQ.x)⁻¹
    rPointSlope := (wB.y + CurvePoint.shift.point.y) * (wB.x - CurvePoint.shift.point.x)⁻¹
    rPointXDiffInv := (wB.x - CurvePoint.shift.point.x)⁻¹ }

variable {inst : EcdsaInstance} {Q : CurvePoint} {z r v : Felt} {w : Witness}

/-- The witness of an instance with one of its keys. -/
theorem Witness.ofKey_eq_ok_iff (hz : inst.message = z.val) (hr : inst.r = r.val)
    (hw : inst.w = v.val) : Witness.ofKey inst Q.point z r v = .ok w ↔
      Accepts z.val r.val v.val Q ∧ w = ofSignature inst Q z r v := by
  have hlt (m : Felt) : m.val < 2 ^ EcOp.steps := m.isLt.trans (by decide)
  have hgenerator {steps : List SumStep} {last : Point} :
      sumSteps z.val generatorPoints (-Ecdsa.shift) = .ok (steps, last) ↔
        (-CurvePoint.shift).Avoids generator z.val ∧
        steps =
          (List.range EcOp.steps).map (sumStep (-CurvePoint.shift) generator z.val EcOp.steps) ∧
        last = (generatorResult z.val).point :=
    CurvePoint.sumSteps_doublings_eq_ok_iff (P := -CurvePoint.shift) (Q := generator) (hlt z)
  have hkey {Q : CurvePoint} {m : Felt} {steps : List SumStep} {last : Point} :
      sumSteps m.val ((doublingSteps EcOp.steps Q.point).map (·.point)) Ecdsa.shift =
        .ok (steps, last) ↔ CurvePoint.shift.Avoids Q m.val ∧ steps = keySteps Q m.val ∧
        last = (keyResult Q m.val).point :=
    CurvePoint.sumSteps_doublings_eq_ok_iff (P := CurvePoint.shift) (hlt m)
  have hb : (generatorResult z.val).point + (keyResult Q r.val).point =
      (sumKey z.val r.val Q).point :=
    congrArg CurvePoint.point (add_results_eq z.val r.val Q)
  have hresult : (keyResult (sumKey z.val r.val Q) v.val).point + -Ecdsa.shift =
      (v.val • sumKey z.val r.val Q).point :=
    congrArg CurvePoint.point (keyResult_add_neg_shift _ v.val)
  rw [accepts_iff]
  simp only [Witness.ofKey, hz, hr, hw, Result.throw_bind, Result.ite_error_eq_ok_iff,
    Result.bind_eq_ok_iff, Prod.exists, hgenerator, hkey]
  constructor
  · rintro ⟨_, _, ⟨hzG, rfl, rfl⟩, _, _, ⟨hrQ, rfl, rfl⟩, hx, _, _, hsum, hwx, hrx, heq⟩
    rw [hb] at hsum heq
    obtain ⟨hwB, rfl, rfl⟩ := hkey.mp hsum
    rw [hresult, not_not] at hrx
    exact ⟨⟨hzG, hrQ, hx, hwB, hwx, hrx.trans (Felt.natCast_val r).symm⟩, (Except.ok.inj heq).symm⟩
  · rintro ⟨⟨hzG, hrQ, hx, hwB, hwx, hrx⟩, rfl⟩
    refine ⟨_, _, ⟨hzG, rfl, rfl⟩, _, _, ⟨hrQ, rfl, rfl⟩, hx, keySteps (sumKey z.val r.val Q) v.val,
      (keyResult (sumKey z.val r.val Q) v.val).point, ?_, hwx, ?_, ?_⟩
    · rw [hb]
      exact hkey.mpr ⟨hwB, rfl, rfl⟩
    · rw [hresult, not_not, hrx, Felt.natCast_val]
    · rw [hb]
      rfl

theorem lt_two_pow_of_mem {word : Word} (h : word ∈ Set.Ico 1 (2 ^ scalarBits)) :
    word < 2 ^ (EcOp.steps - 1) :=
  h.2.trans_le (Nat.pow_le_pow_right two_pos (by decide))

theorem lt_starkPrime_of_lt {word : Word} (h : word < 2 ^ scalarBits) : word < starkPrime := by
  have hprime : 2 ^ scalarBits < starkPrime := by decide
  exact h.trans hprime

theorem checkScalar_eq_ok_iff {word : Word} {a : Felt} :
    checkScalar word = .ok a ↔ word ∈ Set.Ico 1 (2 ^ scalarBits) ∧ word = a.val := by
  rw [checkScalar, Result.ite_error_eq_ok_iff, not_or, Felt.lt_bitLength_iff, not_not, Set.mem_Ico,
    Nat.one_le_iff_ne_zero, Except.ok.injEq]
  refine and_congr_right fun hword => ⟨?_, ?_⟩
  · rintro rfl
    exact (Felt.val_natCast_of_lt (lt_starkPrime_of_lt hword.2)).symm
  · rintro rfl
    exact Felt.natCast_val a

/-- A witness of an instance is that of a signature that is accepted. -/
structure Witness.Computes (w : Witness) (Q : CurvePoint) : Prop where
  key_ne_zero : Q ≠ 0
  keyX_eq : w.inst.keyX = Q.point.x.val
  message_mem : w.message.val ∈ Set.Ico 1 (2 ^ scalarBits)
  r_mem : w.r.val ∈ Set.Ico 1 (2 ^ scalarBits)
  w_mem : w.w.val ∈ Set.Ico 1 (2 ^ scalarBits)
  accepts : Accepts w.message.val w.r.val w.w.val Q
  eq_ofSignature : w = ofSignature w.inst Q w.message w.r w.w

theorem Witness.ofInstance_eq_ok (h : Witness.ofInstance inst = .ok w) :
    ∃ Q, w.Computes Q ∧ w.inst = inst ∧ inst.message = w.message.val ∧ inst.r = w.r.val ∧
      inst.w = w.w.val := by
  simp only [Witness.ofInstance, Result.bind_eq_ok_iff, checkScalar_eq_ok_iff,
    feltOfWord_eq_ok_iff] at h
  obtain ⟨z, ⟨hzmem, hz⟩, r, ⟨hrmem, hr⟩, v, ⟨hvmem, hv⟩, keyX, hkeyX, h⟩ := h
  rw [hz] at hzmem
  rw [hr] at hrmem
  rw [hv] at hvmem
  -- whichever of the two keys is used
  have hkey {Q : CurvePoint} (hQ : Q ≠ 0) (hx : keyX = Q.point.x)
      (hw : Witness.ofKey inst Q.point z r v = .ok w) : ∃ Q, w.Computes Q ∧ w.inst = inst ∧
        inst.message = w.message.val ∧ inst.r = w.r.val ∧ inst.w = w.w.val := by
    obtain ⟨haccepts, rfl⟩ := (ofKey_eq_ok_iff hz hr hv).mp hw
    exact ⟨Q, ⟨hQ, hx ▸ hkeyX, hzmem, hrmem, hvmem, haccepts, rfl⟩, rfl, hz, hr, hv⟩
  split at h
  · cases h
  · next low high hlift =>
    obtain ⟨Q, hQ, hx, rfl, rfl⟩ := Point.exists_of_liftX? hlift
    split at h
    · next hlow =>
      obtain rfl := Except.ok.inj h
      exact hkey hQ hx hlow
    · split at h
      · next hhigh =>
        obtain rfl := Except.ok.inj h
        exact hkey (neg_ne_zero.mpr hQ) (hx.trans (Point.x_neg _).symm) hhigh
      · cases h

/-- An instance has a witness if one of the keys with its first coordinate is accepted. -/
theorem Witness.exists_ofInstance (hQ : Q ≠ 0) (hkeyX : inst.keyX = Q.point.x.val)
    (hz : inst.message ∈ Set.Ico 1 (2 ^ scalarBits)) (hr : inst.r ∈ Set.Ico 1 (2 ^ scalarBits))
    (hv : inst.w ∈ Set.Ico 1 (2 ^ scalarBits)) (h : Accepts inst.message inst.r inst.w Q) :
    ∃ w, Witness.ofInstance inst = .ok w := by
  have hval {word : Word} (hword : word ∈ Set.Ico 1 (2 ^ scalarBits)) :
      word = (word : Felt).val :=
    (Felt.val_natCast_of_lt (lt_starkPrime_of_lt hword.2)).symm
  have hcheck {word : Word} (hword : word ∈ Set.Ico 1 (2 ^ scalarBits)) :
      checkScalar word = .ok (word : Felt) :=
    checkScalar_eq_ok_iff.mpr ⟨hword, hval hword⟩
  rw [hval hz, hval hr, hval hv] at h
  have hkey := (ofKey_eq_ok_iff (hval hz) (hval hr) (hval hv)).mpr ⟨h, rfl⟩
  obtain ⟨low, high, hlift, hpoint⟩ := Point.exists_liftX? hQ
  rw [Witness.ofInstance, hcheck hz, Result.ok_bind, hcheck hr, Result.ok_bind, hcheck hv,
    Result.ok_bind, feltOfWord_eq_ok_iff.mpr hkeyX, Result.ok_bind]
  split
  · next hnone => cases hlift.symm.trans hnone
  · next hsome =>
    obtain ⟨rfl, rfl⟩ := Prod.mk.inj (Option.some.inj (hlift.symm.trans hsome))
    split
    · exact ⟨_, rfl⟩
    · next hlow =>
      split
      · exact ⟨_, rfl⟩
      · next hhigh =>
        rcases hpoint with rfl | rfl
        · cases hkey.symm.trans hlow
        · cases hkey.symm.trans hhigh

end Witness

/-! ## The signature in unused places -/

section Dummy

open HomogeneousPoint (ofPoint sum? represents_ofPoint)

/-- Follows the three sums of a signature without divisions. -/
def followsSums (z r w : Nat) (q : Point) : Bool :=
  (sum? z (ofPoint .generator) (ofPoint (-shift))).any fun zG =>
    (sum? r (ofPoint q) (ofPoint shift)).any fun rQ =>
      !zG.sameX rQ && (sum? w (zG.add rQ) (ofPoint shift)).any fun wB =>
        let result := wB.add (ofPoint (-shift))
        !wB.sameX (ofPoint shift) && result.x == .ofNat r * result.z

theorem accepts_of_followsSums {z r w : Nat} {Q : CurvePoint} (hQ : Q ≠ 0)
    (hz : z < 2 ^ scalarBits) (hr : r < 2 ^ scalarBits) (hw : w < 2 ^ scalarBits)
    (h : followsSums z r w Q.point = true) : Accepts z r w Q := by
  have hlt {m : Nat} (hm : m < 2 ^ scalarBits) : m < 2 ^ (EcOp.steps - 1) :=
    hm.trans_le (Nat.pow_le_pow_right two_pos (by decide))
  have hstart : (ofPoint shift).Represents CurvePoint.shift :=
    represents_ofPoint CurvePoint.shift_ne_zero
  have hneg : (ofPoint (-shift)).Represents (-CurvePoint.shift) :=
    represents_ofPoint (neg_ne_zero.mpr CurvePoint.shift_ne_zero)
  have hgenerator := represents_ofPoint CurvePoint.generator_ne_zero
  simp only [followsSums, Option.any_eq_true, Bool.and_eq_true, Bool.not_eq_true',
    ← Bool.not_eq_true, beq_iff_eq] at h
  obtain ⟨zG, hzG, rQ, hrQ, hx, wB, hwB, hwx, hresult⟩ := h
  obtain ⟨hzAvoids, hzG⟩ : _ ∧ zG.Represents (generatorResult z) :=
    hgenerator.of_sum? hneg (hlt hz) hzG
  obtain ⟨hrAvoids, hrQ⟩ : _ ∧ rQ.Represents (keyResult Q r) :=
    (represents_ofPoint hQ).of_sum? hstart (hlt hr) hrQ
  have hx := mt (hzG.sameX_iff hrQ).mpr hx
  have hB := hzG.add hrQ hx
  rw [add_results_eq] at hB
  obtain ⟨hwAvoids, hwB⟩ : _ ∧ wB.Represents (keyResult (sumKey z r Q) w) :=
    hB.of_sum? hstart (hlt hw) hwB
  have hwx := mt (hwB.sameX_iff hstart).mpr hwx
  have hsum := hwB.add hneg fun hneg => hwx (hneg.trans (Point.x_neg _))
  rw [keyResult_add_neg_shift] at hsum
  exact ⟨hzAvoids, hrAvoids, hx, hwAvoids, hwx,
    mul_right_cancel₀ hsum.z_ne_zero (hsum.x_eq.symm.trans hresult)⟩

/-- The scalar that the signature in unused places is made with. -/
def dummyKeyScalar : Scalar :=
  .ofNat 0x169726f2d60964620656364736123e8fe1c81a4aa56ebd7d379ec8a8524a1a5

def dummyNonceScalar : Scalar := .ofNat 0x636169726f2d6169722065636473612064756d6d79206e6f6e6365

/-- The key of the signature that fills unused places. -/
def dummyKey : CurvePoint where
  point := .affine
    (.ofNat 0x6bca8cc2f34ff71167a4f14dae9eb18a894a6499e03e975cc23ae2c4d36d5ae)
    (.ofNat 0x78eb0f7eac576d389c755f7df91be933fb0427a7ab6552d1478070c3c02b460)
  onCurve := by decide

/-- The multiple of the generator by the nonce. -/
def dummyNonce : CurvePoint where
  point := .affine
    (.ofNat 0x41bb781969c9096ef528bb6ecd5ac185f724b6532c9b733681cdfe49284b78)
    (.ofNat 0x2f595a804aa5c450cdcad3a4b0a29770d12f2347d8a2e8e17023b0cdc5137e)
  onCurve := by decide

def dummySignature (index : Nat) : EcdsaInstance where
  index := index
  keyX := dummyKey.point.x.val
  message := 0x636169726f2d6169722065636473612064756d6d79206d657373616765
  r := dummyNonce.point.x.val
  w := 0x45074673b46366515f6213bbd36710dcd2e128881656494c6a26057a8f26d53

/-- The signature by a key and a nonce whose multiples of the generator are known. -/
theorem sign_eq_ok_iff {index : Nat} {key nonce : Scalar} {message : Word} {inst : EcdsaInstance}
    {Q R : CurvePoint} (hQ : key * Point.generator = Q.point)
    (hR : nonce * Point.generator = R.point) : sign index key message nonce = .ok inst ↔
      (message + R.point.x.val * key : Scalar) ≠ 0 ∧
      inst = ⟨index, Q.point.x.val, message, R.point.x.val,
        (nonce / (message + R.point.x.val * key)).val⟩ := by
  rw [sign, hQ, hR]
  dsimp only
  split
  · next hzero =>
    exact iff_of_false (fun h => by cases h) fun h => h.1 ((Residue.isZero_iff _).mp hzero)
  · next hzero =>
    constructor
    · intro h
      exact ⟨mt (Residue.isZero_iff _).mpr hzero, (Except.ok.inj h).symm⟩
    · rintro ⟨-, rfl⟩
      rfl

theorem dummyKey_ne_zero : dummyKey ≠ 0 := CurvePoint.ne_zero_of_point_eq rfl

theorem dummyKeyScalar_mul_generator : dummyKeyScalar * Point.generator = dummyKey.point :=
  CurvePoint.mul_generator_eq dummyKey_ne_zero (by decide +kernel) (by decide +kernel)

theorem dummyNonceScalar_mul_generator : dummyNonceScalar * Point.generator = dummyNonce.point :=
  CurvePoint.mul_generator_eq (CurvePoint.ne_zero_of_point_eq rfl) (by decide)
    (by decide +kernel)

theorem dummyInstance_eq (index : Nat) : dummyInstance index = .ok (dummySignature index) :=
  (sign_eq_ok_iff dummyKeyScalar_mul_generator dummyNonceScalar_mul_generator).mpr
    ⟨by decide +kernel, congrArg (EcdsaInstance.mk index _ _ _) (by decide +kernel)⟩

theorem dummySignature_mem : (dummySignature 0).message ∈ Set.Ico 1 (2 ^ scalarBits) ∧
    (dummySignature 0).r ∈ Set.Ico 1 (2 ^ scalarBits) ∧
    (dummySignature 0).w ∈ Set.Ico 1 (2 ^ scalarBits) := by
  decide

theorem dummyKey_accepts :
    Accepts (dummySignature 0).message (dummySignature 0).r (dummySignature 0).w dummyKey := by
  obtain ⟨hz, hr, hw⟩ := dummySignature_mem
  exact accepts_of_followsSums dummyKey_ne_zero hz.2 hr.2 hw.2 (by decide +kernel)

theorem Witness.exists_dummy (index : Nat) : ∃ w, Witness.dummy index = .ok w := by
  obtain ⟨hz, hr, hw⟩ := dummySignature_mem
  rw [Witness.dummy, dummyInstance_eq, Result.ok_bind]
  exact Witness.exists_ofInstance dummyKey_ne_zero rfl hz hr hw dummyKey_accepts

end Dummy

end CairoTrace.Ecdsa
