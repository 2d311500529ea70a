import CairoTrace.Proofs.Completeness.Signature
import CairoTrace.Proofs.Curve.Order

/-!
# Signatures that verify

An instance has a witness exactly if one of the keys with its first coordinate verifies the
signature and none of the exceptional cases of the sums occurs
(`Ecdsa.Witness.exists_iff_verifiedBy`). A signature that is made with a key is verified by its
multiple of the generator, so that it has a witness unless it is exceptional
(`Ecdsa.Witness.exists_of_sign`).
-/

namespace CairoTrace.Ecdsa

/-! ## The exceptional cases -/

/-- None of the exceptional cases of a signature occurs: its three sums avoid the points of their
steps, and the results that are joined by a line have different first coordinates. -/
structure IsRegular (z r w : Nat) (Q : CurvePoint) : Prop where
  generator_avoids : (-CurvePoint.shift).Avoids .generator z
  key_avoids : CurvePoint.shift.Avoids Q r
  x_ne : (generatorResult z).point.x ≠ (keyResult Q r).point.x
  sumKey_avoids : CurvePoint.shift.Avoids (sumKey z r Q) w
  sumKey_x_ne : (keyResult (sumKey z r Q) w).point.x ≠ CurvePoint.shift.point.x

theorem accepts_iff_isRegular {z r w : Nat} {Q : CurvePoint} : Accepts z r w Q ↔
    IsRegular z r w Q ∧ (w • sumKey z r Q).point.x = (r : Felt) := by
  constructor
  · intro h
    exact ⟨⟨h.generator_avoids, h.key_avoids, h.x_ne, h.sumKey_avoids, h.sumKey_x_ne⟩, h.x_eq⟩
  · rintro ⟨h, hx⟩
    exact ⟨h.generator_avoids, h.key_avoids, h.x_ne, h.sumKey_avoids, h.sumKey_x_ne, hx⟩

/-! ## Verification -/

/-- A key with the first coordinate of an instance verifies its signature, and none of the
exceptional cases occurs. -/
structure VerifiedBy (inst : EcdsaInstance) (Q : CurvePoint) : Prop where
  key_ne_zero : Q ≠ 0
  keyX_eq : Q.point.x.val = inst.keyX
  regular : IsRegular inst.message inst.r inst.w Q
  x_eq : (inst.w • sumKey inst.message inst.r Q).point.x.val = inst.r

section Verification

variable {inst : EcdsaInstance} {Q : CurvePoint}

theorem VerifiedBy.accepts (h : VerifiedBy inst Q) :
    Accepts inst.message inst.r inst.w Q := by
  refine accepts_iff_isRegular.mpr ⟨h.regular, ?_⟩
  rw [← Felt.natCast_val (inst.w • sumKey inst.message inst.r Q).point.x, h.x_eq]

theorem VerifiedBy.exists_ofInstance (h : VerifiedBy inst Q)
    (hz : inst.message ∈ Set.Ico 1 (2 ^ scalarBits)) (hr : inst.r ∈ Set.Ico 1 (2 ^ scalarBits))
    (hw : inst.w ∈ Set.Ico 1 (2 ^ scalarBits)) : ∃ w, Witness.ofInstance inst = .ok w :=
  Witness.exists_ofInstance h.key_ne_zero h.keyX_eq.symm hz hr hw h.accepts

/-- The key of a witness verifies the signature. -/
theorem Witness.exists_verifiedBy {w : Witness} (h : Witness.ofInstance inst = .ok w) :
    ∃ Q, w.key = Q.point ∧ VerifiedBy inst Q := by
  obtain ⟨Q, hcomputes, rfl, hz, hr, hw⟩ := ofInstance_eq_ok h
  obtain ⟨hregular, hx⟩ := accepts_iff_isRegular.mp hcomputes.accepts
  have hkey : w.key = Q.point := congrArg Witness.key hcomputes.eq_ofSignature
  refine ⟨Q, hkey, hcomputes.key_ne_zero, hcomputes.keyX_eq.symm, ?_, ?_⟩
  · rwa [hz, hr, hw]
  · rw [hz, hr, hw, hx, Felt.natCast_val]

/-- An instance whose numbers are in range has a witness exactly if one of the keys with its first
coordinate verifies its signature without an exceptional case, and then the key of the witness
does. -/
theorem Witness.exists_iff_verifiedBy (hz : inst.message ∈ Set.Ico 1 (2 ^ scalarBits))
    (hr : inst.r ∈ Set.Ico 1 (2 ^ scalarBits)) (hw : inst.w ∈ Set.Ico 1 (2 ^ scalarBits)) :
    ((∃ w, Witness.ofInstance inst = .ok w) ↔ ∃ Q, VerifiedBy inst Q) ∧
    ∀ w, Witness.ofInstance inst = .ok w → ∃ Q, w.key = Q.point ∧ VerifiedBy inst Q := by
  refine ⟨⟨?_, ?_⟩, fun w => exists_verifiedBy⟩
  · rintro ⟨w, hwitness⟩
    obtain ⟨Q, -, hQ⟩ := exists_verifiedBy hwitness
    exact ⟨Q, hQ⟩
  · rintro ⟨Q, hQ⟩
    exact hQ.exists_ofInstance hz hr hw

end Verification

theorem dummyKey_verifies : VerifiedBy (dummySignature 0) dummyKey := by
  obtain ⟨hregular, hx⟩ := accepts_iff_isRegular.mp dummyKey_accepts
  have hr := lt_starkPrime_of_lt dummySignature_mem.2.1.2
  exact ⟨dummyKey_ne_zero, rfl, hregular, by rw [hx, Felt.val_natCast_of_lt hr]⟩

theorem Witness.exists_iff_verifiedBy_dummy : ∃ w Q,
    Witness.ofInstance (dummySignature 0) = .ok w ∧ w.key = Q.point ∧
      VerifiedBy (dummySignature 0) Q := by
  obtain ⟨hz, hr, hw⟩ := dummySignature_mem
  have h := exists_iff_verifiedBy hz hr hw
  obtain ⟨w, hwitness⟩ := h.1.mpr ⟨dummyKey, dummyKey_verifies⟩
  obtain ⟨Q, hkey, hQ⟩ := h.2 w hwitness
  exact ⟨w, Q, hwitness, hkey, hQ⟩

/-! ## Signing -/

section Signing

variable {index : Nat} {key nonce : Scalar} {message : Word} {inst : EcdsaInstance}

theorem message_of_sign (hsign : sign index key message nonce = .ok inst) :
    inst.message = message := by
  obtain ⟨-, rfl⟩ := (sign_eq_ok_iff (CurvePoint.mul_point key .generator)
    (CurvePoint.mul_point nonce .generator)).mp hsign
  rfl

/-- The multiple that is compared with `r` is that of the generator by the nonce. -/
theorem nsmul_sumKey_eq {z r w : Nat} (hne : (z + r * key : Scalar) ≠ 0)
    (hw : (w : Scalar) = nonce / (z + r * key)) :
    w • sumKey z r (key.val • CurvePoint.generator) = nonce.val • CurvePoint.generator := by
  have hsum : sumKey z r (key.val • CurvePoint.generator) =
      (z + r * key.val) • CurvePoint.generator := by
    rw [sumKey, add_nsmul, mul_nsmul']
  -- the two multiples differ, but they agree modulo the order of the generator
  rw [hsum, ← mul_nsmul', CurvePoint.nsmul_generator_eq_iff]
  push_cast
  rw [hw, Residue.natCast_val, Residue.natCast_val, div_mul_cancel₀ nonce hne]

/-- A signature that is made with a key is verified by its multiple of the generator. -/
theorem verifiedBy_of_sign (hkey : key ≠ 0) (hsign : sign index key message nonce = .ok inst)
    (hregular : IsRegular message inst.r inst.w (key.val • CurvePoint.generator)) :
    VerifiedBy inst (key.val • CurvePoint.generator) := by
  obtain ⟨hne, rfl⟩ := (sign_eq_ok_iff (CurvePoint.mul_point key .generator)
    (CurvePoint.mul_point nonce .generator)).mp hsign
  refine ⟨CurvePoint.nsmul_generator_ne_zero hkey, rfl, hregular, ?_⟩
  rw [nsmul_sumKey_eq hne (Residue.natCast_val _)]

/-- A signature whose numbers are in range has a witness, unless an exceptional case occurs. -/
theorem Witness.exists_of_sign (hkey : key ≠ 0) (hz : message ∈ Set.Ico 1 (2 ^ scalarBits))
    (hsign : sign index key message nonce = .ok inst) (hr : inst.r ∈ Set.Ico 1 (2 ^ scalarBits))
    (hw : inst.w ∈ Set.Ico 1 (2 ^ scalarBits))
    (hregular : IsRegular message inst.r inst.w (key.val • CurvePoint.generator)) :
    ∃ w, Witness.ofInstance inst = .ok w := by
  rw [← message_of_sign hsign] at hz
  exact (verifiedBy_of_sign hkey hsign hregular).exists_ofInstance hz hr hw

end Signing

theorem Witness.exists_of_sign_dummy : dummyKeyScalar ≠ 0 ∧
    sign 0 dummyKeyScalar (dummySignature 0).message dummyNonceScalar = .ok (dummySignature 0) ∧
    ∃ w, Witness.ofInstance (dummySignature 0) = .ok w := by
  have hkey : dummyKeyScalar ≠ 0 := by decide
  have hmultiple : dummyKeyScalar.val • CurvePoint.generator = dummyKey :=
    CurvePoint.ext ((CurvePoint.mul_point _ _).symm.trans dummyKeyScalar_mul_generator)
  obtain ⟨hz, hr, hw⟩ := dummySignature_mem
  have hregular := dummyKey_verifies.regular
  rw [← hmultiple] at hregular
  exact ⟨hkey, dummyInstance_eq 0, exists_of_sign hkey hz (dummyInstance_eq 0) hr hw hregular⟩

end CairoTrace.Ecdsa
