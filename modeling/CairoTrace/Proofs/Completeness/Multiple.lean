import CairoTrace.Proofs.Completeness.EcOp

/-!
# Multiples without a witness

A multiple of a point that is computed with a running double takes the same steps as a sum over a
list of doublings (`EcOp.multiplySteps_eq_map_sumStepsFrom`). So it agrees with the witness of an
instance in its result and in its faults, as long as the scalar is below the modulus of the field
(`EcOp.multiply_agrees_with_witness`). Up to the next power of two there are scalars that it
accepts although no instance has them (`EcOp.multiply_starkPrime`).
-/

namespace CairoTrace

/-! ## Steps -/

theorem doublingSteps_ne_nil {n : Nat} (hn : n ≠ 0) (p : Point) : doublingSteps n p ≠ [] := by
  rw [← List.length_pos_iff, length_doublingSteps]
  exact Nat.pos_of_ne_zero hn

/-- What a sum leads to after a step that is not the last one. -/
theorem map_sumStepsFrom_cons {m : Word} {i : Nat} {q sum : Point} {rest : List Point}
    (hrest : rest ≠ []) : (sumStepsFrom m i (q :: rest) sum).map Prod.snd =
      if sum.x = q.x then .error (.xCollision i)
      else (sumStepsFrom m (i + 1) rest (if m.testBit i then sum + q else sum)).map Prod.snd := by
  simp only [sumStepsFrom, shiftRight_mod_two, ne_eq, hrest, not_false_eq_true, true_and]
  split
  · rfl
  · cases sumStepsFrom m (i + 1) rest (if m.testBit i then sum + q else sum) <;> rfl

/-- What a sum leads to if the digit of its only step is not set. -/
theorem map_sumStepsFrom_singleton {m : Word} {i : Nat} {q sum : Point} (h : m.testBit i = false) :
    (sumStepsFrom m i [q] sum).map Prod.snd = .ok sum := by
  have hdigit : ¬ (m >>> i) % 2 = 1 := by simp [shiftRight_mod_two, h]
  simp only [sumStepsFrom, if_neg hdigit]
  rfl

namespace EcOp

/-- The last point of the list is not added to the sum. -/
theorem multiplySteps_eq_map_sumStepsFrom {m : Word} {n i : Nat} (q sum : Point)
    (hlast : m.testBit (i + n) = false) : multiplySteps m n i q sum =
      (sumStepsFrom m i ((doublingSteps (n + 1) q).map (·.point)) sum).map Prod.snd := by
  -- on the steps that are left before the last one, in which nothing can collide
  induction n generalizing i q sum with
  | zero => exact (map_sumStepsFrom_singleton hlast).symm
  | succ n ih =>
    have hrest : (doublingSteps (n + 1) q.double).map (·.point) ≠ [] :=
      mt List.map_eq_nil_iff.mp (doublingSteps_ne_nil n.succ_ne_zero _)
    rw [doublingSteps, List.map_cons, map_sumStepsFrom_cons hrest, multiplySteps,
      ← ih q.double _ (by rwa [Nat.add_right_comm, Nat.add_assoc])]

theorem multiply_of_lt {m : Word} (hm : m < 2 ^ scalarBits) (q p : Point) : multiply m q p =
    (sumSteps m ((doublingSteps steps q).map (·.point)) p).map Prod.snd := by
  have hlast : m.testBit (0 + (steps - 1)) = false :=
    Nat.testBit_lt_two_pow (hm.trans_le (Nat.pow_le_pow_right two_pos (by decide)))
  rw [multiply, if_neg (not_not.mpr hm ∘ Felt.lt_bitLength_iff.mp),
    multiplySteps_eq_map_sumStepsFrom q p hlast]
  rfl

/-- A multiple is computed unless its scalar has too many digits or its sum reaches the first
coordinate of a point that may be added next. -/
theorem multiply_eq_ok_iff {P Q : CurvePoint} {m : Word} {s : Point} :
    multiply m Q.point P.point = .ok s ↔
      m < 2 ^ scalarBits ∧ P.Avoids Q m ∧ s = (P + m • Q).point := by
  by_cases hbits : m < 2 ^ scalarBits
  · have hsteps : m < 2 ^ steps := hbits.trans_le (Nat.pow_le_pow_right two_pos (by decide))
    rw [multiply_of_lt hbits, Result.map_eq_ok_iff, and_iff_right hbits]
    constructor
    · rintro ⟨⟨sums, last⟩, hsum, rfl⟩
      obtain ⟨havoids, -, hlast⟩ := (CurvePoint.sumSteps_doublings_eq_ok_iff hsteps).mp hsum
      exact ⟨havoids, hlast⟩
    · rintro ⟨havoids, rfl⟩
      exact ⟨_, (CurvePoint.sumSteps_doublings_eq_ok_iff hsteps).mpr ⟨havoids, rfl, rfl⟩, rfl⟩
  · rw [multiply, if_pos (Felt.lt_bitLength_iff.mpr hbits)]
    exact iff_of_false nofun fun h => hbits h.1

/-! ## Instances -/

/-- The instance of a multiple of `Q` that is added to `P`. -/
def instanceOf (index : Nat) (P Q : CurvePoint) (m : Word) : EcOpInstance :=
  ⟨index, P.point.x.val, P.point.y.val, Q.point.x.val, Q.point.y.val, m⟩

section Instance

variable {P Q : CurvePoint} (hP : P ≠ 0) (hQ : Q ≠ 0)
include hP hQ

/-- Only the scalar of an instance of two points may be refused before the sum. -/
theorem Witness.ofInstance_instanceOf (index : Nat) (m : Word) :
    (Witness.ofInstance (instanceOf index P Q m)).map (·.r) = (do
      let a ← feltOfWord m
      (sumSteps a.val ((doublingSteps steps Q.point).map (·.point)) P.point).map Prod.snd) := by
  simp only [Witness.ofInstance, instanceOf, Point.ofWords_point hP,
    Point.ofWords_point hQ, Result.ok_bind]
  cases feltOfWord m with
  | error e => rfl
  | ok a =>
    simp only [Result.ok_bind]
    cases sumSteps a.val ((doublingSteps steps Q.point).map (·.point)) P.point <;> rfl

/-- With a scalar below the modulus, the result of the witness is the multiple. -/
theorem Witness.map_ofInstance (index : Nat) {m : Word} (hm : m < starkPrime) :
    (Witness.ofInstance (instanceOf index P Q m)).map (·.r) = multiply m Q.point P.point := by
  have hval : (m : Felt).val = m := Felt.val_natCast_of_lt hm
  rw [ofInstance_instanceOf hP hQ, feltOfWord_eq_ok_iff.mpr hval.symm, Result.ok_bind, hval,
    multiply_of_lt (hm.trans (by decide))]

theorem Witness.ofInstance_eq_error (index : Nat) {m : Word} (hm : starkPrime ≤ m) :
    Witness.ofInstance (instanceOf index P Q m) =
      .error (.input (.invalidFieldElement m starkPrime)) := by
  have hnone : Residue.ofCanonical? (m := starkPrime) m = none := dif_neg (not_lt.mpr hm)
  have hfelt : feltOfWord m = .error (.input (.invalidFieldElement m starkPrime)) := by
    simp only [feltOfWord, residueOf, hnone]
    rfl
  have hmap := ofInstance_instanceOf hP hQ index m
  rw [hfelt] at hmap
  exact Result.map_eq_error_iff.mp hmap

/-- A multiple is computed exactly if an instance with its points and its scalar has a witness, and
then is the result of the witness; otherwise both fail with one error. This is so of the scalars
below the modulus. Of those above it no instance has a witness, but a multiple is computed by those
of no more digits unless its sum reaches the first coordinate of a point that may be added next. -/
theorem multiply_agrees_with_witness (index : Nat) (m : Word) :
    (m < starkPrime →
      (∀ s, multiply m Q.point P.point = .ok s ↔
        ∃ w, Witness.ofInstance (instanceOf index P Q m) = .ok w ∧ w.r = s) ∧
      ∀ e, multiply m Q.point P.point = .error e ↔
        Witness.ofInstance (instanceOf index P Q m) = .error e) ∧
    (starkPrime ≤ m →
      Witness.ofInstance (instanceOf index P Q m) =
        .error (.input (.invalidFieldElement m starkPrime)) ∧
      ∀ s, multiply m Q.point P.point = .ok s ↔
        m < 2 ^ scalarBits ∧ P.Avoids Q m ∧ s = (P + m • Q).point) := by
  constructor
  · intro hm
    rw [← Witness.map_ofInstance hP hQ index hm]
    exact ⟨fun s => Result.map_eq_ok_iff, fun e => Result.map_eq_error_iff⟩
  · intro hm
    exact ⟨Witness.ofInstance_eq_error hP hQ index hm, fun s => multiply_eq_ok_iff⟩

end Instance

/-! ## The scalars next to the modulus -/

theorem shift_avoids_generator {m : Nat} (hm : m < 2 ^ scalarBits)
    (h : (HomogeneousPoint.sum? m (.ofPoint CurvePoint.generator.point)
      (.ofPoint CurvePoint.shift.point)).isSome = true) :
    CurvePoint.shift.Avoids .generator m :=
  CurvePoint.avoids_of_isSome_sum? CurvePoint.shift_ne_zero CurvePoint.generator_ne_zero
    (hm.trans_le (Nat.pow_le_pow_right two_pos (by decide))) h

/-- The greatest scalar that an instance can have. -/
theorem multiply_agrees_with_witness_greatest : ∃ w,
    Witness.ofInstance (instanceOf 0 .shift .generator (starkPrime - 1)) = .ok w ∧
    multiply (starkPrime - 1) CurvePoint.generator.point CurvePoint.shift.point = .ok w.r := by
  have havoids : CurvePoint.shift.Avoids .generator (starkPrime - 1) :=
    shift_avoids_generator (by decide) (by decide +kernel)
  obtain ⟨hok, -⟩ := (multiply_agrees_with_witness CurvePoint.shift_ne_zero
    CurvePoint.generator_ne_zero 0 (starkPrime - 1)).1 (by decide)
  have hmultiply := multiply_eq_ok_iff.mpr ⟨by decide, havoids, rfl⟩
  obtain ⟨w, hw, hr⟩ := (hok _).mp hmultiply
  exact ⟨w, hw, hmultiply.trans (congrArg Except.ok hr.symm)⟩

/-- The modulus itself has no more digits than a scalar may have, but no instance has it. -/
theorem multiply_starkPrime :
    (∃ s, multiply starkPrime CurvePoint.generator.point CurvePoint.shift.point = .ok s) ∧
    ¬ ∃ w, Witness.ofInstance (instanceOf 0 .shift .generator starkPrime) = .ok w := by
  have havoids : CurvePoint.shift.Avoids .generator starkPrime :=
    shift_avoids_generator (by decide) (by decide +kernel)
  refine ⟨⟨_, multiply_eq_ok_iff.mpr ⟨by decide, havoids, rfl⟩⟩, ?_⟩
  rw [Witness.ofInstance_eq_error CurvePoint.shift_ne_zero CurvePoint.generator_ne_zero 0 le_rfl]
  exact nofun

end EcOp

end CairoTrace
