import CairoTrace.Proofs.Curve.Homogeneous
import CairoTrace.Proofs.Curve.SumSteps
import CairoTrace.Proofs.Soundness.EcOp
import CairoTrace.Proofs.Trace.ScriptPlaces

/-!
# Completeness of multiples of a point

The witness of an instance holds the multiples of its second point by powers of two, and the sums of
its first point and the multiples by the first digits of the multiplier
(`EcOp.Witness.exists_computes`). The cells that are written with it follow the group law
(`EcOpCells.multiplies_of_areHeld`), so that the constraints on points hold.
-/

namespace CairoTrace

/-- A sum over the doublings of a point. -/
theorem CurvePoint.sumSteps_doublings_eq_ok_iff {P Q : CurvePoint} {m : Nat}
    (hm : m < 2 ^ EcOp.steps) {steps : List SumStep} {last : Point} :
    sumSteps m ((doublingSteps EcOp.steps Q.point).map (·.point)) P.point = .ok (steps, last) ↔
      P.Avoids Q m ∧ steps = (List.range EcOp.steps).map (sumStep P Q m EcOp.steps) ∧
      last = (P + m • Q).point := by
  rw [map_point_doublingSteps, sumSteps_eq_ok_iff, sumBefore_of_lt P Q hm]
  rfl

/-- A sum that is found without divisions avoids the points of its steps. -/
theorem CurvePoint.avoids_of_isSome_sum? {P Q : CurvePoint} {m : Nat} (hP : P ≠ 0) (hQ : Q ≠ 0)
    (hm : m < 2 ^ (EcOp.steps - 1))
    (h : (HomogeneousPoint.sum? m (.ofPoint Q.point) (.ofPoint P.point)).isSome = true) :
    P.Avoids Q m := by
  obtain ⟨sum, hsum⟩ := Option.isSome_iff_exists.mp h
  exact ((HomogeneousPoint.represents_ofPoint hQ).of_sum?
    (HomogeneousPoint.represents_ofPoint hP) hm hsum).1

namespace EcOp

/-- A witness holds the doublings of a point and their sums with another one, as the group law has
them. -/
structure Witness.Computes (w : Witness) (P Q : CurvePoint) : Prop where
  p_ne_zero : P ≠ 0
  q_ne_zero : Q ≠ 0
  avoids : CurvePoint.Avoids P Q w.m.val
  p_eq : w.p = P.point
  q_eq : w.q = Q.point
  m_eq : w.inst.m = w.m.val
  doubling_eq : w.doubling = (List.range SubsetSum.steps).map fun k =>
    ⟨(2 ^ k • Q).point, (2 ^ k • Q).point.tangent⟩
  sum_eq : w.sum =
    (List.range SubsetSum.steps).map (CurvePoint.sumStep P Q w.m.val SubsetSum.steps)
  r_eq : w.r = (P + w.m.val • Q).point

variable {inst : EcOpInstance} {w : Witness} {P Q : CurvePoint}

theorem Witness.Computes.getElem?_doubling (h : w.Computes P Q) {k : Nat}
    (hk : k < SubsetSum.steps) :
    w.doubling[k]? = some ⟨(2 ^ k • Q).point, (2 ^ k • Q).point.tangent⟩ := by
  rw [h.doubling_eq, List.getElem?_map, List.getElem?_range hk, Option.map_some]

theorem Witness.Computes.getElem?_sum (h : w.Computes P Q) {k : Nat} (hk : k < SubsetSum.steps) :
    w.sum[k]? = some (CurvePoint.sumStep P Q w.m.val SubsetSum.steps k) := by
  rw [h.sum_eq, List.getElem?_map, List.getElem?_range hk, Option.map_some]

theorem Witness.exists_computes (h : Witness.ofInstance inst = .ok w) :
    ∃ P Q, w.Computes P Q := by
  obtain ⟨hp, hq, hm, rfl, hdoubling, hsum⟩ := ofInstance_eq_ok h
  obtain ⟨P, hP, hp, -⟩ := Point.ofWords_eq_ok_iff.mp hp
  obtain ⟨Q, hQ, hq, -⟩ := Point.ofWords_eq_ok_iff.mp hq
  have hlt : w.m.val < 2 ^ steps := w.m.isLt.trans (by decide)
  rw [hdoubling, ← hq, ← hp, CurvePoint.sumSteps_doublings_eq_ok_iff hlt] at hsum
  obtain ⟨havoids, hsum, hr⟩ := hsum
  rw [← hq, doublingSteps_eq_map] at hdoubling
  exact ⟨P, Q, hP, hQ, havoids, hp.symm, hq.symm, feltOfWord_eq_ok_iff.mp hm, hdoubling, hsum, hr⟩

/-- An instance whose sum avoids the points of its steps has a witness. -/
theorem Witness.exists_ofInstance (hP : P ≠ 0) (hQ : Q ≠ 0) {m : Felt}
    (havoids : CurvePoint.Avoids P Q m.val) (index : Nat) : ∃ w, Witness.ofInstance
      ⟨index, P.point.x.val, P.point.y.val, Q.point.x.val, Q.point.y.val, m.val⟩ = .ok w := by
  have hm : feltOfWord m.val = .ok m := feltOfWord_eq_ok_iff.mpr rfl
  have hlt : m.val < 2 ^ steps := m.isLt.trans (by decide)
  have hsum := (CurvePoint.sumSteps_doublings_eq_ok_iff hlt).mpr ⟨havoids, rfl, rfl⟩
  simp only [Witness.ofInstance, Point.ofWords_point hP, Point.ofWords_point hQ, hm, hsum,
    Result.ok_bind]
  exact ⟨_, rfl⟩

/-- The point that the instance in an unused place starts at. -/
def dummyStart : CurvePoint where
  point := .affine
    (.ofNat 0x6a582b3e63ba147aa4c886bd7d54b1134caf165f53e9caba180ff7bce31fa0c)
    (.ofNat 0x1c52869085997fecc79f38f6b4b8a4a51ab598be48788e901dd5643a537cb88)
  onCurve := by decide

theorem dummyStart_point : dummyStart.point = dummyScalar * Point.generator :=
  (CurvePoint.mul_generator_eq (CurvePoint.ne_zero_of_point_eq rfl) (by decide)
    (by decide +kernel)).symm

theorem dummyStart_avoids_generator : CurvePoint.Avoids dummyStart .generator 1 :=
  CurvePoint.avoids_one CurvePoint.generator_ne_zero (by decide +kernel)

theorem Witness.exists_dummy (index : Nat) : ∃ w, Witness.dummy index = .ok w := by
  rw [dummy, dummyInstance, ← dummyStart_point]
  exact Witness.exists_ofInstance (m := 1) (CurvePoint.ne_zero_of_point_eq rfl)
    CurvePoint.generator_ne_zero dummyStart_avoids_generator index

theorem Witness.exists_ofPlace {instances : List (Option EcOpInstance)}
    (h : ∀ inst, some inst ∈ instances → ∃ w, ofInstance inst = .ok w) :
    ∀ q ∈ instances.zipIdx, ∃ w, ofPlace q = .ok w :=
  exists_witnessOfPlace h (exists_dummy 0)

theorem Witness.Computes.withIndex (h : w.Computes P Q) (i : Nat) : (w.withIndex i).Computes P Q :=
  ⟨h.p_ne_zero, h.q_ne_zero, h.avoids, h.p_eq, h.q_eq, h.m_eq, h.doubling_eq, h.sum_eq, h.r_eq⟩

theorem Witness.exists_computes_of_ofPlace {q : Option EcOpInstance × Nat}
    (h : ofPlace q = .ok w) : ∃ P Q, w.Computes P Q := by
  obtain ⟨inst, v, i, hv, rfl⟩ := ofPlace_eq_ok h
  obtain ⟨P, Q, hcomputes⟩ := exists_computes hv
  exact ⟨P, Q, hcomputes.withIndex i⟩

end EcOp

open SubsetSum (steps)

/-- The slope of a step is that of the chord, as the digit of the last step is not set. -/
theorem CurvePoint.sumStep_slope {P Q : CurvePoint} {m k : Nat} (hm : m < 2 ^ (steps - 1))
    (hk : k < steps) : (sumStep P Q m steps k).slope = (PointSum.multiples P Q m).slope k := by
  have hbit := shiftRight_mod_two m k
  simp only [sumStep, PointSum.multiples, hbit]
  by_cases hset : m.testBit k = true
  · have hlast : k + 1 ≠ steps := by
      rintro hlast
      obtain rfl : k = steps - 1 := by omega
      rw [Nat.testBit_lt_two_pow hm] at hset
      cases hset
    rw [if_pos hset, if_pos hset, if_neg hlast, Point.chord, ← neg_sub, ← neg_sub (Point.x _),
      ← div_eq_mul_inv, neg_div_neg_eq]
  · rw [if_neg hset, if_neg hset]

theorem CurvePoint.sumStep_suffix {P Q : CurvePoint} {m k : Nat} (stop : Nat) :
    (sumStep P Q m stop k).suffix = (PointSum.multiples P Q m).suffix k := by
  rw [sumStep, Nat.shiftRight_eq_div_pow]
  rfl

theorem CurvePoint.sumStep_xDiffInv {P Q : CurvePoint} {m stop k : Nat} (hk : k + 1 ≠ stop) :
    (sumStep P Q m stop k).xDiffInv =
      (PointSum.multiples P Q m).xDiffInverse (DoubledPoint.multiples Q).x k :=
  if_neg hk

namespace EcOpCells

variable {cells : EcOpCells} {check : Option DilutedCheck} {n start i : Nat} {w : EcOp.Witness}
  {columns : List (Array Felt)} {P Q : CurvePoint}

/-- The columns hold each step of an instance. -/
theorem areHeld_step (h : Write.AreHeld check columns (cells.instanceWrites start i w))
    {k : Nat} {d : DoublingStep} {s : SumStep} (hd : w.doubling[k]? = some d)
    (hs : w.sum[k]? = some s) :
    Write.AreHeld check columns (cells.stepWrites (steps * i + k) d s) := by
  have hzip : (w.doubling.zip w.sum)[k]? = some (d, s) := List.getElem?_zip_eq_some.mpr ⟨hd, hs⟩
  rw [instanceWrites, mul_comm i] at h
  have hsteps := h.mono fun _ hwrite => List.mem_append_left _ (List.mem_append_left _ hwrite)
  exact hsteps.of_getElem? hzip

/-- The columns hold the values that an instance has in memory. -/
theorem valueAt_eq (harranged : cells.IsArranged n)
    (h : Write.AreHeld check columns (cells.instanceWrites start i w)) {k : Nat} {v : Felt}
    (hv : [w.p.x, w.p.y, w.q.x, w.q.y, w.m, w.r.x, w.r.y][k]? = some v) :
    cells.valueAt columns i k = v := by
  have hk : k < memoryCells := (List.getElem?_eq_some_iff.mp hv).1
  have haddress : (w.inst.addresses start)[k]? = some (start + w.inst.index * memoryCells + k) := by
    rw [EcOpInstance.addresses, instanceAddresses, List.getElem?_map,
      List.getElem?_range (show k < 7 from hk)]
    rfl
  have hmem : .memory (cells.memory.row (memoryPlaces * i + k))
      (start + w.inst.index * memoryCells + k) v ∈ cells.instanceWrites start i w := by
    refine List.mem_append_right _ (List.mem_map.mpr ⟨((_, v), k), ?_, rfl⟩)
    exact List.mk_mem_zipIdx_iff_getElem?.mpr (List.getElem?_zip_eq_some.mpr ⟨haddress, hv⟩)
  exact h.valueColumn_cellAt_eq harranged.memory.column_eq hmem

/-- The columns hold the products of digits of an instance. -/
theorem unpacking_cellAt_eq
    (h : Write.AreHeld check columns (cells.instanceWrites start i w)) :
    cells.unpacking.cellAt columns (steps * i) = (unpackingProducts w.inst.m).1 ∧
      cells.unpacking.cellAt columns (steps * i + 1) = (unpackingProducts w.inst.m).2 := by
  have hsubset : unpackingWrites cells.unpacking (i * steps) w.inst.m ⊆
      cells.instanceWrites start i w := fun write hwrite =>
    List.mem_append_left _ (List.mem_append_right _ hwrite)
  rw [mul_comm steps]
  exact (h.mono hsubset).unpacking_cellAt_eq

/-- An instance that is written with a witness doubles a point and adds it to another one. -/
theorem multiplies_of_areHeld (harranged : cells.IsArranged n) (hw : w.Computes P Q)
    (h : Write.AreHeld check columns (cells.instanceWrites start i w)) :
    cells.Multiplies columns i := by
  have hstep {k : Nat} (hk : k < steps) : Write.AreHeld check columns
      (cells.stepWrites (steps * i + k) ⟨(2 ^ k • Q).point, (2 ^ k • Q).point.tangent⟩
        (CurvePoint.sumStep P Q w.m.val steps k)) :=
    areHeld_step h (hw.getElem?_doubling hk) (hw.getElem?_sum hk)
  have hm : w.m.val < 2 ^ (steps - 1) := w.m.isLt.trans (by decide)
  have hpoint : (cells.pointAt columns i).Follows Q := by
    refine Doubling.pointAt_follows (fun k hk => (hstep hk).cellAt_eq ?_)
      (fun k hk => (hstep hk).cellAt_eq ?_)
      (fun k hk => (hstep (Nat.lt_of_succ_lt hk)).cellAt_eq ?_)
    all_goals simp [stepWrites, DoubledPoint.multiples]
  have hsum : (cells.sumAt columns i).Follows P Q w.m.val := by
    refine SubsetSum.sumAt_follows (fun k hk => (hstep hk).cellAt_eq ?_)
      (fun k hk => (hstep hk).cellAt_eq ?_) (fun k hk => (hstep hk).cellAt_eq ?_)
      (fun k hk => (hstep hk).cellAt_eq ?_)
    case refine_3 =>
      rw [← CurvePoint.sumStep_suffix steps]
      simp [stepWrites]
    case refine_4 =>
      rw [← CurvePoint.sumStep_slope hm hk]
      simp [stepWrites]
    all_goals simp [stepWrites, PointSum.multiples, CurvePoint.sumStep]
  have hpoint_eq (k : Nat) (hk : k + 1 < steps) :=
    hpoint.point_eq hw.q_ne_zero (Nat.lt_of_succ_lt hk)
  have hxDiffInv (k : Nat) (hk : k + 1 < steps) : cells.xDiffInv.cellAt columns (steps * i + k) =
      (PointSum.multiples P Q w.m.val).xDiffInverse (DoubledPoint.multiples Q).x k := by
    refine (hstep (Nat.lt_of_succ_lt hk)).cellAt_eq ?_
    rw [← CurvePoint.sumStep_xDiffInv hk.ne]
    simp [stepWrites]
  have hvalue {k : Nat} {v : Felt} (hv : _ = some v) : cells.valueAt columns i k = v :=
    valueAt_eq harranged h hv
  obtain ⟨hlast_x, hlast_y⟩ := hsum.last hm
  obtain ⟨hones192, hones196⟩ := unpacking_cellAt_eq h
  exact {
    doubles := hpoint.doubles hw.q_ne_zero
    q_x := (hvalue rfl).trans (hpoint.x_zero.trans (congrArg Point.x hw.q_eq.symm)).symm
    q_y := (hvalue rfl).trans (hpoint.y_zero.trans (congrArg Point.y hw.q_eq.symm)).symm
    unpacks := by
      rw [hones192, hones196, hw.m_eq]
      exact PointSum.unpacks_of_lt hsum.suffix w.m.isLt
    extracts := hsum.extracts (w.m.isLt.trans (by decide)) (by decide)
    adds := hsum.adds hpoint_eq hw.p_ne_zero hw.avoids
    xDiffInv := hsum.xDiffInv hpoint_eq hw.avoids hxDiffInv
    scalar := hsum.accumulates.suffix_zero.trans (hvalue rfl).symm
    p_x := (hvalue rfl).trans (hsum.accumulates.x_zero.trans (congrArg Point.x hw.p_eq.symm)).symm
    p_y := (hvalue rfl).trans (hsum.accumulates.y_zero.trans (congrArg Point.y hw.p_eq.symm)).symm
    r_x := (hvalue rfl).trans (hlast_x.trans (congrArg Point.x hw.r_eq.symm)).symm
    r_y := (hvalue rfl).trans (hlast_y.trans (congrArg Point.y hw.r_eq.symm)).symm }

/-- Witnesses hold the multiples of their points. When all instances have one, the columns with
what they write have zeros in all constraints on points. -/
theorem multiples_of_writes {config : LayoutConfig} {modulus : Nat}
    {params : Option Pedersen.Params} {l : Layout}
    (hbuild : Layout.build config n params modulus = .ok l) (hword : n < 2 ^ 64)
    (hcells : .ecOp cells ∈ l.components) {instances : List (Option EcOpInstance)}
    (hlength : instances.length = n / cells.height)
    (hinstances : ∀ inst, some inst ∈ instances → ∃ w, EcOp.Witness.ofInstance inst = .ok w)
    (check : Option DilutedCheck) (start : Nat) :
    (∀ inst w, EcOp.Witness.ofInstance inst = .ok w → ∃ P Q : CurvePoint,
      Point.ofWords inst.pX inst.pY = .ok P.point ∧ Point.ofWords inst.qX inst.qY = .ok Q.point ∧
      w.doubling.length = steps ∧ w.sum.length = steps ∧
      (∀ k < steps, ∃ d s, w.doubling[k]? = some d ∧ w.sum[k]? = some s ∧
        d.point = (2 ^ k • Q).point ∧ s.point = (P + (inst.m % 2 ^ k) • Q).point ∧
        s.suffix.val = inst.m >>> k) ∧
      w.r = (P + inst.m • Q).point ∧ w.sum[steps - 1]?.map (·.point) = some w.r) ∧
    (∃ columns : List (Array Felt), columns.length = l.mainColumns ∧
      (∀ column ∈ columns, column.size = n) ∧
      Write.AreHeld check columns (cells.writes start instances)) ∧
    ∀ columns : List (Array Felt), Write.AreHeld check columns (cells.writes start instances) →
      ∀ (periodic : List PeriodicColumn) (b : Bindings), ∀ c ∈ cells.pointConstraints,
        c.Holds n columns periodic b := by
  obtain ⟨hn, -, harranged⟩ := Layout.isArranged_of_build hbuild
  have hcells_arranged : cells.IsArranged n := harranged _ hcells
  refine ⟨fun inst w hw => ?_, ?_, fun columns hheld periodic b c hc => ?_⟩
  · obtain ⟨P, Q, hcomputes⟩ := EcOp.Witness.exists_computes hw
    obtain ⟨hp, hq, -, rfl, -⟩ := EcOp.Witness.ofInstance_eq_ok hw
    obtain ⟨hdoubling, hsum⟩ := EcOp.Witness.length_steps hw
    refine ⟨P, Q, hcomputes.p_eq ▸ hp, hcomputes.q_eq ▸ hq, hdoubling, hsum, fun k hk => ?_,
      hcomputes.m_eq ▸ hcomputes.r_eq, ?_⟩
    · refine ⟨_, _, hcomputes.getElem?_doubling hk, hcomputes.getElem?_sum hk, rfl, ?_, ?_⟩
      · rw [hcomputes.m_eq]
        rfl
      · rw [hcomputes.m_eq]
        exact Felt.val_natCast_of_lt ((Nat.shiftRight_le _ _).trans_lt w.m.isLt)
    · have hlast := CurvePoint.sumBefore_of_lt P Q (w.m.isLt.trans (by decide) : w.m.val < 2 ^ 255)
      rw [hcomputes.getElem?_sum (by decide), Option.map_some, hcomputes.r_eq, ← hlast]
      rfl
  · exact Layout.exists_columns_areHeld_of_writesOwn hbuild hcells
      (writesOwn hcells_arranged (Layout.isAllotted_of_build hbuild hcells rfl) hlength)
  · have hmem : c ∈ (Component.ecOp cells).constraints := by
      rw [Component.constraints, constraints_eq]
      exact List.mem_append_right _ hc
    rw [Layout.holds_iff_holdsOnInstance hbuild hcells hmem
      (SubsetSum.isPowerOfTwo_height hcells_arranged.isPowerOfTwo_step) hcells_arranged.height_le]
    intro i hi
    obtain ⟨w, hw, hsubset⟩ := Write.exists_subset_ofWitnesses
      (cells.instanceWrites start) (EcOp.Witness.exists_ofPlace hinstances)
      (List.getElem?_eq_getElem (hi.trans_eq hlength.symm))
    obtain ⟨P, Q, hcomputes⟩ := EcOp.Witness.exists_computes_of_ofPlace hw
    rw [writes_eq_ofWitnesses] at hheld
    exact (pointConstraints_holdOnInstance_iff hn hword hcells_arranged hi).mpr
      (multiplies_of_areHeld hcells_arranged hcomputes (hheld.mono hsubset)) c hc

/-- The generator is added once. -/
def onceInstance : EcOpInstance :=
  ⟨0, onceStart.point.x.val, onceStart.point.y.val, CurvePoint.generator.point.x.val,
    CurvePoint.generator.point.y.val, 1⟩

theorem multiples_of_writes_once : ∃ l w, ∃ columns : List (Array Felt),
    Layout.build onceConfig 256 none = .ok l ∧ .ecOp onceCells ∈ l.components ∧
    EcOp.Witness.ofInstance onceInstance = .ok w ∧ w.sum[255]?.map (·.point) = some w.r ∧
    Write.AreHeld none columns (onceCells.writes 100 [some onceInstance]) ∧
    ∀ c ∈ onceCells.pointConstraints, c.Holds 256 columns [] ⟨[], [], 0⟩ := by
  have hbuild : ∃ l, Layout.build onceConfig 256 none = .ok l ∧ .ecOp onceCells ∈ l.components :=
    ⟨_, rfl, List.mem_of_getElem? (i := 3) rfl⟩
  obtain ⟨l, hl, hcells⟩ := hbuild
  obtain ⟨w, hw⟩ : ∃ w, EcOp.Witness.ofInstance onceInstance = .ok w :=
    EcOp.Witness.exists_ofInstance (m := 1) (CurvePoint.ne_zero_of_point_eq rfl)
      CurvePoint.generator_ne_zero CurvePoint.neg_shift_avoids_generator 0
  have hinstances (inst : EcOpInstance) (hinst : some inst ∈ [some onceInstance]) :
      ∃ w, EcOp.Witness.ofInstance inst = .ok w := by
    obtain rfl := Option.some.inj (List.mem_singleton.mp hinst)
    exact ⟨w, hw⟩
  obtain ⟨hmultiples, ⟨columns, -, -, hheld⟩, hholds⟩ :=
    multiples_of_writes hl (by decide) hcells (by decide) hinstances none 100
  obtain ⟨-, -, -, -, -, -, -, -, hlast⟩ := hmultiples onceInstance w hw
  exact ⟨l, w, columns, hl, hcells, hw, hlast, hheld, hholds columns hheld [] _⟩

end EcOpCells

end CairoTrace
