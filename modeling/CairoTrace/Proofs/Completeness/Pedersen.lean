import CairoTrace.Proofs.Completeness.PointSum
import CairoTrace.Proofs.Component.HashRows
import CairoTrace.Proofs.Curve.PedersenSteps
import CairoTrace.Proofs.Layout.PointColumns
import CairoTrace.Proofs.Trace.ScriptPlaces

/-!
# Completeness of Pedersen hashes

The witness of an instance holds the sums of the points that the digits of two words add, and ends
at their hash (`Pedersen.Witness.ofInstance_eq_ok_iff_computes`). The periodic columns of a layout
have the points (`PedersenCells.onRow_stepPoint`), so that the constraints on hashes hold where the
sums are written (`PedersenCells.hashes_of_areHeld`).
-/

namespace CairoTrace

open SubsetSum (steps)

namespace Pedersen

open CurvePoint (AvoidsDigits digitSum)

/-- The steps of an operand, if its sum avoids the points that are added to it. -/
theorem stepsFrom_digitPoints_eq_ok_iff {P low high : CurvePoint} {v : Felt} {first : Nat}
    {l : List Step} :
    stepsFrom v.val first 0 (digitPoints low.point high.point) P.point = .ok l ↔
      AvoidsDigits P (digitPoint low high) v.val ∧
        l = (List.range steps).map (step P (digitPoint low high) v.val) := by
  have hfrom : stepsFrom v.val first 0
      ((List.range' 0 steps).map fun k => (digitPoint low high k).point)
      (digitSum P (digitPoint low high) v.val 0).point = .ok l ↔ _ :=
    stepsFrom_eq_ok_iff P (digitPoint low high) v.val
  simp only [CurvePoint.digitSum_zero, zero_add, Nat.zero_le, true_implies,
    ← List.range_eq_range'] at hfrom
  rw [digitPoints_eq_map]
  refine hfrom.trans (and_congr_left fun _ => ?_)
  constructor
  · intro h k hk
    exact h k (Nat.lt_of_succ_lt hk)
  · intro h k hk hbit
    refine h k (Nat.lt_of_le_of_ne hk fun hlast => ?_) hbit
    -- the digit of the last step is not set
    rw [Nat.testBit_lt_two_pow (v.isLt.trans (by rw [Nat.succ.inj hlast]; decide))] at hbit
    cases hbit

/-- A witness holds both sums, as the group law has them, and their hash. -/
structure Witness.Computes {params : Params} (w : Witness) (c : params.OnCurve) : Prop where
  a_eq : w.inst.a = w.a.val
  b_eq : w.inst.b = w.b.val
  output_eq : w.output = hash params w.a w.b
  aAvoids : AvoidsDigits c.shift c.aPoint w.a.val
  bAvoids : AvoidsDigits (c.middle w.a) c.bPoint w.b.val
  aSteps_eq : w.aSteps = (List.range steps).map (step c.shift c.aPoint w.a.val)
  bSteps_eq : w.bSteps = (List.range steps).map (step (c.middle w.a) c.bPoint w.b.val)

variable {params : Params} {inst : PedersenInstance} {w : Witness}

theorem Witness.ofInstance_eq_ok_iff_computes (c : params.OnCurve) :
    Witness.ofInstance params inst = .ok w ↔ w.inst = inst ∧ w.Computes c := by
  have hlt (v : Felt) : v.val < 2 ^ inputBits := v.isLt.trans (by decide)
  have hmiddle : lastPoint ((List.range steps).map (step c.shift c.aPoint w.a.val)) =
      (c.middle w.a).point :=
    lastPoint_map_step _ _ _ (hlt w.a)
  have hlast : lastPoint ((List.range steps).map (step (c.middle w.a) c.bPoint w.b.val)) =
      (digitSum (c.middle w.a) c.bPoint w.b.val stepsPerInput).point :=
    lastPoint_map_step _ _ _ (hlt w.b)
  rw [Witness.ofInstance_eq_ok_iff, feltOfWord_eq_ok_iff, feltOfWord_eq_ok_iff, c.shift_eq,
    c.aLow_eq, c.aHigh_eq, c.bLow_eq, c.bHigh_eq, stepsFrom_digitPoints_eq_ok_iff]
  constructor
  · rintro ⟨ha, hb, rfl, houtput, ⟨haAvoids, haSteps⟩, hbSteps⟩
    have hsum : lastPoint w.aSteps = (c.middle w.a).point :=
      (congrArg lastPoint haSteps).trans hmiddle
    rw [hsum, stepsFrom_digitPoints_eq_ok_iff] at hbSteps
    obtain ⟨hbAvoids, hbSteps⟩ := hbSteps
    refine ⟨rfl, ha, hb, ?_, haAvoids, hbAvoids, haSteps, hbSteps⟩
    rw [houtput, hbSteps, c.hash_eq]
    exact congrArg Point.x hlast
  · rintro ⟨rfl, h⟩
    refine ⟨h.a_eq, h.b_eq, rfl, ?_, ⟨h.aAvoids, h.aSteps_eq⟩, ?_⟩
    · rw [h.output_eq, h.bSteps_eq, hlast, c.hash_eq]
    · rw [h.aSteps_eq, hmiddle]
      exact stepsFrom_digitPoints_eq_ok_iff.mpr ⟨h.bAvoids, h.bSteps_eq⟩

/-- Two words whose sums avoid the points that are added to them have a witness. -/
theorem Witness.exists_ofInstance (c : params.OnCurve) {a b : Felt}
    (ha : AvoidsDigits c.shift c.aPoint a.val) (hb : AvoidsDigits (c.middle a) c.bPoint b.val)
    (index : Nat) : ∃ w, Witness.ofInstance params ⟨index, a.val, b.val⟩ = .ok w :=
  ⟨{  inst := ⟨index, a.val, b.val⟩
      a, b
      output := hash params a b
      aSteps := (List.range steps).map (step c.shift c.aPoint a.val)
      bSteps := (List.range steps).map (step (c.middle a) c.bPoint b.val) },
    (ofInstance_eq_ok_iff_computes c).mpr ⟨rfl, rfl, rfl, rfl, ha, hb, rfl, rfl⟩⟩

/-- Two zeros, which add nothing, have a witness. -/
theorem Witness.exists_ofInstance_zero (c : params.OnCurve) (index : Nat) :
    ∃ w, Witness.ofInstance params ⟨index, 0, 0⟩ = .ok w := by
  have havoids (P : CurvePoint) (q : Nat → CurvePoint) : AvoidsDigits P q (0 : Felt).val := by
    intro k _ hbit
    rw [show (0 : Felt).val = 0 from rfl, Nat.zero_testBit] at hbit
    cases hbit
  exact exists_ofInstance (a := 0) (b := 0) c (havoids _ _) (havoids _ _) index

theorem Witness.exists_ofPlace (c : params.OnCurve) {instances : List (Option PedersenInstance)}
    (h : ∀ inst, some inst ∈ instances → ∃ w, ofInstance params inst = .ok w) :
    ∀ q ∈ instances.zipIdx, ∃ w, ofPlace params q = .ok w := by
  rintro ⟨inst?, k⟩ hq
  cases inst? with
  | some inst => exact h inst (List.fst_mem_of_mem_zipIdx hq)
  | none => exact exists_ofInstance_zero c k

end Pedersen

namespace PedersenCells

open CurvePoint (digitSum)

variable {cells : PedersenCells} {check : Option DilutedCheck} {n start i : Nat}
  {w : Pedersen.Witness} {columns : List (Array Felt)}

/-! ## Sums -/

/-- Both words of an instance are written on the rows of their sums. -/
theorem areHeld_inputWrites (h : Write.AreHeld check columns (cells.instanceWrites start i w)) :
    Write.AreHeld check columns (cells.inputWrites (steps * (2 * i)) w.inst.a w.aSteps) ∧
      Write.AreHeld check columns (cells.inputWrites (steps * (2 * i + 1)) w.inst.b w.bSteps) := by
  have hfirst : i * (2 * steps) = steps * (2 * i) := by ring
  have hsecond : i * (2 * steps) + steps = steps * (2 * i + 1) := by ring
  rw [instanceWrites, hfirst] at h
  rw [← hsecond, hfirst]
  exact ⟨h.mono fun _ hwrite => List.mem_append_left _ (List.mem_append_left _ hwrite),
    h.mono fun _ hwrite => List.mem_append_left _ (List.mem_append_right _ hwrite)⟩

section Sum

variable {j : Nat} {input : Word} {P : CurvePoint} {q : Nat → CurvePoint} {v : Nat}
  (h : Write.AreHeld check columns
    (cells.inputWrites (steps * j) input ((List.range steps).map (Pedersen.step P q v))))
include h

/-- The columns hold the sums of points. -/
theorem accumulates_of_areHeld : (cells.sum.sumAt columns j).Accumulates P q v := by
  have hstep {k : Nat} (hk : k < steps) : Write.AreHeld check columns
      (cells.stepWrites (steps * j + k) (Pedersen.step P q v k)) := by
    have hget : ((List.range steps).map (Pedersen.step P q v))[k]? =
        some (Pedersen.step P q v k) := by
      rw [List.getElem?_map, List.getElem?_range hk, Option.map_some]
    have hsteps := h.mono fun _ hwrite => List.mem_append_left _ hwrite
    exact hsteps.of_getElem? hget
  constructor
  case x => exact fun k hk => (hstep hk).cellAt_eq (by simp [stepWrites, Pedersen.step])
  case y => exact fun k hk => (hstep hk).cellAt_eq (by simp [stepWrites, Pedersen.step])
  case suffix =>
    intro k hk
    rw [← Nat.shiftRight_eq_div_pow]
    exact (hstep hk).cellAt_eq (.tail _ (.tail _ (.head _)))
  case slope =>
    intro k hk
    have hslope : (Pedersen.step P q v k).slope =
        if v.testBit k then (digitSum P q v k).point.chord (q k).point else 0 := by
      simp only [Pedersen.step, shiftRight_mod_two]
      rw [Point.chord, ← neg_sub, ← neg_sub (Point.x _), neg_div_neg_eq]
    rw [← hslope]
    exact (hstep (Nat.lt_of_succ_lt hk)).cellAt_eq (by simp [stepWrites])

theorem unpacking_cellAt_eq :
    cells.unpacking.cellAt columns (steps * j) = (unpackingProducts input).1 ∧
      cells.unpacking.cellAt columns (steps * j + 1) = (unpackingProducts input).2 :=
  (h.mono (List.subset_append_right _ _)).unpacking_cellAt_eq

end Sum

/-! ## Instances -/

/-- The sum after the first word is finite. -/
theorem middle_ne_zero {c : cells.params.OnCurve} (hw : w.Computes c) : c.middle w.a ≠ 0 := by
  have hmiddle : c.middle w.a = digitSum c.shift c.aPoint w.a.val (steps - 1) :=
    CurvePoint.digitSum_succ_of_lt (w.a.isLt.trans (by decide))
  rw [hmiddle]
  exact hw.aAvoids.digitSum_ne_zero (c.ne_zero _ (List.mem_cons_self ..)) (by decide)

/-- An instance that is written with a witness hashes two words. -/
theorem hashes_of_areHeld (c : cells.params.OnCurve) (harranged : cells.IsArranged n)
    (hw : w.Computes c) (h : Write.AreHeld check columns (cells.instanceWrites start i w)) :
    cells.Hashes columns i (fun j k => (c.stepPoint j k).point.x)
      (fun j k => (c.stepPoint j k).point.y) := by
  have hlt (v : Felt) : v.val < 2 ^ Pedersen.inputBits := v.isLt.trans (by decide)
  have hlt' (v : Felt) : v.val < 2 ^ (steps - 1) := v.isLt.trans (by decide)
  obtain ⟨haHeld, hbHeld⟩ := areHeld_inputWrites h
  rw [hw.aSteps_eq, hw.a_eq] at haHeld
  rw [hw.bSteps_eq, hw.b_eq] at hbHeld
  have ha : (cells.sumAt columns i 0).Accumulates c.shift c.aPoint w.a.val :=
    accumulates_of_areHeld haHeld
  have hb : (cells.sumAt columns i 1).Accumulates (c.middle w.a) c.bPoint w.b.val :=
    accumulates_of_areHeld hbHeld
  obtain ⟨ha192, ha196⟩ := unpacking_cellAt_eq haHeld
  obtain ⟨hb192, hb196⟩ := unpacking_cellAt_eq hbHeld
  have hpoint (j : Nat) (v : Felt) (k : Nat) (hbit : v.val.testBit k = true) :
      (c.stepPoint j k).point = .affine (c.stepPoint j k).point.x (c.stepPoint j k).point.y :=
    CurvePoint.point_eq_affine (c.stepPoint_ne_zero j (hlt v) hbit)
  have hvalue {slot : VirtualColumn} (hslot : slot.IsMemorySlot cells.height) {address : Nat}
      {v : Felt} (hmem : .memory (slot.row i) address v ∈ cells.instanceWrites start i w) :
      slot.valueColumn.cellAt columns i = v :=
    h.valueColumn_cellAt_eq hslot.column_eq hmem
  have hboth {p : Nat → Prop} (hfirst : p 0) (hsecond : p 1) (j : Nat) (hj : j < 2) : p j := by
    interval_cases j
    · exact hfirst
    · exact hsecond
  constructor
  case unpacks =>
    refine hboth ?_ ?_
    · rw [add_zero, ha192, ha196]
      exact PointSum.unpacks_of_lt ha.suffix w.a.isLt
    · rw [hb192, hb196]
      exact PointSum.unpacks_of_lt hb.suffix w.b.isLt
  case extracts =>
    exact hboth (ha.extracts (hlt w.a) (by decide)) (hb.extracts (hlt w.b) (by decide))
  case adds =>
    refine hboth ?_ ?_
    · exact ha.adds (fun k _ => hpoint 0 w.a k) (c.ne_zero _ (List.mem_cons_self ..)) hw.aAvoids
    · exact hb.adds (fun k _ => hpoint 1 w.b k) (middle_ne_zero hw) hw.bAvoids
  case copy_x => exact hb.x_zero.trans (ha.last (hlt' w.a)).1.symm
  case copy_y => exact hb.y_zero.trans (ha.last (hlt' w.a)).2.symm
  case init_x => rw [ha.x_zero, c.shift_eq]
  case init_y => rw [ha.y_zero, c.shift_eq]
  case input0 =>
    rw [ha.suffix_zero]
    exact hvalue harranged.input0 (List.mem_append_right _ (.head _))
  case input1 =>
    rw [hb.suffix_zero]
    exact hvalue harranged.input1 (List.mem_append_right _ (.tail _ (.head _)))
  case output =>
    have houtput : w.output = (cells.sumAt columns i 1).x (steps - 1) := by
      rw [hw.output_eq, c.hash_eq, (hb.last (hlt' w.b)).1]
      rfl
    rw [← houtput]
    exact hvalue harranged.output (List.mem_append_right _ (.tail _ (.tail _ (.head _))))

/-! ## The points of digits -/

theorem length_rows (params : Pedersen.Params) : params.rows.length = 2 * steps := by
  rw [Pedersen.Params.rows, List.length_append, params.aRows_eq, params.bRows_eq,
    Pedersen.length_digitPoints, Pedersen.length_digitPoints]
  rfl

section Build

variable {config : LayoutConfig} {modulus : Nat} {params : Option Pedersen.Params} {l : Layout}
  (hbuild : Layout.build config n params modulus = .ok l) (hword : n < 2 ^ 64)
  (hcells : .pedersen cells ∈ l.components)
include hbuild hword hcells

/-- The periodic columns of a layout have the points on the steps of an instance. -/
theorem onRow_stepPoint (c : cells.params.OnCurve) {b : Bindings} {j k : Nat} (hj : j < 2)
    (hk : k < steps) :
    (Term.periodic cells.periodic).onRow n columns l.periodic b
        (cells.sum.step * (steps * (2 * i + j) + k)) = (c.stepPoint j k).point.x ∧
      (Term.periodic (cells.periodic + 1)).onRow n columns l.periodic b
        (cells.sum.step * (steps * (2 * i + j) + k)) = (c.stepPoint j k).point.y := by
  have hsplit : steps * (2 * i + j) + k = 2 * steps * i + (steps * j + k) := by ring
  have hindex : steps * j + k < 2 * steps := (mul_add_lt_mul hj hk).trans_eq (mul_comm _ _)
  refine Layout.onRow_pointColumns hbuild hword hcells rfl rfl ?_
  rw [length_rows, hsplit, Nat.mul_add_mod, Nat.mod_eq_of_lt hindex]
  exact c.getElem?_rows hj hk

end Build

/-! ## Completeness -/

/-- The output of a witness is the hash of its words. When all instances have one, the columns with
what they write have zeros in all constraints on hashes, with the points of digits in the periodic
columns. -/
theorem hashes_of_writes {config : LayoutConfig} {modulus : Nat} {params : Pedersen.Params}
    {l : Layout} (hbuild : Layout.build config n (some params) modulus = .ok l)
    (hword : n < 2 ^ 64) (hcells : .pedersen cells ∈ l.components)
    (hpoints : ∀ p ∈ [params.shift, params.aLow, params.aHigh, params.bLow, params.bHigh],
      p ≠ .infinity ∧ p.onCurve = true)
    {instances : List (Option PedersenInstance)} (hlength : instances.length = n / cells.height)
    (hinstances : ∀ inst, some inst ∈ instances →
      ∃ w, Pedersen.Witness.ofInstance params inst = .ok w)
    (check : Option DilutedCheck) (start : Nat) :
    (∀ inst w, Pedersen.Witness.ofInstance params inst = .ok w →
      inst.a = w.a.val ∧ inst.b = w.b.val ∧ w.output = Pedersen.hash params w.a w.b) ∧
    (∃ columns : List (Array Felt), columns.length = l.mainColumns ∧
      (∀ column ∈ columns, column.size = n) ∧
      Write.AreHeld check columns (cells.writes start instances)) ∧
    ∀ columns : List (Array Felt), Write.AreHeld check columns (cells.writes start instances) →
      ∀ b : Bindings, ∀ c ∈ cells.hashConstraints, c.Holds n columns l.periodic b := by
  obtain rfl : params = cells.params := Option.some.inj (Layout.params_of_build hbuild hcells)
  obtain ⟨c⟩ := Pedersen.Params.nonempty_onCurve hpoints
  obtain ⟨hn, -, harranged⟩ := Layout.isArranged_of_build hbuild
  have hcells_arranged : cells.IsArranged n := harranged _ hcells
  refine ⟨fun inst w hw => ?_, ?_, fun columns hheld b k hk => ?_⟩
  · obtain ⟨rfl, hcomputes⟩ := (Pedersen.Witness.ofInstance_eq_ok_iff_computes c).mp hw
    exact ⟨hcomputes.a_eq, hcomputes.b_eq, hcomputes.output_eq⟩
  · exact Layout.exists_columns_areHeld_of_writesOwn hbuild hcells
      (writesOwn hcells_arranged (Layout.isAllotted_of_build hbuild hcells rfl) hlength)
  · have hmem : k ∈ (Component.pedersen cells).constraints := List.mem_of_mem_filter hk
    rw [Layout.holds_iff_holdsOnInstance hbuild hcells hmem
      (isPowerOfTwo_height hcells_arranged) hcells_arranged.height_le]
    intro i hi
    obtain ⟨w, hw, hsubset⟩ := Write.exists_subset_ofWitnesses
      (cells.instanceWrites start) (Pedersen.Witness.exists_ofPlace c hinstances)
      (List.getElem?_eq_getElem (hi.trans_eq hlength.symm))
    obtain ⟨-, hcomputes⟩ := (Pedersen.Witness.ofInstance_eq_ok_iff_computes c).mp hw
    rw [writes_eq_ofWitnesses] at hheld
    refine (hashConstraints_holdOnInstance_iff hn hword hcells_arranged hi ?_ ?_).mpr
      (hashes_of_areHeld c hcells_arranged hcomputes (hheld.mono hsubset)) k hk
    · exact fun j hj k hk => (onRow_stepPoint hbuild hword hcells c hj (Nat.lt_of_succ_lt hk)).1
    · exact fun j hj k hk => (onRow_stepPoint hbuild hword hcells c hj (Nat.lt_of_succ_lt hk)).2

/-- The columns of the points have room beside the cells of an instance. -/
theorem exists_periodicColumns_eq_ok (hn : isPowerOfTwo n = true) (h : cells.IsArranged n) :
    ∃ columns, cells.periodicColumns n = .ok columns := by
  refine exists_pointColumns_eq_ok hn ?_ h.isPowerOfTwo_step ?_
  · rw [length_rows]
    decide
  · rw [length_rows, mul_assoc]
    exact h.height_le

/-- The shift point of signatures, to which multiples of the generator are added. -/
def generatorParams : Pedersen.Params where
  shift := Ecdsa.shift
  aLow := Point.generator
  aHigh := Point.generator
  bLow := Point.generator
  bHigh := Point.generator

/-- A layout with room for one hash in a trace of 512 rows. -/
def pairConfig : LayoutConfig where
  name := "hashes"
  pedersen := some 32

def pairCells : PedersenCells where
  params := generatorParams
  sum := ⟨⟨6, 1, 0⟩, ⟨7, 1, 0⟩, ⟨8, 1, 0⟩, ⟨9, 1, 0⟩, Pedersen.inputBits⟩
  unpacking := ⟨10, 1, 0⟩
  input0 := ⟨3, 512, 6⟩
  input1 := ⟨3, 512, 14⟩
  output := ⟨3, 512, 22⟩
  periodic := 0

theorem exists_pair_build : ∃ l, Layout.build pairConfig 512 (some generatorParams) = .ok l ∧
    .pedersen pairCells ∈ l.components := by
  have hassembly : ∃ a, (Layout.Assembly.initial pairConfig 512).addBuiltins pairConfig
      (some generatorParams) = .ok a ∧
        a.components = [.cpu, .memory 12, .rangeCheck16 11, .pedersen pairCells] :=
    ⟨_, rfl, rfl⟩
  obtain ⟨a, ha, hcomponents⟩ := hassembly
  have hn : isPowerOfTwo 512 = true := by decide
  have hvalid : pairConfig.Valid := LayoutConfig.validate_eq_ok_iff.mp rfl
  have hperiodic : ∀ k ∈ a.components, k.IsArranged pairConfig 512 →
      ∃ columns, k.periodicColumns 512 = .ok columns := by
    simp only [hcomponents, List.forall_mem_cons, List.not_mem_nil, false_implies, implies_true,
      and_true]
    exact ⟨fun _ => ⟨_, rfl⟩, fun _ => ⟨_, rfl⟩, fun _ => ⟨_, rfl⟩,
      exists_periodicColumns_eq_ok hn⟩
  obtain ⟨l, hl, hlcomponents⟩ := Layout.exists_build_eq_ok hvalid hn (by decide) ha hperiodic
  exact ⟨l, hl, by simp [hlcomponents, hcomponents]⟩

def generatorCurve : generatorParams.OnCurve where
  shift := .shift
  aLow := .generator
  aHigh := .generator
  bLow := .generator
  bHigh := .generator
  shift_eq := rfl
  aLow_eq := rfl
  aHigh_eq := rfl
  bLow_eq := rfl
  bHigh_eq := rfl
  ne_zero := by
    simp only [List.forall_mem_cons, List.not_mem_nil, false_implies, implies_true, and_true]
    exact ⟨CurvePoint.ne_zero_of_point_eq rfl, CurvePoint.generator_ne_zero,
      CurvePoint.generator_ne_zero, CurvePoint.generator_ne_zero, CurvePoint.generator_ne_zero⟩

theorem generatorCurve_middle : generatorCurve.middle 1 = .shift + .generator := by
  have hsum : generatorCurve.middle 1 = _ :=
    Pedersen.digitSum_digitPoint .shift .generator .generator (v := 1) (by decide)
  rw [hsum, Nat.mod_eq_of_lt (by decide), Nat.div_eq_of_lt (by decide), one_nsmul, zero_nsmul,
    add_zero]

theorem exists_ofInstance_ones :
    ∃ w, Pedersen.Witness.ofInstance generatorParams ⟨0, 1, 1⟩ = .ok w := by
  have hpoint (j : Nat) : generatorCurve.stepPoint j 0 = .generator := by
    have hdigit : Pedersen.digitPoint .generator .generator 0 = .generator := by
      rw [Pedersen.digitPoint_low (by decide), pow_zero, one_nsmul]
    unfold Pedersen.Params.OnCurve.stepPoint
    split
    · exact hdigit
    · exact hdigit
  have hshift : CurvePoint.shift.point.x ≠ CurvePoint.generator.point.x := by decide
  have hsum : (CurvePoint.shift + CurvePoint.generator).point.x ≠
      CurvePoint.generator.point.x := by decide +kernel
  refine Pedersen.Witness.exists_ofInstance (a := 1) (b := 1) generatorCurve
    (CurvePoint.avoidsDigits_one ?_) (CurvePoint.avoidsDigits_one ?_) 0
  · rw [← hpoint 0] at hshift
    exact hshift
  · rw [generatorCurve_middle]
    rw [← hpoint 1] at hsum
    exact hsum

/-- The hash of two ones adds the generator to the shift point twice. -/
theorem hashes_of_writes_ones : ∃ l w, ∃ columns : List (Array Felt),
    Layout.build pairConfig 512 (some generatorParams) = .ok l ∧
    .pedersen pairCells ∈ l.components ∧
    Pedersen.Witness.ofInstance generatorParams ⟨0, 1, 1⟩ = .ok w ∧
    w.output = Pedersen.hash generatorParams w.a w.b ∧
    Write.AreHeld none columns (pairCells.writes 100 [some ⟨0, 1, 1⟩]) ∧
    ∀ c ∈ pairCells.hashConstraints, c.Holds 512 columns l.periodic ⟨[], [], 0⟩ := by
  obtain ⟨l, hl, hcells⟩ := exists_pair_build
  obtain ⟨w, hw⟩ := exists_ofInstance_ones
  have hinstances (inst : PedersenInstance) (hinst : some inst ∈ [some ⟨0, 1, 1⟩]) :
      ∃ w, Pedersen.Witness.ofInstance generatorParams inst = .ok w := by
    obtain rfl := Option.some.inj (List.mem_singleton.mp hinst)
    exact ⟨w, hw⟩
  obtain ⟨hhash, ⟨columns, -, -, hheld⟩, hholds⟩ :=
    hashes_of_writes hl (by decide) hcells (by decide) (by decide) hinstances none 100
  obtain ⟨-, -, houtput⟩ := hhash _ w hw
  exact ⟨l, w, columns, hl, hcells, hw, houtput, hheld, hholds columns hheld _⟩

end PedersenCells

end CairoTrace
