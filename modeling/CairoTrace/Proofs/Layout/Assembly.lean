import CairoTrace.Layout.Binding
import CairoTrace.Proofs.Component.Core
import CairoTrace.Proofs.Component.InstanceRows
import CairoTrace.Proofs.Component.PointSums
import CairoTrace.Proofs.Component.WordCells
import CairoTrace.Proofs.Layout.Arrangement
import CairoTrace.Proofs.Layout.Slots

/-!
# The components of a layout

What a layout supplies depends on its configuration and on the number of its periodic columns
(`LayoutConfig.supply`). While builtins are added, all constraints stay placed and the periodic
columns are counted (`Layout.Assembly.Placed`). Each builtin takes its slots and puts its cells in
columns of its own (`addPedersen_placed` and so on), so that a layout that has been built has only
constraints that are placed (`Layout.build_eq_ok`).
-/

namespace CairoTrace

/-! ## What a configuration supplies -/

/-- The hints of the runs of a configuration. -/
def LayoutConfig.hints (c : LayoutConfig) : List Hint :=
  [.initialAp, .initialPc, .finalAp, .finalPc, .memoryQuotient, .rangeCheckMin, .rangeCheckMax] ++
    (if c.dilution.isSome then [.dilutedAggregate] else []) ++
    (Layout.startHints.filter fun (b, _) => c.has b).map (·.2)

/-- What layouts of a configuration supply. -/
def LayoutConfig.supply (c : LayoutConfig) (periodic : Nat) : Supply where
  columns := (Layout.namesOf c).length
  periodic
  challenges := if c.dilution.isSome then dilutedChallenges else plainChallenges
  hints := c.hints

namespace LayoutConfig

variable {c : LayoutConfig}

theorem supply_isWithin {periodic periodic' : Nat} (h : periodic ≤ periodic') :
    (c.supply periodic).IsWithin (c.supply periodic') :=
  ⟨le_rfl, h, le_rfl, List.Subset.refl _⟩

theorem mem_hints_of_plain {h : Hint} (hmem : h ∈ [Hint.initialAp, .initialPc, .finalAp, .finalPc,
    .memoryQuotient, .rangeCheckMin, .rangeCheckMax]) : h ∈ c.hints :=
  List.mem_append_left _ (List.mem_append_left _ hmem)

theorem mem_hints_of_has {b : Builtin} {h : Hint} (hmem : (b, h) ∈ Layout.startHints)
    (hb : c.has b = true) : h ∈ c.hints :=
  List.mem_append_right _ (List.mem_map.mpr ⟨(b, h), List.mem_filter.mpr ⟨hmem, hb⟩, rfl⟩)

theorem mem_hints_of_dilution (h : c.dilution.isSome = true) : .dilutedAggregate ∈ c.hints := by
  refine List.mem_append_left _ (List.mem_append_right _ ?_)
  rw [if_pos h]
  exact List.mem_singleton_self _

theorem plainChallenges_le (periodic : Nat) : plainChallenges ≤ (c.supply periodic).challenges := by
  change plainChallenges ≤ if c.dilution.isSome then dilutedChallenges else plainChallenges
  split
  · decide
  · exact le_rfl

theorem dilutedChallenges_le (h : c.dilution.isSome = true) (periodic : Nat) :
    dilutedChallenges ≤ (c.supply periodic).challenges :=
  (if_pos h).ge

end LayoutConfig

/-! ## Columns -/

namespace Layout

namespace ColumnStarts

variable {c : LayoutConfig} {k : Nat}

theorem plain_lt (hk : k < 6) : k < (namesOf c).length := by
  have hplain : plainNames.length = 6 := rfl
  simp only [namesOf, List.length_append]
  omega

theorem pedersen_lt (h : c.pedersen.isSome = true) (hk : k < 5) :
    (ofConfig c).pedersen + k < (namesOf c).length := by
  have hnames : (namesIf c.pedersen.isSome pedersenNames).length = 5 := by
    rw [h]
    rfl
  simp only [ofConfig, namesOf, List.length_append]
  omega

theorem diluted_lt (h : c.dilution.isSome = true) (hk : k < 2) :
    (ofConfig c).diluted + k < (namesOf c).length := by
  have hnames : (namesIf c.dilution.isSome dilutedNames).length = 2 := by
    rw [h]
    rfl
  simp only [ofConfig, namesOf, List.length_append]
  omega

theorem ecdsa_lt (h : c.ecdsa.isSome = true) (hk : k < 14) :
    (ofConfig c).ecdsa + k < (namesOf c).length := by
  have hnames : (namesIf c.ecdsa.isSome ecdsaNames).length = 14 := by
    rw [h]
    rfl
  simp only [ofConfig, namesOf, List.length_append]
  omega

theorem ecOp_lt (h : c.ecOp.isSome = true) (hk : k < 9) :
    (ofConfig c).ecOp + k < (namesOf c).length := by
  have hnames : (namesIf c.ecOp.isSome ecOpNames).length = 9 := by
    rw [h]
    rfl
  simp only [ofConfig, namesOf, List.length_append]
  omega

theorem plain_le_interaction : 6 ≤ (ofConfig c).interaction := by
  have hplain : plainNames.length = 6 := rfl
  simp only [ofConfig]
  omega

theorem interaction_lt (hk : k < 2) : (ofConfig c).interaction + k < (namesOf c).length := by
  have hnames : permutationNames.length = 2 := rfl
  simp only [ofConfig, namesOf, List.length_append]
  omega

theorem interaction_lt_of_dilution (h : c.dilution.isSome = true) (hk : k < 4) :
    (ofConfig c).interaction + k < (namesOf c).length := by
  have hpermutation : permutationNames.length = 2 := rfl
  have hnames : (namesIf c.dilution.isSome dilutedPermutationNames).length = 2 := by
    rw [h]
    rfl
  simp only [ofConfig, namesOf, List.length_append]
  omega

end ColumnStarts

end Layout

/-! ## Assemblies -/

namespace Layout.Assembly

variable {c : LayoutConfig} {n : Nat} {a a' : Assembly}

/-- What holds of a layout for traces of length `n` while builtins are added to it. -/
structure Placed (c : LayoutConfig) (n : Nat) (a : Assembly) : Prop where
  n_eq : a.n = n
  starts_eq : a.starts = .ofConfig c
  memory_column : a.memory.column = Column.memoryPool
  rangeCheck_column : a.rangeCheck.column = Column.rangeCheckPool
  memory_granularity : a.memory.granularity = memoryStep
  periodicCount_eq : a.periodicCount = (a.components.map (·.periodicCount)).sum
  arePeriodic : ArePeriodic a.components
  pools_eq : a.components.filter (·.isPool) = (initial c n).components.filter (·.isPool)
  isArranged : ∀ component ∈ a.components, component.IsArranged c n
  isPlaced : ∀ component ∈ a.components, ∀ k ∈ component.constraints,
    k.IsPlaced n (c.supply a.periodicCount)

theorem instanceHeight_eq_ok {ratio height : Nat} (h : a.instanceHeight ratio = .ok height) :
    height = cycleHeight * ratio ∧ height ≤ a.n := by
  rw [instanceHeight] at h
  split at h
  · next hle =>
    obtain rfl := Except.ok.inj h
    exact ⟨rfl, hle⟩
  · cases h

/-- Steps and offsets are even, so that the values of a slot are within the step, too. -/
theorem Placed.allocateMemory {step : Nat} {b : Builtin} {slot : VirtualColumn}
    (h : a.Placed c n) (hslot : a.allocateMemory step b = .ok (slot, a')) :
    slot.IsMemorySlot step ∧ a'.Placed c n := by
  obtain ⟨⟨slot', memory⟩, hallocate, heq⟩ := Result.bind_eq_ok_iff.mp hslot
  obtain ⟨rfl, rfl⟩ := Prod.ext_iff.mp (Except.ok.inj heq)
  obtain ⟨hpow, hcolumn, hstep, hmemory, hgranularity, hdvd, hlt, hle⟩ :=
    Slots.allocate_eq_ok hallocate
  rw [h.memory_granularity] at hdvd hgranularity hle
  have heven : memoryStep ∣ step := dvd_of_isPowerOfTwo (by decide) hpow hle
  have hsucc : slot'.offset + 1 < step := by
    change 2 ∣ slot'.offset at hdvd
    change slot'.offset < step at hlt
    change 2 ∣ step at heven
    omega
  exact ⟨⟨hcolumn.trans h.memory_column, hstep, hpow, hdvd, hsucc⟩,
    { h with
      memory_column := hmemory.trans h.memory_column
      memory_granularity := hgranularity }⟩

theorem Placed.allocateRangeCheck {step : Nat} {b : Builtin} {slot : VirtualColumn}
    (h : a.Placed c n) (hslot : a.allocateRangeCheck step b = .ok (slot, a')) :
    (slot.column = Column.rangeCheckPool ∧ slot.step = step ∧ slot.offset < step) ∧
      a'.Placed c n := by
  obtain ⟨⟨slot', rangeCheck⟩, hallocate, heq⟩ := Result.bind_eq_ok_iff.mp hslot
  obtain ⟨rfl, rfl⟩ := Prod.ext_iff.mp (Except.ok.inj heq)
  obtain ⟨-, hcolumn, hstep, hrange, -, -, hlt, -⟩ := Slots.allocate_eq_ok hallocate
  exact ⟨⟨hcolumn.trans h.rangeCheck_column, hstep, hlt⟩,
    { h with rangeCheck_column := hrange.trans h.rangeCheck_column }⟩

/-- A component that is placed can be added; its periodic columns follow those there are. -/
theorem Placed.add (h : a.Placed c n) (component : Component)
    (hperiodic : ∀ k, component.periodicIndex = some k → k = a.periodicCount)
    (hpool : component.isPool = false) (harranged : component.IsArranged c n)
    (hcomponent : ∀ k ∈ component.constraints,
      k.IsPlaced n (c.supply (a.periodicCount + component.periodicCount))) :
    Placed c n { a.add component with
      periodicCount := a.periodicCount + component.periodicCount } where
  n_eq := h.n_eq
  starts_eq := h.starts_eq
  memory_column := h.memory_column
  rangeCheck_column := h.rangeCheck_column
  memory_granularity := h.memory_granularity
  arePeriodic := h.arePeriodic.append fun k hk => (hperiodic k hk).trans h.periodicCount_eq
  pools_eq := by
    rw [Assembly.add, List.filter_append, List.filter_singleton, hpool, h.pools_eq]
    exact List.append_nil _
  isArranged := by
    intro other hother
    rcases List.mem_append.mp hother with hold | hnew
    · exact h.isArranged other hold
    · obtain rfl := List.mem_singleton.mp hnew
      exact harranged
  periodicCount_eq := by
    rw [Assembly.add, List.map_append, List.sum_append, List.map_singleton, List.sum_singleton,
      h.periodicCount_eq]
  isPlaced := by
    intro other hother k hk
    rcases List.mem_append.mp hother with hold | hnew
    · exact (h.isPlaced other hold k hk).mono
        (LayoutConfig.supply_isWithin (Nat.le_add_right _ _))
    · obtain rfl := List.mem_singleton.mp hnew
      exact hcomponent k hk

/-! ## Builtins -/

/-- The instances of a ratio that is a power of two have a height that is one. -/
theorem isPowerOfTwo_height {ratio : Nat} (h : isPowerOfTwo ratio = true) :
    isPowerOfTwo (cycleHeight * ratio) = true :=
  isPowerOfTwo_mul (by decide) h

/-- The rows of a sum that is taken `sums` times in each instance. -/
theorem isPowerOfTwo_sumStep (sums : Nat) {height : Nat} (hheight : isPowerOfTwo height = true)
    (hsums : isPowerOfTwo sums = true) (hle : sums * SubsetSum.steps ≤ height) :
    isPowerOfTwo (height / (sums * SubsetSum.steps)) = true ∧
      sums * (SubsetSum.steps * (height / (sums * SubsetSum.steps))) = height := by
  have hsteps : isPowerOfTwo (sums * SubsetSum.steps) = true := isPowerOfTwo_mul hsums (by decide)
  refine ⟨isPowerOfTwo_div hsteps hheight hle, ?_⟩
  rw [← mul_assoc]
  exact Nat.mul_div_cancel' (dvd_of_isPowerOfTwo hsteps hheight hle)

theorem memoryPool_lt (periodic : Nat) : Column.memoryPool < (c.supply periodic).columns :=
  ColumnStarts.plain_lt (by decide)

theorem addPedersen_placed {params : Option Pedersen.Params} {ratio : Nat}
    (hn : isPowerOfTwo n = true) (hconfig : c.pedersen = some ratio)
    (hratio : isPowerOfTwo ratio = true ∧ 32 ≤ ratio) (h : a.Placed c n)
    (hadd : addPedersen params ratio a = .ok a') : a'.Placed c n := by
  cases params with
  | none => cases hadd
  | some params =>
    simp only [addPedersen, Result.bind_eq_ok_iff, Prod.exists] at hadd
    obtain ⟨height, hheight, input0, a0, h0, input1, a1, h1, output, a2, h2, heq⟩ := hadd
    obtain ⟨rfl, hle⟩ := instanceHeight_eq_ok hheight
    obtain ⟨hinput0, h0⟩ := h.allocateMemory h0
    obtain ⟨hinput1, h1⟩ := h0.allocateMemory h1
    obtain ⟨houtput, h2⟩ := h1.allocateMemory h2
    obtain rfl := Except.ok.inj heq
    have hhas : c.has .pedersen = true := by simp [LayoutConfig.has, hconfig]
    have hcolumn (k : Nat) (hk : k < 5) : a.starts.pedersen + k < (namesOf c).length := by
      rw [h.starts_eq]
      exact ColumnStarts.pedersen_lt hhas hk
    -- two sums of 256 steps are 512 rows, which an instance has from ratio 32 on
    obtain ⟨hstep, hrows⟩ := isPowerOfTwo_sumStep 2 (isPowerOfTwo_height hratio.1)
      (by decide) (by simp only [SubsetSum.steps, cycleHeight]; omega)
    rw [h.n_eq] at hle
    refine h2.add (.pedersen _) (fun k hk => (Option.some.inj hk).symm) rfl ?_
      (PedersenCells.Fits.isPlaced_of_mem hn ?_)
    · exact {
        isPowerOfTwo_step := hstep
        height_le := hrows.trans_le hle
        scalarBits_eq := rfl
        sum := SubsetSum.isArranged_ofColumns
        unpacking := ⟨rfl, rfl⟩
        input0 := hinput0.congr hrows
        input1 := hinput1.congr hrows
        output := houtput.congr hrows }
    exact {
      sum := SubsetSum.fits_ofColumns hstep (by omega) (by decide) (hcolumn 0 (by decide))
        (hcolumn 1 (by decide)) (hcolumn 2 (by decide)) (hcolumn 3 (by decide))
      height_le := hrows.trans_le hle
      unpacking_lt := hcolumn 4 (by decide)
      input0_lt := hinput0.column_eq.trans_lt (memoryPool_lt _)
      input1_lt := hinput1.column_eq.trans_lt (memoryPool_lt _)
      output_lt := houtput.column_eq.trans_lt (memoryPool_lt _)
      periodic_lt := Nat.lt_succ_self _
      hint := LayoutConfig.mem_hints_of_has (by decide) hhas }

theorem addRangeCheck_placed {config : RangeCheckConfig} (hn : isPowerOfTwo n = true)
    (hconfig : c.rangeCheck = some config)
    (hparts : isPowerOfTwo config.parts = true ∧ config.parts ≤ config.ratio * cycleHeight)
    (h : a.Placed c n) (hadd : addRangeCheck config a = .ok a') : a'.Placed c n := by
  simp only [addRangeCheck, Result.bind_eq_ok_iff, Prod.exists] at hadd
  obtain ⟨height, hheight, memory, a0, h0, parts, a1, h1, heq⟩ := hadd
  obtain ⟨rfl, hle⟩ := instanceHeight_eq_ok hheight
  obtain ⟨hmemory, hplaced⟩ := h.allocateMemory h0
  obtain ⟨⟨hcolumn, hstep, hoffset⟩, h1⟩ := hplaced.allocateRangeCheck h1
  obtain rfl := Except.ok.inj heq
  have hhas : c.has .rangeCheck = true := by simp [LayoutConfig.has, hconfig]
  rw [h.n_eq] at hle
  have hheight : RangeCheckCells.height ⟨config.parts, memory, parts⟩ =
      cycleHeight * config.ratio := hmemory.step_eq
  refine h1.add (.rangeCheck _) (fun _ h => by cases h) rfl ?_
    (RangeCheckCells.Fits.isPlaced_of_mem hn ?_)
  · refine ⟨hheight.trans_le hle, hmemory.congr hheight, hcolumn, hstep ▸ hoffset, ?_⟩
    rw [hheight, hstep]
    refine Nat.mul_div_cancel' (dvd_of_isPowerOfTwo hparts.1 hmemory.isPowerOfTwo_step ?_)
    rw [mul_comm]
    exact hparts.2
  exact {
    isPowerOfTwo_height := hheight ▸ hmemory.isPowerOfTwo_step
    height_le := hheight.trans_le hle
    memory_lt := hmemory.column_eq.trans_lt (memoryPool_lt _)
    parts_lt := hcolumn.trans_lt (ColumnStarts.plain_lt (by decide))
    hint := LayoutConfig.mem_hints_of_has (by decide) hhas }

theorem addEcdsa_placed {ratio : Nat} (hn : isPowerOfTwo n = true) (hconfig : c.ecdsa = some ratio)
    (hratio : isPowerOfTwo ratio = true ∧ 32 ≤ ratio) (h : a.Placed c n)
    (hadd : addEcdsa ratio a = .ok a') : a'.Placed c n := by
  simp only [addEcdsa, Result.bind_eq_ok_iff, Prod.exists] at hadd
  obtain ⟨height, hheight, pubkey, a0, h0, message, a1, h1, heq⟩ := hadd
  obtain ⟨rfl, hle⟩ := instanceHeight_eq_ok hheight
  obtain ⟨hpubkey, h0⟩ := h.allocateMemory h0
  obtain ⟨hmessage, h1⟩ := h0.allocateMemory h1
  obtain rfl := Except.ok.inj heq
  have hhas : c.has .ecdsa = true := by simp [LayoutConfig.has, hconfig]
  have hcolumn (k : Nat) (hk : k < 14) : a.starts.ecdsa + k < (namesOf c).length := by
    rw [h.starts_eq]
    exact ColumnStarts.ecdsa_lt hhas hk
  have hheight := isPowerOfTwo_height hratio.1
  obtain ⟨hkey, hkeyRows⟩ := isPowerOfTwo_sumStep 2 hheight (by decide)
    (by simp only [SubsetSum.steps, cycleHeight]; omega)
  obtain ⟨hgenerator, hgeneratorRows⟩ := isPowerOfTwo_sumStep 1 hheight (by decide)
    (by simp only [SubsetSum.steps, cycleHeight]; omega)
  simp only [one_mul] at hgenerator hgeneratorRows
  rw [h.n_eq] at hle
  refine h1.add (.ecdsa _) (fun k hk => (Option.some.inj hk).symm) rfl ?_
    (EcdsaCells.Fits.isPlaced_of_mem hn ?_)
  · exact {
      isPowerOfTwo_step := hkey
      generator_step := Nat.div_eq_of_eq_mul_right (by decide)
        (hkeyRows.symm.trans (Nat.mul_left_comm _ _ _))
      height_le := hgeneratorRows.trans_le hle
      key_scalarBits := rfl
      generator_scalarBits := rfl
      key := SubsetSum.isArranged_ofColumns
      keyXDiffInv := ⟨rfl, rfl⟩
      doubling := ⟨⟨rfl, rfl⟩, ⟨rfl, rfl⟩, ⟨rfl, rfl⟩⟩
      generator := SubsetSum.isArranged_ofColumns
      generatorXDiffInv := ⟨rfl, rfl⟩
      pubkey := hpubkey.congr hgeneratorRows
      message := hmessage.congr hgeneratorRows }
  exact {
    key := SubsetSum.fits_ofColumns hkey (by omega) (by decide) (hcolumn 0 (by decide))
      (hcolumn 1 (by decide)) (hcolumn 2 (by decide)) (hcolumn 3 (by decide))
    keyXDiffInv_lt := hcolumn 4 (by decide)
    doubling := ⟨hcolumn 5 (by decide), hcolumn 6 (by decide), hcolumn 7 (by decide)⟩
    generator := SubsetSum.fits_ofColumns hgenerator (by omega) (by decide) (hcolumn 8 (by decide))
      (hcolumn 9 (by decide)) (hcolumn 10 (by decide)) (hcolumn 11 (by decide))
    generatorXDiffInv_lt := hcolumn 12 (by decide)
    cells_lt := hcolumn 13 (by decide)
    pubkey_lt := hpubkey.column_eq.trans_lt (memoryPool_lt _)
    message_lt := hmessage.column_eq.trans_lt (memoryPool_lt _)
    periodic_lt := Nat.lt_succ_self _
    hint := LayoutConfig.mem_hints_of_has (by decide) hhas }

theorem addEcOp_placed {ratio : Nat} (hn : isPowerOfTwo n = true) (hconfig : c.ecOp = some ratio)
    (hratio : isPowerOfTwo ratio = true ∧ 16 ≤ ratio) (h : a.Placed c n)
    (hadd : addEcOp ratio a = .ok a') : a'.Placed c n := by
  simp only [addEcOp, Result.bind_eq_ok_iff, Prod.exists] at hadd
  obtain ⟨height, hheight, memory, a0, h0, heq⟩ := hadd
  obtain ⟨rfl, hle⟩ := instanceHeight_eq_ok hheight
  obtain ⟨hmemory, h0⟩ := h.allocateMemory h0
  obtain rfl := Except.ok.inj heq
  have hhas : c.has .ecOp = true := by simp [LayoutConfig.has, hconfig]
  have hcolumn (k : Nat) (hk : k < 9) : a.starts.ecOp + k < (namesOf c).length := by
    rw [h.starts_eq]
    exact ColumnStarts.ecOp_lt hhas hk
  obtain ⟨hstep, hrows⟩ := isPowerOfTwo_sumStep 1 (isPowerOfTwo_height hratio.1)
    (by decide) (by simp only [SubsetSum.steps, cycleHeight]; omega)
  simp only [one_mul] at hstep hrows
  rw [h.n_eq] at hle
  refine h0.add (.ecOp _) (fun _ h => by cases h) rfl ?_ (EcOpCells.Fits.isPlaced_of_mem hn ?_)
  · exact {
      isPowerOfTwo_step := hstep
      height_le := hrows.trans_le hle
      scalarBits_eq := rfl
      sum := SubsetSum.isArranged_ofColumns
      xDiffInv := ⟨rfl, rfl⟩
      doubling := ⟨⟨rfl, rfl⟩, ⟨rfl, rfl⟩, ⟨rfl, rfl⟩⟩
      unpacking := ⟨rfl, rfl⟩
      memory := hmemory.congr (congrArg (· / EcOpCells.memoryPlaces) hrows) }
  exact {
    sum := SubsetSum.fits_ofColumns hstep (by omega) (by decide) (hcolumn 0 (by decide))
      (hcolumn 1 (by decide)) (hcolumn 4 (by decide)) (hcolumn 2 (by decide))
    xDiffInv_lt := hcolumn 3 (by decide)
    doubling := ⟨hcolumn 5 (by decide), hcolumn 6 (by decide), hcolumn 7 (by decide)⟩
    unpacking_lt := hcolumn 8 (by decide)
    memory_lt := hmemory.column_eq.trans_lt (memoryPool_lt _)
    hint := LayoutConfig.mem_hints_of_has (by decide) hhas }

theorem addBitwise_placed {dilution : Dilution} {ratio : Nat} (hn : isPowerOfTwo n = true)
    (hdilution : c.dilution = some dilution) (h : a.Placed c n)
    (hadd : addBitwise dilution ratio a = .ok a') : a'.Placed c n := by
  simp only [addBitwise, Result.bind_eq_ok_iff, Prod.exists, Result.throw_bind,
    Result.ite_error_eq_ok_iff] at hadd
  obtain ⟨height, hheight, hstrands, values, a0, h0, disjunction, a1, h1, heq⟩ := hadd
  obtain ⟨rfl, hle⟩ := instanceHeight_eq_ok hheight
  obtain ⟨hvalues, hplaced⟩ := h.allocateMemory h0
  obtain ⟨hdisjunction, h1⟩ := hplaced.allocateMemory h1
  obtain rfl := Except.ok.inj heq
  have hsome : c.dilution.isSome = true := by rw [hdilution, Option.isSome_some]
  have hhas : c.has .bitwise = true := c.isSome_dilution.symm.trans hsome
  rw [not_or, not_or, not_not, not_not, not_lt] at hstrands
  obtain ⟨hmod, hstrandStep, hleast⟩ := hstrands
  have hpool : a1.starts.diluted < (namesOf c).length := by
    rw [h1.starts_eq]
    exact ColumnStarts.diluted_lt (k := 0) hsome (by decide)
  have hheight : disjunction.step = BitwiseCells.valueCount * values.step := by
    rw [hdisjunction.step_eq, hvalues.step_eq]
    simp only [cycleHeight, BitwiseCells.valueCount]
    omega
  -- an instance has at least one strand, as its strands would otherwise have no rows between them
  have hrows := Nat.mul_div_cancel' (Nat.dvd_of_mod_eq_zero hmod)
  have hpos : 0 < dilution.strands := by
    refine Nat.pos_of_ne_zero fun hzero => ?_
    rw [hzero, mul_zero, Nat.div_zero] at hleast
    omega
  rw [← hdisjunction.step_eq] at hstrandStep hrows hleast
  rw [h.n_eq, ← hdisjunction.step_eq] at hle
  refine h1.add (.bitwise _) (fun _ h => by cases h) rfl ?_
    (BitwiseCells.Fits.isPlaced_of_mem hn ?_)
  · exact {
      dilution := hdilution
      height_le := hle
      strands_mul_step := hrows
      isPowerOfTwo_strandStep := hstrandStep
      two_le_strandStep := hleast
      height_eq := hheight
      values := hvalues.congr hvalues.step_eq
      disjunction := hdisjunction.congr hdisjunction.step_eq }
  exact {
    isPowerOfTwo_values := hvalues.step_eq.symm ▸ hvalues.isPowerOfTwo_step
    height_eq := hheight
    height_le := hle
    isPowerOfTwo_strandStep := hstrandStep
    strandStep_le := (Nat.mul_le_mul_right _ (Nat.le_mul_of_pos_right _ hpos)).trans
      (hrows.trans_le hle)
    pool_lt := hpool
    values_lt := hvalues.column_eq.trans_lt (memoryPool_lt _)
    disjunction_lt := hdisjunction.column_eq.trans_lt (memoryPool_lt _)
    hint := LayoutConfig.mem_hints_of_has (by decide) hhas }

/-! ## From the first component to the last -/

/-- The components without instances have no cells to arrange, nor periodic columns. -/
theorem initial_component {component : Component} (h : component ∈ (initial c n).components) :
    component.periodicIndex = none ∧ component.IsArranged c n := by
  revert component
  simp only [initial, List.forall_mem_append, List.forall_mem_cons]
  refine ⟨⟨⟨⟨rfl, trivial⟩, ⟨rfl, trivial⟩, ⟨rfl, trivial⟩, nofun⟩, ?_⟩, ?_⟩
  · cases c.dilution with
    | none => nofun
    | some dilution => simp [Component.periodicIndex, Component.IsArranged]
  · cases c.output <;> simp [Component.periodicIndex, Component.IsArranged]

theorem initial_placed (hn : isPowerOfTwo n = true) (hle : cycleHeight ≤ n) :
    (initial c n).Placed c n where
  n_eq := rfl
  starts_eq := rfl
  memory_column := rfl
  rangeCheck_column := rfl
  memory_granularity := rfl
  pools_eq := rfl
  arePeriodic := by
    intro component hcomponent k hk
    rw [(initial_component hcomponent).1] at hk
    cases hk
  isArranged := fun component hcomponent => (initial_component hcomponent).2
  periodicCount_eq := by
    cases hdilution : c.dilution <;> cases houtput : c.output <;>
      simp [initial, hdilution, houtput, Component.periodicCount]
  isPlaced := by
    have hcolumns : 6 ≤ (c.supply 0).columns := ColumnStarts.plain_lt (k := 5) (by decide)
    have hproducts (k : Nat) (hk : k < 2) :
        (ColumnStarts.ofConfig c).interaction + k < (c.supply 0).columns :=
      ColumnStarts.interaction_lt hk
    have hchallenges := LayoutConfig.plainChallenges_le (c := c) 0
    simp only [initial, List.forall_mem_append, List.forall_mem_cons]
    refine ⟨⟨⟨?_, ?_, ?_, by simp⟩, ?_⟩, ?_⟩
    · intro k hk
      refine Cpu.isPlaced_of_mem hn hle ⟨hcolumns, le_rfl, Nat.zero_le _, fun h hmem => ?_⟩ hk
      exact LayoutConfig.mem_hints_of_plain (List.mem_append_left [_, _, _] hmem)
    · exact MemoryCheck.isPlaced_of_mem hn hle hcolumns (hproducts 1 (by decide))
        (le_trans (by decide) hchallenges) (LayoutConfig.mem_hints_of_plain (by decide))
    · exact RangeCheck16.isPlaced_of_mem hn hcolumns (hproducts 0 (by decide)) hchallenges
        (LayoutConfig.mem_hints_of_plain (by decide)) (LayoutConfig.mem_hints_of_plain (by decide))
    · cases hdilution : c.dilution with
      | none => simp
      | some dilution =>
        have hsome : c.dilution.isSome = true := by rw [hdilution, Option.isSome_some]
        simp only [Option.map_some, Option.toList_some, List.mem_singleton, forall_eq]
        exact DilutedCheck.isPlaced_of_mem hn {
          pool_lt := ColumnStarts.diluted_lt (k := 0) hsome (by decide)
          sorted_lt := ColumnStarts.diluted_lt (k := 1) hsome (by decide)
          products_lt := ColumnStarts.interaction_lt_of_dilution (k := 2) hsome (by decide)
          aggregate_lt := ColumnStarts.interaction_lt_of_dilution (k := 3) hsome (by decide)
          challenges_le := LayoutConfig.dilutedChallenges_le hsome 0
          hint := LayoutConfig.mem_hints_of_dilution hsome }
    · cases c.output <;> simp [Component.constraints]

/-- Adding a builtin if there is one keeps what adding it keeps. -/
theorem placed_of_whenSome {α : Type} {x : Option α} {step : α → Except LayoutError Assembly}
    (hstep : ∀ v, x = some v → step v = .ok a' → a'.Placed c n) (h : a.Placed c n)
    (hadd : (match x with
      | some v => step v
      | none => .ok a) = .ok a') : a'.Placed c n := by
  cases x with
  | none => exact Except.ok.inj hadd ▸ h
  | some v => exact hstep v rfl hadd

theorem addBuiltins_placed {params : Option Pedersen.Params} (hn : isPowerOfTwo n = true)
    (hc : c.Valid) (h : a.Placed c n) (hadd : a.addBuiltins c params = .ok a') :
    a'.Placed c n := by
  simp only [addBuiltins, Result.bind_eq_ok_iff] at hadd
  obtain ⟨a0, h0, a1, h1, a2, h2, a3, h3, h4⟩ := hadd
  have hpedersen := placed_of_whenSome (fun ratio heq =>
    addPedersen_placed hn heq (hc.pedersen ratio heq) h) h h0
  have hrange := placed_of_whenSome (fun r heq =>
    addRangeCheck_placed hn heq (hc.rangeCheck r heq).2 hpedersen) hpedersen h1
  have hecdsa := placed_of_whenSome (fun ratio heq =>
    addEcdsa_placed hn heq (hc.ecdsa ratio heq) hrange) hrange h2
  have hbitwise : a3.Placed c n := by
    refine placed_of_whenSome (fun v heq => ?_) hecdsa h3
    obtain ⟨dilution, hdilution, hv⟩ := Option.bind_eq_some_iff.mp heq
    obtain ⟨bitwise, -, hv⟩ := Option.bind_eq_some_iff.mp hv
    obtain rfl := Option.some.inj hv
    exact addBitwise_placed hn hdilution hecdsa
  exact placed_of_whenSome (fun ratio heq =>
    addEcOp_placed hn heq (hc.ecOp ratio heq) hbitwise) hbitwise h4

end Layout.Assembly

/-! ## Layouts -/

theorem Component.length_of_periodicColumns {n : Nat} {component : Component}
    {columns : List PeriodicColumn} (h : component.periodicColumns n = .ok columns) :
    columns.length = component.periodicCount ∧ ∀ p ∈ columns, p.IsFor n := by
  have hpair {x y : Except ConstraintError PeriodicColumn}
      (hx : ∀ p, x = .ok p → p.IsFor n) (hy : ∀ p, y = .ok p → p.IsFor n)
      (hxy : (do return [← x, ← y]) = .ok columns) :
      columns.length = 2 ∧ ∀ p ∈ columns, p.IsFor n := by
    simp only [Result.bind_eq_ok_iff, Result.pure_eq_ok, Except.ok.injEq] at hxy
    obtain ⟨p, hp, q, hq, rfl⟩ := hxy
    refine ⟨rfl, ?_⟩
    rw [List.forall_mem_cons, List.forall_mem_singleton]
    exact ⟨hx p hp, hy q hq⟩
  cases component with
  | pedersen cells | ecdsa cells =>
    exact hpair (fun _ => PeriodicColumn.isFor_of_ofValues)
      (fun _ => PeriodicColumn.isFor_of_ofValues) h
  | _ =>
    obtain rfl := Except.ok.inj h
    simp [periodicCount]

/-- The periodic columns of components are as many as are counted. -/
theorem Component.length_flatten_periodicColumns {n : Nat} {components : List Component}
    {periodic : List (List PeriodicColumn)}
    (h : components.mapM (periodicColumns n) = .ok periodic) :
    periodic.flatten.length = (components.map (·.periodicCount)).sum ∧
      ∀ p ∈ periodic.flatten, p.IsFor n := by
  rw [Result.mapM_eq_ok_iff] at h
  induction h with
  | nil => simp
  | cons hcolumns _ ih =>
    obtain ⟨hlength, hfor⟩ := length_of_periodicColumns hcolumns
    rw [List.flatten_cons, List.length_append, List.map_cons, List.sum_cons, hlength, ih.1,
      List.forall_mem_append]
    exact ⟨rfl, hfor, ih.2⟩

namespace Layout

/-- What a layout supplies. -/
def supply (l : Layout) : Supply where
  columns := l.columnNames.length
  periodic := l.periodic.length
  challenges := l.challengeCount
  hints := l.config.hints

/-- What holds of a layout that has been built. -/
structure WellFormed (l : Layout) : Prop where
  isPowerOfTwo : isPowerOfTwo l.traceLength = true
  periodic : ∀ p ∈ l.periodic, p.IsFor l.traceLength
  isPlaced : ∀ c ∈ l.constraints, c.IsPlaced l.traceLength l.supply
  mask_eq : l.mask = deriveMask l.constraints

variable {c : LayoutConfig} {n modulus : Nat} {params : Option Pedersen.Params} {l : Layout}

/-- A layout that is built has the components that have been placed, and their periodic columns. -/
theorem exists_placed_of_build (h : build c n params modulus = .ok l) :
    ∃ (a : Assembly) (periodic : List (List PeriodicColumn)),
      isPowerOfTwo n = true ∧ c.Valid ∧ a.Placed c n ∧
      a.components.mapM (Component.periodicColumns n) = .ok periodic ∧ l = {
        config := c
        traceLength := n
        columnNames := namesOf c
        mainColumns := a.starts.interaction
        challengeCount := if c.dilution.isSome then dilutedChallenges else plainChallenges
        components := a.components
        constraints := a.components.flatMap (·.constraints)
        periodic := periodic.flatten
        mask := deriveMask (a.components.flatMap (·.constraints)) } := by
  simp only [build, Result.throw_bind, Result.ite_error_eq_ok_iff, Result.bind_eq_ok_iff,
    Result.mapError_eq_ok_iff] at h
  obtain ⟨-, _, hvalid, hn, assembly, hadd, periodic, hperiodic, heq⟩ := h
  rw [not_or, not_not, not_lt] at hn
  have hc := LayoutConfig.validate_eq_ok_iff.mp hvalid
  exact ⟨assembly, periodic, hn.1, hc,
    Assembly.addBuiltins_placed hn.1 hc (Assembly.initial_placed hn.1 hn.2) hadd, hperiodic,
    (Except.ok.inj heq).symm⟩

/-- A layout is built if its builtins and their periodic columns have room in the trace. -/
theorem exists_build_eq_ok (hc : c.Valid) (hn : isPowerOfTwo n = true) (hle : cycleHeight ≤ n)
    {a : Assembly} (ha : (Assembly.initial c n).addBuiltins c params = .ok a)
    (hperiodic : ∀ k ∈ a.components, k.IsArranged c n →
      ∃ columns, k.periodicColumns n = .ok columns) :
    ∃ l, build c n params = .ok l ∧ l.components = a.components := by
  have hplaced := Assembly.addBuiltins_placed hn hc (Assembly.initial_placed hn hle) ha
  obtain ⟨periodic, hperiodic⟩ := Result.exists_mapM_eq_ok_iff.mpr fun k hk =>
    hperiodic k hk (hplaced.isArranged k hk)
  simp only [build, Result.throw_bind, Result.ite_error_eq_ok_iff, Result.bind_eq_ok_iff,
    Result.mapError_eq_ok_iff]
  exact ⟨_, ⟨fun h => h rfl, (), LayoutConfig.validate_eq_ok_iff.mpr hc,
    fun h => h.elim (fun h => h hn) (Nat.not_lt.mpr hle), a, ha, periodic, hperiodic, rfl⟩, rfl⟩

theorem build_eq_ok (h : build c n params modulus = .ok l) :
    l.config = c ∧ l.traceLength = n ∧ l.WellFormed := by
  obtain ⟨assembly, periodic, hn, -, hplaced, hperiodic, rfl⟩ := exists_placed_of_build h
  obtain ⟨hlength, hfor⟩ := Component.length_flatten_periodicColumns hperiodic
  refine ⟨rfl, rfl, hn, hfor, fun k hk => ?_, rfl⟩
  obtain ⟨component, hcomponent, hk⟩ := List.mem_flatMap.mp hk
  have hsupply := hplaced.isPlaced component hcomponent k hk
  rwa [hplaced.periodicCount_eq, ← hlength] at hsupply

/-- The periodic columns of a component are where its constraints read them. -/
theorem periodic_of_build (h : build c n params modulus = .ok l) {component : Component}
    (hmem : component ∈ l.components) {k : Nat} (hk : component.periodicIndex = some k) :
    ∃ columns, component.periodicColumns n = .ok columns ∧
      ∀ j < columns.length, l.periodic[k + j]? = columns[j]? := by
  obtain ⟨assembly, periodic, -, -, hplaced, hperiodic, rfl⟩ := exists_placed_of_build h
  obtain ⟨before, after, heq, rfl⟩ := hplaced.arePeriodic component hmem k hk
  rw [heq, List.mapM_append] at hperiodic
  obtain ⟨first, hfirst, hperiodic⟩ := Result.bind_eq_ok_iff.mp hperiodic
  obtain ⟨rest, hrest, hperiodic⟩ := Result.bind_eq_ok_iff.mp hperiodic
  obtain rfl := Except.ok.inj hperiodic
  rw [List.mapM_cons] at hrest
  obtain ⟨columns, hcolumns, hrest⟩ := Result.bind_eq_ok_iff.mp hrest
  obtain ⟨last, -, hrest⟩ := Result.bind_eq_ok_iff.mp hrest
  obtain rfl := Except.ok.inj hrest
  refine ⟨columns, hcolumns, fun j hj => ?_⟩
  rw [← (Component.length_flatten_periodicColumns hfirst).1, List.flatten_append,
    List.flatten_cons, List.getElem?_append_right (Nat.le_add_right _ _), Nat.add_sub_cancel_left,
    List.getElem?_append_left hj]

theorem le_traceLength_of_build (h : build c n params modulus = .ok l) : cycleHeight ≤ n := by
  simp only [build, Result.throw_bind, Result.ite_error_eq_ok_iff, Result.bind_eq_ok_iff] at h
  obtain ⟨-, _, -, hn, -⟩ := h
  rw [not_or, not_lt] at hn
  exact hn.2

/-- The components of a layout that are made of pools are those it starts with. -/
theorem pools_of_build (h : build c n params modulus = .ok l) :
    l.mainColumns = (ColumnStarts.ofConfig c).interaction ∧ l.columnNames = namesOf c ∧
      l.components.filter (·.isPool) = (Assembly.initial c n).components.filter (·.isPool) := by
  obtain ⟨assembly, periodic, -, -, hplaced, -, rfl⟩ := exists_placed_of_build h
  exact ⟨congrArg (·.interaction) hplaced.starts_eq, rfl, hplaced.pools_eq⟩

/-- The components of a layout that is built are where the configuration puts them. -/
theorem isArranged_of_build (h : build c n params modulus = .ok l) :
    isPowerOfTwo n = true ∧ c.Valid ∧ ∀ component ∈ l.components, component.IsArranged c n := by
  obtain ⟨assembly, periodic, hn, hc, hplaced, -, rfl⟩ := exists_placed_of_build h
  exact ⟨hn, hc, hplaced.isArranged⟩

/-- The domains of constraints fit in the trace. -/
theorem fits_of_build (h : build c n params modulus = .ok l) {component : Component}
    (hmem : component ∈ l.components) {k : Constraint} (hk : k ∈ component.constraints) :
    k.domain.fits n = true := by
  obtain ⟨assembly, periodic, -, -, hplaced, -, rfl⟩ := exists_placed_of_build h
  exact (hplaced.isPlaced component hmem k hk).rows.domain_fits

/-- A constraint of a component holds if it does on the rows of each instance. -/
theorem holds_iff_holdsOnInstance (h : build c n params modulus = .ok l) {component : Component}
    (hmem : component ∈ l.components) {k : Constraint} (hk : k ∈ component.constraints)
    {height : Nat} (hheight : isPowerOfTwo height = true) (hle : height ≤ n)
    {columns : List (Array Felt)} {periodic : List PeriodicColumn} {b : Bindings} :
    k.Holds n columns periodic b ↔
      ∀ i < n / height, k.HoldsOnInstance n columns periodic b height i := by
  obtain ⟨hn, -, -⟩ := isArranged_of_build h
  exact Constraint.holds_iff_holdsOnInstance
    (Rows.isResidueClass_of_fits hn (fits_of_build h hmem hk)) (dvd_of_isPowerOfTwo hheight hn hle)

end Layout

end CairoTrace
