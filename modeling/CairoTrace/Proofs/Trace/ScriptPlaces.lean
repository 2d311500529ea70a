import CairoTrace.Proofs.Trace.ComponentPlaces
import CairoTrace.Proofs.Trace.Interaction
import CairoTrace.Trace.Basic

/-!
# The places of a trace

No two components of a layout have a place in common (`Layout.pairwise_owns_of_build`). As each of
them writes none of its places twice, no place of the trace is written twice
(`Layout.nodup_places_of_build`), and no access to memory is on a row that is kept for the public
memory (`Layout.mod_ne_of_mem_accessRows`).
-/

namespace CairoTrace

open Write (places accessRows cellColumns)

namespace Component

/-- The rows of the slots of memory are even. -/
theorem two_dvd_row {c : Component} {config : LayoutConfig} {n : Nat}
    (harranged : c.IsArranged config n) {slot : VirtualColumn} (hslot : slot ∈ c.memorySlots)
    (j : Nat) : 2 ∣ slot.row j := by
  have heven {step : Nat} (h : slot.IsMemorySlot step) : 2 ∣ slot.row j := by
    simpa only [one_mul, add_zero] using (h.row_mem_instance (i := j) one_pos).1
  have hfixed (hstep : 2 ∣ slot.step) (hoffset : 2 ∣ slot.offset) : 2 ∣ slot.row j :=
    dvd_add hoffset (hstep.mul_right j)
  cases c with
  | cpu =>
    have hcpu : ∀ slot ∈ Component.cpu.memorySlots, 2 ∣ slot.step ∧ 2 ∣ slot.offset := by decide
    exact hfixed (hcpu slot hslot).1 (hcpu slot hslot).2
  | memory products =>
    obtain rfl := List.mem_singleton.mp hslot
    exact hfixed (by decide) (by decide)
  | rangeCheck16 | dilutedCheck | output => cases hslot
  | pedersen cells =>
    simp only [memorySlots, List.mem_cons, List.not_mem_nil, or_false] at hslot
    rcases hslot with rfl | rfl | rfl
    · exact heven harranged.input0
    · exact heven harranged.input1
    · exact heven harranged.output
  | rangeCheck cells =>
    obtain rfl := List.mem_singleton.mp hslot
    exact heven harranged.memory
  | ecdsa cells =>
    rcases List.mem_pair.mp hslot with rfl | rfl
    · exact heven harranged.pubkey
    · exact heven harranged.message
  | bitwise cells =>
    rcases List.mem_pair.mp hslot with rfl | rfl
    · exact heven harranged.values
    · exact heven harranged.disjunction
  | ecOp cells =>
    obtain rfl := List.mem_singleton.mp hslot
    exact heven harranged.memory

/-- The columns of a pool and of its sorted copy. -/
def poolColumns : Component → List Nat
  | memory _ => [Column.memoryPool, Column.memorySorted]
  | rangeCheck16 _ => [Column.rangeCheckPool, Column.rangeCheckSorted]
  | dilutedCheck check => [check.pool, check.sorted]
  | _ => []

end Component

namespace Layout

variable {c : LayoutConfig} {n modulus : Nat} {params : Option Pedersen.Params} {l : Layout}

/-! ## Components -/

/-- The pools are not among the columns of a component. -/
theorem ne_pool_of_mem_ownColumns (h : build c n params modulus = .ok l) {component : Component}
    (hmem : component ∈ l.components) {k : Nat} (hk : k ∈ component.ownColumns) :
    k ≠ Column.memoryPool ∧ k ≠ Column.rangeCheckPool ∧ k < l.mainColumns := by
  rw [(pools_of_build h).1]
  rcases mem_ownColumns_of_build h hmem hk with ⟨-, hplain⟩ | ⟨b, -, hb, hcolumn⟩
  · have hinteraction := ColumnStarts.plain_le_interaction (c := c)
    rcases List.mem_pair.mp hplain with rfl | rfl
    · exact ⟨by decide, by decide, lt_of_lt_of_le (by decide) hinteraction⟩
    · exact ⟨by decide, by decide, lt_of_lt_of_le (by decide) hinteraction⟩
  · obtain ⟨hplain, hlt⟩ := ColumnStarts.lt_of_mem hb hcolumn
    exact ⟨(lt_trans (by decide) hplain).ne', (lt_trans (by decide) hplain).ne', hlt⟩

theorem lt_mainColumns_of_owns (h : build c n params modulus = .ok l) {component : Component}
    (hmem : component ∈ l.components) {p : Nat × Nat} (hp : component.Owns p) :
    p.1 < l.mainColumns := by
  have hinteraction := ColumnStarts.plain_le_interaction (c := c)
  rw [← (pools_of_build h).1] at hinteraction
  rcases hp with ⟨hcolumn, -⟩ | ⟨hcolumn, -⟩ | hown
  · exact hcolumn ▸ lt_of_lt_of_le (by decide) hinteraction
  · exact hcolumn ▸ lt_of_lt_of_le (by decide) hinteraction
  · exact (ne_pool_of_mem_ownColumns h hmem hown).2.2

/-- No two components have a column in common. -/
theorem pairwise_ownColumns_of_build (h : build c n params modulus = .ok l) :
    l.components.Pairwise fun a b => ∀ k ∈ a.ownColumns, ∀ k' ∈ b.ownColumns, k ≠ k' := by
  have hbuiltins : (l.components.filterMap (·.builtin)).Pairwise (· ≠ ·) := by
    rw [builtins_of_build h]
    exact List.Nodup.filter _ (by decide)
  rw [List.pairwise_filterMap] at hbuiltins
  have hslots := (List.pairwise_flatMap.mp (pairwise_separate_of_build h).1).2
  refine (hslots.and hbuiltins).imp_of_mem fun {a b} ha hb ⟨hslots, hbuiltins⟩ k hk k' hk' => ?_
  have hplain {k : Nat} (hk : k ∈ [Column.flags, Column.registers]) : k ≤ Column.registers := by
    rcases List.mem_pair.mp hk with rfl | rfl <;> decide
  rcases mem_ownColumns_of_build h ha hk with ⟨rfl, hk⟩ | ⟨ba, hba, hhas, hk⟩
  · rcases mem_ownColumns_of_build h hb hk' with ⟨rfl, -⟩ | ⟨bb, -, hhas', hk'⟩
    · -- there is one processor only, as a slot is not apart from itself
      exact absurd rfl (hslots Cpu.pc (by decide) Cpu.pc (by decide) 0 0)
    · exact ((hplain hk).trans_lt (ColumnStarts.lt_of_mem hhas' hk').1).ne
  · rcases mem_ownColumns_of_build h hb hk' with ⟨rfl, hk'⟩ | ⟨bb, hbb, hhas', hk'⟩
    · exact ((hplain hk').trans_lt (ColumnStarts.lt_of_mem hhas hk).1).ne'
    · exact ColumnStarts.ne_of_bounds (hbuiltins ba hba bb hbb)
        (ColumnStarts.bounds_of_mem hhas hk) (ColumnStarts.bounds_of_mem hhas' hk')

/-- No two components have a place in common. -/
theorem pairwise_owns_of_build (h : build c n params modulus = .ok l) :
    l.components.Pairwise fun a b => ∀ p, a.Owns p → ¬ b.Owns p := by
  obtain ⟨-, -, harranged⟩ := isArranged_of_build h
  obtain ⟨hmemory, hrange⟩ := pairwise_separate_of_build h
  have hapart := ((List.pairwise_flatMap.mp hmemory).2.and (List.pairwise_flatMap.mp hrange).2).and
    (pairwise_ownColumns_of_build h)
  refine hapart.imp_of_mem fun {a b} ha hb ⟨⟨hmemory, hrange⟩, hcolumns⟩ p hpa hpb => ?_
  have hpools : Column.memoryPool ≠ Column.rangeCheckPool := by decide
  rcases hpa with ⟨hcolumn, s, hs, i, hi⟩ | ⟨hcolumn, s, hs, i, hi⟩ | hown
  · rcases hpb with ⟨-, t, ht, j, hj⟩ | ⟨hcolumn', -⟩ | hown'
    · have hne := hmemory s hs t ht i j
      have heven := Component.two_dvd_row (harranged a ha) hs i
      have heven' := Component.two_dvd_row (harranged b hb) ht j
      omega
    · exact hpools (hcolumn.symm.trans hcolumn')
    · exact (ne_pool_of_mem_ownColumns h hb hown').1 hcolumn
  · rcases hpb with ⟨hcolumn', -⟩ | ⟨-, t, ht, j, hj⟩ | hown'
    · exact hpools (hcolumn'.symm.trans hcolumn)
    · exact hrange s hs t ht i j (hi.symm.trans hj)
    · exact (ne_pool_of_mem_ownColumns h hb hown').2.1 hcolumn
  · rcases hpb with ⟨hcolumn', -⟩ | ⟨hcolumn', -⟩ | hown'
    · exact (ne_pool_of_mem_ownColumns h ha hown).1 hcolumn'
    · exact (ne_pool_of_mem_ownColumns h ha hown).2.1 hcolumn'
    · exact hcolumns _ hown _ hown' rfl

/-! ## Scripts -/

/-- What the components of a layout write, one after the other. -/
def script (l : Layout) (i : PublicInput) (e : Execution) : List Write :=
  l.components.flatMap (·.script l.traceLength i e)

/-- The check of diluted numbers of a layout that has one. -/
def dilutedCheck? (l : Layout) : Option DilutedCheck :=
  l.components.findSome? fun
    | .dilutedCheck check => some check
    | _ => none

theorem mem_components_of_dilutedCheck? {check : DilutedCheck} (h : check ∈ l.dilutedCheck?) :
    Component.dilutedCheck check ∈ l.components := by
  obtain ⟨component, hmem, hcheck⟩ := List.exists_of_findSome?_eq_some h
  split at hcheck
  · obtain rfl := Option.some.inj hcheck
    exact hmem
  · cases hcheck

/-- The strands of words are written into the pool that is checked. -/
theorem pool_eq_of_dilutedCheck? (h : build c n params modulus = .ok l) {check : DilutedCheck}
    (hcheck : check ∈ l.dilutedCheck?) {cells : BitwiseCells}
    (hcells : Component.bitwise cells ∈ l.components) : check.pool = cells.pool := by
  have hpool : [cells.pool] = [(ColumnStarts.ofConfig c).diluted] :=
    ownColumns_of_build h hcells rfl
  rcases pool_of_build h (mem_components_of_dilutedCheck? hcheck) rfl with hpools | hpools | hpools
  · cases hpools
  · cases hpools
  · obtain ⟨dilution, -, heq⟩ := hpools
    cases heq
    exact (List.singleton_inj.mp hpool).symm

/-- Strands are the dilutions that are checked. -/
theorem dilution_eq_of_dilutedCheck? (h : build c n params modulus = .ok l) {check : DilutedCheck}
    (hcheck : check ∈ l.dilutedCheck?) {cells : BitwiseCells}
    (hcells : Component.bitwise cells ∈ l.components) : check.dilution = cells.dilution := by
  obtain ⟨-, -, harranged⟩ := isArranged_of_build h
  have harranged : cells.IsArranged c n := harranged _ hcells
  rcases pool_of_build h (mem_components_of_dilutedCheck? hcheck) rfl with hpools | hpools | hpools
  · cases hpools
  · cases hpools
  · obtain ⟨dilution, hdilution, heq⟩ := hpools
    cases heq
    exact Option.some.inj (hdilution.symm.trans harranged.dilution)

variable {i : PublicInput} {e : Execution}

theorem writesOwn_of_pool_eq (h : build c n params modulus = .ok l)
    (hsteps : e.registers.length = l.steps) {component : Component}
    (hmem : component ∈ l.components) {check : Option DilutedCheck}
    (hcheck : ∀ cells, component = .bitwise cells → ∀ d ∈ check, d.pool = cells.pool) :
    component.WritesOwn check n (component.script l.traceLength i e) := by
  obtain ⟨-, hlength, -⟩ := build_eq_ok h
  obtain ⟨-, -, harranged⟩ := isArranged_of_build h
  rw [hlength]
  refine Component.writesOwn_script (harranged component hmem) ?_ hcheck ?_
  · intro hbuiltin
    obtain ⟨b, hb⟩ := Option.isSome_iff_exists.mp hbuiltin
    exact isAllotted_of_build h hmem hb
  · rw [hsteps, steps, hlength]
    exact Nat.mul_div_le n cycleHeight

theorem writesOwn_of_build (h : build c n params modulus = .ok l)
    (hsteps : e.registers.length = l.steps) {component : Component}
    (hmem : component ∈ l.components) :
    component.WritesOwn l.dilutedCheck? n (component.script l.traceLength i e) := by
  refine writesOwn_of_pool_eq h hsteps hmem ?_
  rintro cells rfl check hcheck
  exact pool_eq_of_dilutedCheck? h hcheck hmem

/-- No place is written twice. -/
theorem nodup_places_of_build (h : build c n params modulus = .ok l)
    (hsteps : e.registers.length = l.steps) :
    (places l.dilutedCheck? (l.script i e)).Nodup := by
  rw [script, Write.places_flatMap, List.nodup_flatMap]
  refine ⟨fun component hmem => (writesOwn_of_build h hsteps hmem).nodup, ?_⟩
  refine (pairwise_owns_of_build h).imp_of_mem fun {a b} ha hb hapart p hpa hpb => ?_
  exact hapart p ((writesOwn_of_build h hsteps ha).owns p hpa)
    ((writesOwn_of_build h hsteps hb).owns p hpb)

/-- All places are in the main columns of the trace. -/
theorem lt_of_mem_places (h : build c n params modulus = .ok l)
    (hsteps : e.registers.length = l.steps) {p : Nat × Nat}
    (hp : p ∈ places l.dilutedCheck? (l.script i e)) : p.1 < l.mainColumns ∧ p.2 < n := by
  rw [script, Write.places_flatMap] at hp
  obtain ⟨component, hmem, hp⟩ := List.mem_flatMap.mp hp
  have hwrites := writesOwn_of_build (i := i) h hsteps hmem
  exact ⟨lt_mainColumns_of_owns h hmem (hwrites.owns p hp), hwrites.row_lt p hp⟩

/-- No access is on a row that is kept for the public memory. -/
theorem mod_ne_of_mem_accessRows (h : build c n params modulus = .ok l)
    (hsteps : e.registers.length = l.steps) {row : Nat} (hrow : row ∈ accessRows (l.script i e)) :
    row % publicMemoryStep ≠ publicMemoryOffset := by
  rw [script, Write.accessRows_flatMap] at hrow
  obtain ⟨component, hmem, hrow⟩ := List.mem_flatMap.mp hrow
  obtain ⟨slot, hslot, j, rfl⟩ := (writesOwn_of_build h hsteps hmem).accesses row hrow
  have hmemory : Component.memory (l.mainColumns + 1) ∈ l.components := by
    obtain ⟨hmain, -, hpools⟩ := pools_of_build h
    have hinitial : Component.memory (l.mainColumns + 1) ∈
        (Assembly.initial c n).components.filter (·.isPool) :=
      List.mem_filter.mpr ⟨hmain ▸ List.mem_append_left _ (List.mem_append_left _
        (List.mem_cons_of_mem _ List.mem_cons_self)), rfl⟩
    rw [← hpools] at hinitial
    exact (List.mem_filter.mp hinitial).1
  have hslots := (List.pairwise_flatMap.mp (pairwise_separate_of_build h).1).2
  have hne : component ≠ .memory (l.mainColumns + 1) := by
    rintro rfl
    exact absurd hrow List.not_mem_nil
  have hsymm : Std.Symm fun a b : Component => ∀ s ∈ a.memorySlots, ∀ t ∈ b.memorySlots,
      s.Separate t := ⟨fun a b hab s hs t ht i j heq => hab t ht s hs j i heq.symm⟩
  intro hpublic
  have hrow : slot.row j = MemoryCheck.publicAddress.row (slot.row j / publicMemoryStep) := by
    rw [VirtualColumn.row, VirtualColumn.row] at *
    conv_lhs => rw [← Nat.mod_add_div (slot.offset + slot.step * j) publicMemoryStep, hpublic]
    rfl
  exact hslots.forall hmem hmemory hne slot hslot _ (List.mem_singleton_self _) j _ hrow

theorem two_dvd_of_mem_accessRows (h : build c n params modulus = .ok l)
    (hsteps : e.registers.length = l.steps) {row : Nat} (hrow : row ∈ accessRows (l.script i e)) :
    2 ∣ row := by
  rw [script, Write.accessRows_flatMap] at hrow
  obtain ⟨component, hmem, hrow⟩ := List.mem_flatMap.mp hrow
  obtain ⟨slot, hslot, j, rfl⟩ := (writesOwn_of_build h hsteps hmem).accesses row hrow
  exact Component.two_dvd_row ((isArranged_of_build h).2.2 component hmem) hslot j

/-- The cells that are not written by way of a pool are not in the column of one. -/
theorem notMem_poolColumns (h : build c n params modulus = .ok l)
    (hsteps : e.registers.length = l.steps) {k : Nat} (hk : k ∈ cellColumns (l.script i e))
    {pool : Component} (hpool : pool ∈ l.components) : k ∉ pool.poolColumns := by
  rw [script, Write.cellColumns_flatMap] at hk
  obtain ⟨component, hmem, hk⟩ := List.mem_flatMap.mp hk
  have hk := (writesOwn_of_build h hsteps hmem).cells hk
  -- the column of a builtin is after the plain ones
  have hwritten : k ∈ [Column.flags, Column.registers] ∨ ∃ b ≠ Builtin.bitwise,
      c.has b = true ∧ k ∈ (ColumnStarts.ofConfig c).ofBuiltin b := by
    cases component with
    | bitwise => cases hk
    | _ =>
      rcases mem_ownColumns_of_build h hmem hk with ⟨-, hplain⟩ | ⟨b, hb, hhas, hcolumn⟩
      · exact Or.inl hplain
      · refine Or.inr ⟨b, ?_, hhas, hcolumn⟩
        rintro rfl
        cases hb
  by_cases hispool : pool.isPool = true
  · have hplain : k ≠ Column.memoryPool ∧ k ≠ Column.memorySorted ∧ k ≠ Column.rangeCheckPool ∧
        k ≠ Column.rangeCheckSorted := by
      rcases hwritten with hplain | ⟨b, -, hhas, hcolumn⟩
      · rcases List.mem_pair.mp hplain with rfl | rfl <;> decide
      · have hlt : 5 < k := (ColumnStarts.lt_of_mem hhas hcolumn).1
        simp only [Column.memoryPool, Column.memorySorted, Column.rangeCheckPool,
          Column.rangeCheckSorted]
        omega
    rcases pool_of_build h hpool hispool with rfl | rfl | ⟨dilution, hdilution, rfl⟩
    · exact fun hk => (List.mem_pair.mp hk).elim hplain.1 hplain.2.1
    · exact fun hk => (List.mem_pair.mp hk).elim hplain.2.2.1 hplain.2.2.2
    · have hsome : c.dilution.isSome = true := by rw [hdilution, Option.isSome_some]
      have hdiluted {j : Nat} (hj : j < 2) : k ≠ (ColumnStarts.ofConfig c).diluted + j := by
        have hbounds := ColumnStarts.bounds_of_dilution hsome hj
        rcases hwritten with hplain | ⟨b, hb, hhas, hcolumn⟩
        · obtain ⟨hregisters, hle, -⟩ := ColumnStarts.monotone_ofConfig (c := c)
          simp only [Column.registers] at hregisters
          rcases List.mem_pair.mp hplain with rfl | rfl <;>
            simp only [Column.flags, Column.registers] <;> omega
        · exact ColumnStarts.ne_of_bounds hb (ColumnStarts.bounds_of_mem hhas hcolumn) hbounds
      exact fun hk => (List.mem_pair.mp hk).elim (hdiluted two_pos) (hdiluted one_lt_two)
  · intro hk
    cases pool with
    | memory | rangeCheck16 | dilutedCheck => exact hispool rfl
    | _ => cases hk

/-- There are traces that hold what a component writes. -/
theorem exists_columns_areHeld_of_writesOwn (h : build c n params modulus = .ok l)
    {component : Component} (hmem : component ∈ l.components) {check : Option DilutedCheck}
    {script : List Write} (hwrites : component.WritesOwn check n script) :
    ∃ columns : List (Array Felt), columns.length = l.mainColumns ∧
      (∀ column ∈ columns, column.size = n) ∧ Write.AreHeld check columns script := by
  have hin (e : CellValue) (he : e ∈ script.flatMap (Write.cells check)) :
      e.1.1 < l.mainColumns ∧ e.1.2 < n := by
    have hplace : e.1 ∈ places check script := List.mem_map_of_mem he
    exact ⟨lt_mainColumns_of_owns h hmem (hwrites.owns _ hplace), hwrites.row_lt _ hplace⟩
  obtain ⟨columns, hwidth, hsize, hheld⟩ := exists_columns_of_nodup hin hwrites.nodup
  exact ⟨columns, hwidth, hsize, fun w hw e he => hheld e (List.mem_flatMap.mpr ⟨w, hw, he⟩)⟩

end Layout

end CairoTrace
