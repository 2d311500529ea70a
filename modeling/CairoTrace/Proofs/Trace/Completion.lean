import CairoTrace.Proofs.Completeness.Memory
import CairoTrace.Proofs.Completeness.RangeCheck
import CairoTrace.Proofs.Pool.Finish
import CairoTrace.Proofs.Trace.Pooled
import CairoTrace.Proofs.Trace.ScriptPlaces

/-!
# Completing the pools

A component that is finished writes its pool and the sorted copy as whole columns, with what has
been pushed in its place, and leaves all other columns as they are (`Component.finishPool_eq_ok`).
No two pools have a column in common, so what the script of a layout writes is held in the end
(`Layout.areHeld_of_mainTrace`).
-/

namespace CairoTrace

open Pool (lastPushed)
open Write (places accessRows cellColumns)
open Cpu (jumpWord)

/-- The pool and its sorted copy are written as whole columns. -/
theorem DilutedCheck.writes_eq (c : DilutedCheck) (pool sorted : List Nat) : c.writes pool sorted =
    (Filling.columnCells c.pool (pool.map c.diluted) ++
      Filling.columnCells c.sorted (sorted.map c.diluted)).map
        fun e => .cell e.1.1 e.1.2 e.2 := by
  simp only [writes, Filling.columnCells, List.zipIdx_map, List.map_append, List.map_map]
  rfl

namespace Filling

variable {n width : Nat} {f : Filling}

/-! ## Whole columns -/

/-- A column that is written as a whole has its values, whatever another column has. -/
theorem lastPushed_columnCells {a b : Nat} (hne : a ≠ b) {xs ys : List Felt} {row : Nat} {v : Felt}
    (h : xs[row]? = some v) :
    lastPushed (columnCells a xs ++ columnCells b ys) (a, row) = some v := by
  refine Pool.lastPushed_eq_of_mem (List.mem_append_left _ (mem_columnCells.mpr ⟨rfl, h⟩)) ?_
  intro w hw
  rcases List.mem_append.mp hw with hw | hw
  · exact Option.some.inj ((mem_columnCells.mp hw).2.symm.trans h)
  · exact absurd (mem_columnCells.mp hw).1 hne

theorem traceCell_setCells_of_notMem {cells : List CellValue} {place : Nat × Nat}
    (h : ∀ e ∈ cells, e.1 ≠ place) :
    traceCell (f.setCells cells).columns.toList place.1 place.2 =
      traceCell f.columns.toList place.1 place.2 := by
  induction cells generalizing f with
  | nil => rfl
  | cons e cells ih =>
    rw [List.forall_mem_cons] at h
    exact (ih h.2).trans (traceCell_setCell_of_ne h.1 e.2)

/-! ## Pools -/

/-- What has been pushed into the pool of a component, as a cell of its column. -/
inductive IsPooled (f : Filling) : Component → CellValue → Prop
  | address {products position : Nat} {e : MemoryEntry}
      (haccess : f.memory.accesses.toList[position]? = some (some e))
      (hown : f.memory.isPublic position = false) :
      IsPooled f (.memory products) ((Column.memoryPool, memoryStep * position), .ofNat e.address)
  | value {products position : Nat} {e : MemoryEntry}
      (haccess : f.memory.accesses.toList[position]? = some (some e))
      (hown : f.memory.isPublic position = false) :
      IsPooled f (.memory products) ((Column.memoryPool, memoryStep * position + 1), e.value)
  | rangeCheck {products row v : Nat} (hvalue : f.rangeCheck.toList[row]? = some (some v)) :
      IsPooled f (.rangeCheck16 products) ((Column.rangeCheckPool, row), .ofNat v)
  | diluted {c : DilutedCheck} {row v : Nat}
      (hvalue : f.diluted.cells.toList[row]? = some (some v)) :
      IsPooled f (.dilutedCheck c) ((c.pool, row), c.diluted v)

variable {component : Component} {q : CellValue}

theorem IsPooled.column_mem (h : f.IsPooled component q) : q.1.1 ∈ component.poolColumns := by
  cases h with
  | address | value | rangeCheck | diluted => exact List.mem_cons_self

/-- The pools are not in the columns. -/
theorem IsPooled.setCells (h : f.IsPooled component q) (cells : List CellValue) :
    (f.setCells cells).IsPooled component q := by
  rw [setCells_eq]
  cases h with
  | address haccess hown => exact .address haccess hown
  | value haccess hown => exact .value haccess hown
  | rangeCheck hvalue => exact .rangeCheck hvalue
  | diluted hvalue => exact .diluted hvalue

end Filling

namespace Component

variable {n width : Nat} {i : PublicInput} {e : Execution} {f f' : Filling}
  {entries : List MemoryEntry}

/-- The cells of the columns of a pool, with what has been pushed in its place. -/
structure Completes (component : Component) (f : Filling) (cells : List CellValue) : Prop where
  columns : ∀ q ∈ cells, q.1.1 ∈ component.poolColumns
  pooled : ∀ q, f.IsPooled component q → lastPushed cells q.1 = some q.2

/-- A pool and its sorted copy, as whole columns. -/
theorem completes_of_columns {component : Component} {a b : Nat} {pool sorted : List Felt}
    (hcolumns : component.poolColumns = [a, b]) (hnodup : component.poolColumns.Nodup)
    (hpooled : ∀ q, f.IsPooled component q → q.1.1 = a ∧ pool[q.1.2]? = some q.2) :
    component.Completes f (Filling.columnCells a pool ++ Filling.columnCells b sorted) := by
  rw [hcolumns] at hnodup
  have hne : a ≠ b := fun heq => (List.nodup_cons.mp hnodup).1 (heq ▸ List.mem_singleton_self b)
  constructor
  case columns =>
    intro q hq
    rw [hcolumns]
    rcases List.mem_append.mp hq with hq | hq
    · exact (Filling.mem_columnCells.mp hq).1 ▸ List.mem_cons_self
    · exact (Filling.mem_columnCells.mp hq).1 ▸ List.mem_cons_of_mem _ List.mem_cons_self
  case pooled =>
    intro q hq
    obtain ⟨rfl, hvalue⟩ := hpooled q hq
    exact Filling.lastPushed_columnCells hne hvalue

theorem finishPool_memory_eq_ok_iff {products : Nat} :
    finishPool i e f (.memory products) = .ok f' ↔
      ∃ padding, i.padding.mapError LayoutError.input = .ok padding ∧
        ∃ entries, (f.memory.finish i.memory padding fun address =>
            ((e.memory.get? address).map .ofNat).getD 0).2 = .ok entries ∧
          f' = f.setCells
            (Filling.columnCells Column.memoryPool (MemoryCheck.entryCells entries.1) ++
              Filling.columnCells Column.memorySorted (MemoryCheck.entryCells entries.2)) := by
  simp only [finishPool, Result.bind_eq_ok_iff, MemoryCheck.writes_eq, Filling.writeAll_cells,
    Except.ok.injEq, eq_comm (a := f')]

theorem finishPool_rangeCheck16_eq_ok_iff {products : Nat} :
    finishPool i e f (.rangeCheck16 products) = .ok f' ↔
      ∃ values, (f.rangeCheck.finish i.rangeCheckMin i.rangeCheckMax).2 = .ok values ∧
        f' = f.setCells (Filling.columnCells Column.rangeCheckPool (values.1.map .ofNat) ++
          Filling.columnCells Column.rangeCheckSorted (values.2.map .ofNat)) := by
  simp only [finishPool, Result.bind_eq_ok_iff, RangeCheck16.writes_eq, Filling.writeAll_cells,
    Except.ok.injEq, eq_comm (a := f')]

theorem finishPool_dilutedCheck_eq_ok_iff {c : DilutedCheck} :
    finishPool i e f (.dilutedCheck c) = .ok f' ↔
      ∃ values, f.diluted.finish.2 = .ok values ∧
        f' = f.setCells (Filling.columnCells c.pool (values.1.map c.diluted) ++
          Filling.columnCells c.sorted (values.2.map c.diluted)) := by
  simp only [finishPool, Result.bind_eq_ok_iff, DilutedCheck.writes_eq, Filling.writeAll_cells,
    Except.ok.injEq, eq_comm (a := f')]

/-- A component that is finished writes nothing but the columns of its pool, with what has been
pushed in its place. -/
theorem finishPool_eq_ok {component : Component} (hrecords : f.memory.Records entries)
    (hnodup : component.poolColumns.Nodup) (h : component.finishPool i e f = .ok f') :
    ∃ cells : List CellValue, f' = f.setCells cells ∧ component.Completes f cells := by
  cases component with
  | memory products =>
    obtain ⟨padding, -, ⟨pool, sorted⟩, hfinish, rfl⟩ := finishPool_memory_eq_ok_iff.mp h
    have hcells := MemoryCheck.getElem?_flatMap_pair (fun e : MemoryEntry => .ofNat e.address)
      (·.value) pool
    refine ⟨_, rfl, completes_of_columns rfl hnodup fun q hq => ?_⟩
    cases hq with
    | @address _ position access haccess hown =>
      have hcell := (hcells position).1
      rw [MemoryPool.getElem?_of_finish hrecords hfinish haccess hown] at hcell
      exact ⟨rfl, hcell⟩
    | @value _ position access haccess hown =>
      have hcell := (hcells position).2
      rw [MemoryPool.getElem?_of_finish hrecords hfinish haccess hown] at hcell
      exact ⟨rfl, hcell⟩
  | rangeCheck16 products =>
    obtain ⟨⟨pool, sorted⟩, hfinish, rfl⟩ := finishPool_rangeCheck16_eq_ok_iff.mp h
    obtain ⟨-, -, hpool, -⟩ := RangeCheckPool.finish_eq_ok_iff.mp hfinish
    refine ⟨_, rfl, completes_of_columns rfl hnodup fun q hq => ?_⟩
    cases hq with
    | @rangeCheck _ row v hvalue =>
      rw [← hpool, List.getElem?_map, Pool.getElem?_filled hvalue]
      exact ⟨rfl, rfl⟩
  | dilutedCheck c =>
    obtain ⟨⟨pool, sorted⟩, hfinish, rfl⟩ := finishPool_dilutedCheck_eq_ok_iff.mp h
    obtain ⟨-, hpool, -⟩ := DilutedPool.finish_eq_ok_iff.mp hfinish
    refine ⟨_, rfl, completes_of_columns rfl hnodup fun q hq => ?_⟩
    cases hq with
    | @diluted _ row v hvalue =>
      rw [← hpool, List.getElem?_map, Pool.getElem?_filled hvalue]
      exact ⟨rfl, rfl⟩
  | cpu | pedersen | rangeCheck | ecdsa | bitwise | ecOp | output =>
    refine ⟨[], (Except.ok.inj h).symm, List.forall_mem_nil _, fun q hq => ?_⟩
    cases hq

/-- A run over pools leaves the columns of other pools as they are, and has in the columns of its
own what has been pushed. -/
theorem finishPools_eq_ok {pools : List Component} (hshaped : f.IsShaped n width)
    (hrecords : f.memory.Records entries) (hnodup : (pools.flatMap (·.poolColumns)).Nodup)
    (h : pools.foldlM (fun f c => c.finishPool i e f) f = .ok f') :
    (∀ p : Nat × Nat, p.1 ∉ pools.flatMap (·.poolColumns) →
      traceCell f'.columns.toList p.1 p.2 = traceCell f.columns.toList p.1 p.2) ∧
    ∀ component ∈ pools, ∀ q, f.IsPooled component q → q.1.1 < width → q.1.2 < n →
      traceCell f'.columns.toList q.1.1 q.1.2 = q.2 := by
  induction pools generalizing f with
  | nil =>
    obtain rfl := Except.ok.inj h
    exact ⟨fun _ _ => rfl, List.forall_mem_nil _⟩
  | cons component pools ih =>
    rw [List.foldlM_cons, Result.bind_eq_ok_iff] at h
    obtain ⟨g, hg, hrest⟩ := h
    rw [List.flatMap_cons, List.nodup_append] at hnodup
    obtain ⟨hown, hothers, hdisjoint⟩ := hnodup
    obtain ⟨cells, rfl, hcompletes⟩ := finishPool_eq_ok hrecords hown hg
    have hmemory : (f.setCells cells).memory = f.memory := by rw [Filling.setCells_eq]
    obtain ⟨hsame, hheld⟩ := ih (hshaped.setCells cells) (hmemory ▸ hrecords) hothers hrest
    constructor
    · intro p hp
      rw [List.flatMap_cons, List.mem_append, not_or] at hp
      rw [hsame p hp.2]
      refine Filling.traceCell_setCells_of_notMem fun q hq heq => hp.1 ?_
      exact heq ▸ hcompletes.columns q hq
    · rw [List.forall_mem_cons]
      refine ⟨fun q hq hcolumn hrow => ?_, fun other hother q hq => ?_⟩
      · rw [hsame q.1 fun hmem => hdisjoint _ hq.column_mem _ hmem rfl,
          hshaped.traceCell_setCells_of_lt hcolumn hrow, hcompletes.pooled q hq, Option.getD_some]
      · exact hheld other hother q (hq.setCells cells)

end Component

/-! ## Traces of layouts -/

namespace Layout

variable {c : LayoutConfig} {n modulus : Nat} {params : Option Pedersen.Params} {l : Layout}

/-- The check of diluted numbers that a layout with a dilution has. -/
def dilutedCheckOf (c : LayoutConfig) (dilution : Dilution) : DilutedCheck where
  dilution
  pool := (ColumnStarts.ofConfig c).diluted
  sorted := (ColumnStarts.ofConfig c).diluted + 1
  products := (ColumnStarts.ofConfig c).interaction + 2
  aggregate := (ColumnStarts.ofConfig c).interaction + 3

theorem filter_isPool_of_build (h : build c n params modulus = .ok l) :
    l.components.filter (·.isPool) =
      [.memory ((ColumnStarts.ofConfig c).interaction + 1),
        .rangeCheck16 (ColumnStarts.ofConfig c).interaction] ++
      (c.dilution.map fun dilution => .dilutedCheck (dilutedCheckOf c dilution)).toList := by
  rw [(pools_of_build h).2.2]
  cases hdilution : c.dilution <;> cases houtput : c.output <;>
    simp [Assembly.initial, hdilution, houtput, Component.isPool, dilutedCheckOf]

/-- No two pools have a column in common. -/
theorem nodup_poolColumns_of_build (h : build c n params modulus = .ok l) :
    ((l.components.filter (·.isPool)).flatMap (·.poolColumns)).Nodup := by
  let plain := [Column.memoryPool, Column.memorySorted, Column.rangeCheckPool,
    Column.rangeCheckSorted]
  have hplain : plain.Nodup := by decide
  rw [filter_isPool_of_build h, List.flatMap_append]
  cases c.dilution with
  | none => exact hplain
  | some dilution =>
    obtain ⟨hregisters, hle, -⟩ := ColumnStarts.monotone_ofConfig (c := c)
    have hlt := hregisters.trans_le hle
    have hne {k : Nat} (hk : k ≤ Column.registers) (j : Nat) :
        k ≠ (ColumnStarts.ofConfig c).diluted + j := by omega
    refine List.nodup_append.mpr ⟨hplain, ?_, fun k hk k' hk' => ?_⟩
    · simp [dilutedCheckOf, Component.poolColumns]
    · have hle : ∀ k ∈ plain, k ≤ Column.registers := by decide
      rcases List.mem_pair.mp hk' with rfl | rfl
      · exact hne (hle k hk) 0
      · exact hne (hle k hk) 1

theorem mem_pools_of_build (h : build c n params modulus = .ok l) :
    .memory ((ColumnStarts.ofConfig c).interaction + 1) ∈ l.components.filter (·.isPool) ∧
      .rangeCheck16 (ColumnStarts.ofConfig c).interaction ∈ l.components.filter (·.isPool) := by
  rw [filter_isPool_of_build h]
  exact ⟨List.mem_cons_self, List.mem_cons_of_mem _ List.mem_cons_self⟩

variable {i : PublicInput} {e : Execution} {f : Filling}

/-- The cells of a trace are filled by the script of its layout. -/
theorem foldlM_writeAll_script (l : Layout) (i : PublicInput) (e : Execution) (f : Filling) :
    l.components.foldlM (fun f c => Filling.writeAll e.memory f (c.script l.traceLength i e)) f =
      Filling.writeAll e.memory f (l.script i e) := by
  rw [script, Filling.writeAll]
  induction l.components generalizing f with
  | nil => rfl
  | cons component components ih =>
    rw [List.foldlM_cons, List.flatMap_cons, List.foldlM_append]
    exact bind_congr fun g => ih g

/-- A filling that is filled by a script keeps its shape. -/
theorem isShaped_of_isFilledBy {script : List Write} (h : (Filling.initial l).IsFilledBy script f) :
    f.IsShaped l.traceLength l.mainColumns := by
  have hshaped := (Filling.isShaped_initial l).setCells (script.filterMap Write.direct)
  constructor
  · rw [h.columns, hshaped.size_eq]
  · rw [h.columns]
    exact hshaped.length_eq

/-- The pool of diluted numbers has a place for each row. -/
theorem initial_diluted_of_build (h : build c n params modulus = .ok l) {check : DilutedCheck}
    (hcheck : .dilutedCheck check ∈ l.components) :
    (Filling.initial l).diluted = .ofSize n check.dilution.bits := by
  obtain ⟨hconfig, hlength, -⟩ := build_eq_ok h
  obtain ⟨-, hvalid, -⟩ := isArranged_of_build h
  rcases pool_of_build h hcheck rfl with hpool | hpool | ⟨dilution, hdilution, hpool⟩
  · cases hpool
  · cases hpool
  · cases hpool
    obtain ⟨-, hbits, -⟩ := LayoutConfig.isUsable_iff.mp (hvalid.dilution dilution hdilution)
    simp only [Filling.initial, hconfig, hlength, hdilution, Option.map_some, Option.getD_some,
      if_neg hbits.ne']

/-- What the script of a layout accesses is in the pool of memory. -/
theorem getElem?_accesses_of_mem_script (h : build c n params modulus = .ok l)
    (hsteps : e.registers.length = l.steps)
    (hfilled : (Filling.initial l).IsFilledBy (l.script i e) f) {position address : Nat} {v : Felt}
    (hw : .memory (memoryStep * position) address v ∈ l.script i e) :
    f.memory.accesses.toList[position]? = some (some ⟨address, v⟩) ∧
      f.memory.isPublic position = false := by
  obtain ⟨-, hlength, -⟩ := build_eq_ok h
  have hpublic := mod_ne_of_mem_accessRows h hsteps (Write.mem_accessRows_of_mem hw)
  have hposition : memoryStep * position / memoryStep = position :=
    Nat.mul_div_cancel_left position (by decide)
  have hpush : (position, ⟨address, v⟩) ∈ (l.script i e).filterMap Write.access :=
    List.mem_filterMap.mpr ⟨_, hw, congrArg (fun k => some (k, _)) hposition⟩
  have hpushes := Write.nodup_access (fun _ => two_dvd_of_mem_accessRows h hsteps)
    (nodup_places_of_build (i := i) h hsteps)
  obtain ⟨-, haccesses, hkept⟩ := MemoryPool.of_pushAll hfilled.memory
  have hin : position < l.traceLength / memoryStep := by
    have hvalue : ((Column.memoryPool, memoryStep * position + 1), v) ∈
        (l.script i e).flatMap (Write.cells l.dilutedCheck?) :=
      List.mem_flatMap.mpr ⟨_, hw, List.mem_cons_of_mem _ List.mem_cons_self⟩
    obtain ⟨-, hlt⟩ := lt_of_mem_places h hsteps (Write.mem_places_iff.mpr ⟨v, hvalue⟩)
    rw [hlength]
    simp only [memoryStep] at *
    omega
  constructor
  · rw [haccesses, List.getElem?_map, List.getElem?_range hin, Option.map_some,
      Pool.lastPushed_eq_of_nodup hpushes hpush]
  · rw [hkept]
    exact Bool.eq_false_iff.mpr (MemoryPool.isPublic_iff.not.mpr hpublic)

/-- What the script of a layout pushes is in the pools of its components. -/
theorem exists_isPooled_of_mem_cells (h : build c n params modulus = .ok l)
    (hsteps : e.registers.length = l.steps)
    (hfilled : (Filling.initial l).IsFilledBy (l.script i e) f) {w : Write}
    (hw : w ∈ l.script i e) {q : CellValue} (hq : q ∈ w.cells l.dilutedCheck?)
    (hdirect : w.direct = none) :
    ∃ component ∈ l.components.filter (·.isPool), f.IsPooled component q := by
  obtain ⟨-, hlength, -⟩ := build_eq_ok h
  obtain ⟨hmemory, hrange⟩ := mem_pools_of_build h
  have hnodup := nodup_places_of_build (i := i) h hsteps
  have hlt {p : Nat × Nat} {v : Felt} (hp : (p, v) ∈ w.cells l.dilutedCheck?) : p.2 < n :=
    (lt_of_mem_places h hsteps (Write.mem_places_iff.mpr ⟨v, List.mem_flatMap.mpr ⟨w, hw, hp⟩⟩)).2
  cases w with
  | cell => cases hdirect
  | memory row address value =>
    obtain ⟨position, rfl⟩ :=
      two_dvd_of_mem_accessRows h hsteps (Write.mem_accessRows_of_mem hw)
    obtain ⟨haccess, hown⟩ := getElem?_accesses_of_mem_script h hsteps hfilled hw
    refine ⟨_, hmemory, ?_⟩
    rcases List.mem_pair.mp hq with rfl | rfl
    · exact .address haccess hown
    · exact .value haccess hown
  | rangeCheck row value =>
    obtain rfl := List.mem_singleton.mp hq
    have hpush : (row, value) ∈ (l.script i e).filterMap Write.checked :=
      List.mem_filterMap.mpr ⟨_, hw, rfl⟩
    refine ⟨_, hrange, .rangeCheck ?_⟩
    rw [hfilled.rangeCheck]
    refine (congrArg (·[row]?) (RangeCheckPool.toList_pushAll _ _)).trans ?_
    rw [hlength, List.getElem?_map, List.getElem?_range (hlt (List.mem_singleton_self _)),
      Option.map_some, Pool.lastPushed_eq_of_nodup (Write.nodup_checked hnodup) hpush]
  | diluted row value =>
    obtain ⟨check, hcheck, rfl⟩ := List.mem_map.mp hq
    rw [Option.mem_toList] at hcheck
    have hmem := mem_components_of_dilutedCheck? hcheck
    have hpush : (row, value) ∈ (l.script i e).filterMap Write.spread :=
      List.mem_filterMap.mpr ⟨_, hw, rfl⟩
    refine ⟨_, List.mem_filter.mpr ⟨hmem, rfl⟩, .diluted ?_⟩
    rw [hfilled.diluted, initial_diluted_of_build h hmem, DilutedPool.toList_cells_pushAll,
      List.getElem?_map, List.getElem?_range (hlt hq), Option.map_some,
      Pool.lastPushed_eq_of_nodup (Write.nodup_spread (hcheck ▸ hnodup)) hpush]
  | refuse => cases hq

/-- Whatever the script of a layout writes is held by the trace, once its pools are columns. -/
theorem areHeld_of_mainTrace (h : build c n params modulus = .ok l)
    (hsteps : e.registers.length = l.steps) {columns : List (Array Felt)}
    (htrace : mainTrace l e i = .ok columns) :
    Write.AreHeld l.dilutedCheck? columns (l.script i e) := by
  obtain ⟨-, hlength, -⟩ := build_eq_ok h
  simp only [mainTrace, foldlM_writeAll_script, Result.throw_bind, Result.ite_error_eq_ok_iff,
    Result.bind_eq_ok_iff] at htrace
  obtain ⟨-, f, hf, complete, hcomplete, hcolumns⟩ := htrace
  obtain rfl := Except.ok.inj hcolumns
  have hfilled := Filling.writeAll_eq_ok hf
  have hshaped := isShaped_of_isFilledBy hfilled
  obtain ⟨hrecords, -⟩ := MemoryPool.of_pushAll hfilled.memory
  obtain ⟨hsame, hpooled⟩ :=
    Component.finishPools_eq_ok hshaped hrecords (nodup_poolColumns_of_build h) hcomplete
  intro w hw q hq
  obtain ⟨hcolumn, hrow⟩ := lt_of_mem_places h hsteps
    (Write.mem_places_iff.mpr ⟨q.2, List.mem_flatMap.mpr ⟨w, hw, hq⟩⟩)
  rw [← hlength] at hrow
  cases hdirect : w.direct with
  | some cell =>
    cases w with
    | cell column row value =>
      obtain rfl := List.mem_singleton.mp hq
      have hnodup := Write.nodup_direct (nodup_places_of_build (i := i) h hsteps)
      have hmem : ((column, row), value) ∈ (l.script i e).filterMap Write.direct :=
        List.mem_filterMap.mpr ⟨_, hw, rfl⟩
      have hnotMem : column ∉ (l.components.filter (·.isPool)).flatMap (·.poolColumns) := by
        intro hk
        obtain ⟨pool, hpool, hk⟩ := List.mem_flatMap.mp hk
        exact notMem_poolColumns h hsteps (Write.mem_cellColumns_of_mem hw)
          (List.mem_of_mem_filter hpool) hk
      rw [hsame _ hnotMem, hfilled.columns,
        (Filling.isShaped_initial l).traceCell_setCells_of_lt hcolumn hrow,
        Pool.lastPushed_eq_of_nodup hnodup hmem, Option.getD_some]
    | _ => cases hdirect
  | none =>
    obtain ⟨component, hmem, hpool⟩ := exists_isPooled_of_mem_cells h hsteps hfilled hw hq hdirect
    exact hpooled component hmem q hpool hcolumn hrow

/-- A run has a trace, in a layout without diluted numbers, if its script agrees with the memory, its
accesses and the public memory fit, and its range checked values can be finished. -/
theorem exists_mainTrace {products checks : Nat} (hsteps : e.registers.length = l.steps)
    (hpools : l.components.filter (·.isPool) = [.memory products, .rangeCheck16 checks])
    (hagrees : ∀ w ∈ l.script i e, w.Agrees e.memory)
    (hfits : MemoryPool.Fits (l.traceLength / memoryStep) (publicMemoryStep / memoryStep)
      (publicMemoryOffset / memoryStep) ((l.script i e).filterMap Write.access) i.memory)
    {padding : MemoryEntry} (hpadding : i.padding = .ok padding)
    (hranges : ∃ pool sorted, (((RangeCheckPool.ofSize l.traceLength).pushAll
      ((l.script i e).filterMap Write.checked)).finish i.rangeCheckMin i.rangeCheckMax).2 =
        .ok (pool, sorted)) :
    ∃ columns, mainTrace l e i = .ok columns := by
  obtain ⟨p, hpush⟩ := MemoryPool.exists_pushAll_iff.mpr hfits.singleValued.of_append
  obtain ⟨f, hf⟩ := Filling.exists_writeAll_eq_ok (f := Filling.initial l) hagrees hpush
  obtain ⟨-, hmemory, hrange, -⟩ := Filling.writeAll_eq_ok hf
  obtain ⟨pool, sorted, hfinish⟩ : ∃ pool sorted, (f.memory.finish i.memory padding fun address =>
      ((e.memory.get? address).map .ofNat).getD 0).2 = .ok (pool, sorted) :=
    (MemoryPool.exists_finish_iff_fits hmemory).mpr hfits
  have hpadding : i.padding.mapError LayoutError.input = .ok padding := by
    rw [hpadding]
    rfl
  obtain ⟨g, hg, hsame⟩ : ∃ g, Component.finishPool i e f (.memory products) = .ok g ∧
      g.rangeCheck = f.rangeCheck := by
    refine ⟨_, Component.finishPool_memory_eq_ok_iff.mpr ⟨_, hpadding, _, hfinish, rfl⟩, ?_⟩
    rw [Filling.setCells_eq]
  obtain ⟨ranges, sortedRanges, hranges⟩ := hranges
  obtain ⟨complete, hcomplete⟩ : ∃ complete,
      Component.finishPool i e g (.rangeCheck16 checks) = .ok complete := by
    refine ⟨_, Component.finishPool_rangeCheck16_eq_ok_iff.mpr ⟨(ranges, sortedRanges), ?_, rfl⟩⟩
    rw [hsame, hrange]
    exact hranges
  refine ⟨complete.columns.toList, ?_⟩
  rw [mainTrace, foldlM_writeAll_script, hf, hpools, if_neg (not_not.mpr hsteps)]
  simp only [List.foldlM_cons, List.foldlM_nil, hg, hcomplete, bind, Except.bind, pure, Except.pure]

/-- Only words are diluted. -/
theorem exists_bitwise_of_mem_script (h : build c n params modulus = .ok l)
    (hsteps : e.registers.length = l.steps) {row v : Nat} (hw : .diluted row v ∈ l.script i e) :
    ∃ cells, .bitwise cells ∈ l.components := by
  obtain ⟨component, hmem, hw⟩ := List.mem_flatMap.mp hw
  by_contra hnone
  -- to a pool that is not in the trace, no other component would write
  let check : DilutedCheck := ⟨⟨1, 1, 1⟩, l.mainColumns, 0, 0, 0⟩
  have hwrites : component.WritesOwn (some check) n (component.script l.traceLength i e) :=
    writesOwn_of_pool_eq h hsteps hmem fun cells hcells => absurd ⟨cells, hcells ▸ hmem⟩ hnone
  have hplace : (l.mainColumns, row) ∈ places (some check) (component.script l.traceLength i e) :=
    Write.mem_places_iff.mpr ⟨_, List.mem_flatMap.mpr ⟨_, hw, List.mem_singleton_self _⟩⟩
  exact lt_irrefl _ (lt_mainColumns_of_owns h hmem (hwrites.owns _ hplace))

/-- A layout that dilutes words has a check of them. -/
theorem isSome_dilutedCheck?_of_bitwise (h : build c n params modulus = .ok l)
    {cells : BitwiseCells} (hcells : .bitwise cells ∈ l.components) :
    l.dilutedCheck?.isSome = true := by
  have hsome : c.dilution.isSome = true :=
    (LayoutConfig.isSome_dilution c).trans (has_of_build h hcells (b := .bitwise) rfl)
  obtain ⟨dilution, hdilution⟩ := Option.isSome_iff_exists.mp hsome
  have hcheck : .dilutedCheck (dilutedCheckOf c dilution) ∈ l.components := by
    refine List.mem_of_mem_filter (p := (·.isPool)) ?_
    rw [filter_isPool_of_build h, hdilution]
    exact List.mem_append_right _ (List.mem_singleton_self _)
  rw [dilutedCheck?, List.findSome?_isSome_iff]
  exact ⟨_, hcheck, rfl⟩

/-- The writes of a trace are in its main columns and for different places, and accesses to memory
are not at the positions that are kept for the public memory. So the columns of a trace that is
completed hold all that has been written and pushed. -/
theorem script_spec (h : build c n params modulus = .ok l)
    (hsteps : e.registers.length = l.steps) (i : PublicInput) :
    (∀ p ∈ places l.dilutedCheck? (l.script i e), p.1 < l.mainColumns ∧ p.2 < n) ∧
    (places l.dilutedCheck? (l.script i e)).Nodup ∧
    (∀ row v, .diluted row v ∈ l.script i e → l.dilutedCheck?.isSome = true) ∧
    (∀ row ∈ accessRows (l.script i e), 2 ∣ row ∧ row % publicMemoryStep ≠ publicMemoryOffset) ∧
    (∀ f, l.components.foldlM
        (fun f c => Filling.writeAll e.memory f (c.script l.traceLength i e)) f =
      Filling.writeAll e.memory f (l.script i e)) ∧
    ∀ columns, mainTrace l e i = .ok columns →
      Write.AreHeld l.dilutedCheck? columns (l.script i e) := by
  refine ⟨fun p => lt_of_mem_places h hsteps, nodup_places_of_build h hsteps, fun row v hw => ?_,
    fun row hrow => ⟨?_, ?_⟩, foldlM_writeAll_script l i e,
    fun columns => areHeld_of_mainTrace h hsteps⟩
  · obtain ⟨cells, hcells⟩ := exists_bitwise_of_mem_script h hsteps hw
    exact isSome_dilutedCheck?_of_bitwise h hcells
  · exact two_dvd_of_mem_accessRows h hsteps hrow
  · exact mod_ne_of_mem_accessRows h hsteps hrow

/-- A program of one jump, with a gap between its addresses. -/
def gapExecution : Execution where
  inputs := { registersPath := "registers", memoryPath := "memory" }
  registers := [⟨10, 5, 1⟩]
  memory := .ofList [(1, jumpWord), (2, 1), (4, 5)]

/-- The public input of the program, with the bounds of its offsets. -/
def gapInput : PublicInput where
  rangeCheckMin := 32765
  rangeCheckMax := 32769
  steps := 16
  layout := "plain"
  segments := ⟨⟨1, 3⟩, ⟨10, 11⟩, fun _ => none⟩
  memory := [⟨1, .ofNat jumpWord⟩]

theorem get?_gapExecution : gapExecution.memory.get? 1 = some jumpWord ∧
    gapExecution.memory.get? 2 = some 1 ∧ gapExecution.memory.get? 4 = some 5 := by
  simp [gapExecution, Memory.ofList, Memory.get?_insert]

/-- The step of the program. -/
def gapStep : Cpu.Step := ⟨jumpWord, 1, 4, .ofNat 5, 2, 1, 2, 1, 10, 5, 1, 1, 1⟩

theorem ofRegisters_gapExecution :
    gapExecution.registers.mapM (Cpu.Step.ofRegisters gapExecution.memory) = .ok [gapStep] := by
  have hget : gapExecution.memory.get 1 = .ok jumpWord ∧ gapExecution.memory.get 2 = .ok 1 ∧
      gapExecution.memory.get 4 = .ok 5 := by
    simp [Memory.get, get?_gapExecution]
  have hregisters : gapExecution.registers = [⟨10, 5, 1⟩] := rfl
  have hone : (.ofNat 1 : Felt) = 1 := by decide
  simp [Cpu.Step.ofRegisters, gapStep, hregisters, hget, Cpu.jumpWord_flags,
    Cpu.jumpWord_groups, Cpu.jumpWord_offsets, hone, Except.mapError, bind, Except.bind, pure,
    Except.pure, Cpu.narrow, offsetBias, Instruction.addressAt, Instruction.op0Address,
    Instruction.dstAddress, Instruction.op1Address, Instruction.op1Base, Instruction.load,
    Instruction.op0, Instruction.dst, Instruction.op1, Instruction.res, Instruction.tmp0,
    Instruction.tmp1]

theorem agrees_gapStep : ∀ w ∈ gapStep.writes 0, w.Agrees gapExecution.memory := by
  have hone : (.ofNat 1 : Felt) = 1 := by decide
  obtain ⟨h1, h2, h4⟩ : Filling.contradicts gapExecution.memory 1 (.ofNat jumpWord) = false ∧
      Filling.contradicts gapExecution.memory 2 1 = false ∧
      Filling.contradicts gapExecution.memory 4 (.ofNat 5) = false := by
    simp [Filling.contradicts, get?_gapExecution, hone]
  refine List.forall_mem_append.mpr ⟨fun w hw => ?_, ?_⟩
  · obtain ⟨flag, -, rfl⟩ := List.mem_map.mp hw
    trivial
  · simp only [List.forall_mem_cons]
    exact ⟨h1, h4, h2, h2, trivial, trivial, trivial, trivial, trivial, trivial, trivial, trivial,
      trivial, List.forall_mem_nil _⟩

theorem exists_mainTrace_gap : ∃ l columns, build .plain 16 none = .ok l ∧
    gapExecution.registers.length = l.steps ∧
    mainTrace l gapExecution gapInput = .ok columns := by
  obtain ⟨l, hl, hlength, hsteps, hcomponents⟩ : ∃ l, build .plain 16 none = .ok l ∧
      l.traceLength = 16 ∧ gapExecution.registers.length = l.steps ∧
      l.components = [.cpu, .memory 7, .rangeCheck16 6] := ⟨_, rfl, rfl, rfl, rfl⟩
  have hscript : l.script gapInput gapExecution = gapStep.writes 0 := by
    rw [script, hcomponents]
    simp only [List.flatMap_cons, Component.script, Cpu.writes, ofRegisters_gapExecution]
    rfl
  obtain ⟨columns, hcolumns⟩ : ∃ columns, mainTrace l gapExecution gapInput = .ok columns := by
    refine exists_mainTrace hsteps (by rw [hcomponents]; rfl) ?agrees ?fits rfl ?ranges
    case agrees =>
      rw [hscript]
      exact agrees_gapStep
    case fits =>
      rw [hscript, hlength]
      refine ⟨?_, ?_, ?_⟩ <;> decide
    case ranges =>
      rw [hscript, hlength, RangeCheckPool.exists_finish_eq_ok_iff]
      decide
  exact ⟨l, columns, hl, hsteps, hcolumns⟩

/-- The words of the program are in the trace, as its accesses. -/
theorem script_spec_gap : ∃ l columns, build .plain 16 none = .ok l ∧
    mainTrace l gapExecution gapInput = .ok columns ∧
    Write.AreHeld l.dilutedCheck? columns (l.script gapInput gapExecution) := by
  obtain ⟨l, columns, hl, hsteps, htrace⟩ := exists_mainTrace_gap
  obtain ⟨-, -, -, -, -, hheld⟩ := script_spec hl hsteps gapInput
  exact ⟨l, columns, hl, htrace, hheld columns htrace⟩

end Layout

end CairoTrace
