import CairoTrace.Proofs.Pool.Pushes
import CairoTrace.Proofs.RowValue
import CairoTrace.Trace.Basic

/-!
# The cells that are written

A filling keeps the shape of its columns (`Filling.IsShaped.setCells`), and a cell holds what was
written to it last (`Filling.IsShaped.traceCell_setCells`). Columns can hold all that a script
writes if no two writes are for the same cell (`exists_columns_of_nodup`).
-/

namespace CairoTrace

/-- A place of a trace, by its column and its row, with a value. -/
abbrev CellValue := (Nat × Nat) × Felt

theorem traceCell_of_getElem? {columns : List (Array Felt)} {column : Nat} {cells : List Felt}
    (h : columns[column]? = some cells.toArray) :
    traceCell columns column = (cells.getD · 0) := by
  funext row
  rw [traceCell, h, Option.getD_some, List.getElem?_toArray, List.getD_eq_getElem?_getD]

/-! ## Fillings -/

namespace Filling

/-- Whether a filling has a number of columns, all of the same length. -/
structure IsShaped (n width : Nat) (f : Filling) : Prop where
  size_eq : f.columns.size = width
  length_eq : ∀ column ∈ f.columns, column.size = n

/-- Writes cells one after the other. -/
def setCells (f : Filling) (cells : List CellValue) : Filling :=
  cells.foldl (fun f e => f.setCell e.1.1 e.1.2 e.2) f

theorem writeAll_cells (memory : Memory) (f : Filling) (cells : List CellValue) :
    writeAll memory f (cells.map fun e => .cell e.1.1 e.1.2 e.2) = .ok (f.setCells cells) := by
  induction cells generalizing f with
  | nil => rfl
  | cons e cells ih => exact ih (f.setCell e.1.1 e.1.2 e.2)

theorem isShaped_initial (l : Layout) : (initial l).IsShaped l.traceLength l.mainColumns where
  size_eq := Array.size_replicate
  length_eq column hcolumn := by
    rw [(Array.mem_replicate.mp hcolumn).2, Array.size_replicate]

namespace IsShaped

variable {n width : Nat} {f : Filling}

theorem setCell (h : f.IsShaped n width) (column row : Nat) (value : Felt) :
    (f.setCell column row value).IsShaped n width where
  size_eq := Array.size_modify.trans h.size_eq
  length_eq cells hcells := by
    obtain ⟨k, hk, rfl⟩ := Array.getElem_of_mem hcells
    have hlength (j : Nat) (hj : j < f.columns.size) : f.columns[j].size = n :=
      h.length_eq _ (Array.getElem_mem hj)
    simp only [Filling.setCell, Array.getElem_modify]
    split
    · rw [Array.size_setIfInBounds, hlength]
    · exact hlength _ _

theorem traceCell_setCell (h : f.IsShaped n width) {place : Nat × Nat}
    (hcolumn : place.1 < width) (hrow : place.2 < n) (value : Felt) (other : Nat × Nat) :
    traceCell (f.setCell place.1 place.2 value).columns.toList other.1 other.2 =
      if place = other then value else traceCell f.columns.toList other.1 other.2 := by
    obtain ⟨column, row⟩ := place
    obtain ⟨column', row'⟩ := other
    rw [← h.size_eq, ← Array.length_toList] at hcolumn
    have hlength : f.columns.toList[column].size = n :=
      h.length_eq _ (Array.mem_toList_iff.mp (List.getElem_mem hcolumn))
    simp only [traceCell, Filling.setCell, Array.toList_modify, List.getElem?_modify,
      Prod.mk.injEq]
    by_cases hplace : column = column'
    · subst hplace
      simp only [List.getElem?_eq_getElem hcolumn, true_and, if_true, Option.map_eq_map,
        Option.map_some, Option.getD_some, Array.getElem?_setIfInBounds, hlength]
      split
      · rfl
      · rfl
    · simp only [hplace, false_and, if_false, Option.map_eq_map, Option.map_id']

theorem setCells (h : f.IsShaped n width) (cells : List CellValue) :
    (f.setCells cells).IsShaped n width := by
  induction cells generalizing f with
  | nil => exact h
  | cons e cells ih => exact ih (h.setCell _ _ _)

/-- A cell holds what was written to it last, if anything was. -/
theorem traceCell_setCells (h : f.IsShaped n width) {cells : List CellValue}
    (hin : ∀ e ∈ cells, e.1.1 < width ∧ e.1.2 < n) (place : Nat × Nat) :
    traceCell (f.setCells cells).columns.toList place.1 place.2 =
      (Pool.lastPushed cells place).getD (traceCell f.columns.toList place.1 place.2) := by
  induction cells using List.reverseRecOn with
  | nil => rfl
  | append_singleton cells e ih =>
    have hcells (e' : CellValue) (he' : e' ∈ cells) : e'.1.1 < width ∧ e'.1.2 < n :=
      hin e' (List.mem_append_left _ he')
    obtain ⟨hcolumn, hrow⟩ := hin e (List.mem_append_right _ (List.mem_singleton_self e))
    have happend : f.setCells (cells ++ [e]) = (f.setCells cells).setCell e.1.1 e.1.2 e.2 := by
      rw [Filling.setCells, List.foldl_append, List.foldl_cons, List.foldl_nil, Filling.setCells]
    rw [happend, (h.setCells cells).traceCell_setCell hcolumn hrow,
      Pool.lastPushed_append_singleton]
    split
    · rfl
    · exact ih hcells

/-- A cell holds a value that was written to it, if no other value was. -/
theorem traceCell_setCells_of_mem (h : f.IsShaped n width) {cells : List CellValue}
    (hin : ∀ e ∈ cells, e.1.1 < width ∧ e.1.2 < n) {place : Nat × Nat} {v : Felt}
    (hmem : (place, v) ∈ cells) (hsame : ∀ w, (place, w) ∈ cells → w = v) :
    traceCell (f.setCells cells).columns.toList place.1 place.2 = v := by
  rw [h.traceCell_setCells hin, Pool.lastPushed_eq_of_mem hmem hsame, Option.getD_some]

/-- A column is the list of its cells. -/
theorem toList_column (h : f.IsShaped n width) {column : Nat} (hcolumn : column < width) :
    (f.columns[column]?.getD #[]).toList =
      (List.range n).map (traceCell f.columns.toList column) := by
  rw [← h.size_eq] at hcolumn
  have hlength := h.length_eq _ (Array.getElem_mem hcolumn)
  rw [Array.getElem?_eq_getElem hcolumn, Option.getD_some]
  apply List.ext_getElem
  · rw [Array.length_toList, hlength, List.length_map, List.length_range]
  · intro row hrow _
    rw [Array.length_toList] at hrow
    rw [List.getElem_map, List.getElem_range, traceCell, Array.getElem?_toList,
      Array.getElem?_eq_getElem hcolumn, Option.getD_some, Array.getElem?_eq_getElem hrow,
      Option.getD_some, Array.getElem_toList]

/-- A column whose cells are all written. -/
theorem getElem?_setCells (h : f.IsShaped n width) {cells : List CellValue}
    (hin : ∀ e ∈ cells, e.1.1 < width ∧ e.1.2 < n) {column : Nat} (hcolumn : column < width)
    {values : List Felt} (hlength : values.length = n)
    (hcells : ∀ row v, ((column, row), v) ∈ cells ↔ values[row]? = some v) :
    (f.setCells cells).columns[column]? = some values.toArray := by
  have hshaped := h.setCells cells
  have hlist := hshaped.toList_column hcolumn
  have hvalues : (List.range n).map (traceCell (f.setCells cells).columns.toList column) =
      values := by
    apply List.ext_getElem
    · rw [List.length_map, List.length_range, hlength]
    · intro row _ hrow
      have hvalue : values[row]? = some values[row] := List.getElem?_eq_getElem hrow
      rw [List.getElem_map, List.getElem_range]
      refine h.traceCell_setCells_of_mem hin ((hcells row _).mpr hvalue) fun w hw => ?_
      rw [hcells, hvalue] at hw
      exact (Option.some.inj hw).symm
  rw [← hshaped.size_eq] at hcolumn
  rw [hvalues, Array.getElem?_eq_getElem hcolumn, Option.getD_some] at hlist
  rw [Array.getElem?_eq_getElem hcolumn, ← hlist, Array.toArray_toList]

end IsShaped

/-- The cells of a column that hold a list of values. -/
def columnCells (column : Nat) (values : List Felt) : List CellValue :=
  values.zipIdx.map fun (v, row) => ((column, row), v)

theorem mem_columnCells {column : Nat} {values : List Felt} {e : CellValue} :
    e ∈ columnCells column values ↔ e.1.1 = column ∧ values[e.1.2]? = some e.2 := by
  obtain ⟨⟨column', row⟩, v⟩ := e
  simp only [columnCells, List.mem_map, Prod.mk.injEq, Prod.exists,
    List.mem_zipIdx_iff_getElem?]
  constructor
  · rintro ⟨_, _, hvalue, ⟨rfl, rfl⟩, rfl⟩
    exact ⟨rfl, hvalue⟩
  · rintro ⟨rfl, hvalue⟩
    exact ⟨v, row, hvalue, ⟨rfl, rfl⟩, rfl⟩

/-- Two columns that are written as a whole. -/
theorem IsShaped.setCells_columns {n width : Nat} {f : Filling} (h : f.IsShaped n width)
    {a b : Nat} (hne : a ≠ b) (ha : a < width) (hb : b < width) {xs ys : List Felt}
    (hxs : xs.length = n) (hys : ys.length = n) :
    (f.setCells (columnCells a xs ++ columnCells b ys)).columns[a]? = some xs.toArray ∧
      (f.setCells (columnCells a xs ++ columnCells b ys)).columns[b]? = some ys.toArray := by
  have hin (e : CellValue) (he : e ∈ columnCells a xs ++ columnCells b ys) :
      e.1.1 < width ∧ e.1.2 < n := by
    simp only [List.mem_append, mem_columnCells, List.getElem?_eq_some_iff] at he
    rcases he with ⟨hcolumn, hrow, -⟩ | ⟨hcolumn, hrow, -⟩
    · omega
    · omega
  constructor
  · refine h.getElem?_setCells hin ha hxs fun row v => ?_
    simp only [List.mem_append, mem_columnCells, hne, true_and, false_and, or_false]
  · refine h.getElem?_setCells hin hb hys fun row v => ?_
    simp only [List.mem_append, mem_columnCells, hne.symm, true_and, false_and, false_or]

/-! ## The columns of a component -/

/-- Whether the columns of a filling are followed by others, with those of a component that depend
on challenges among them. -/
structure IsCompletedBy (f : Filling) (challenges : List Felt) (c : Component)
    (columns : List (Array Felt)) : Prop where
  main : f.columns.toList <+: columns
  interaction : ∀ e ∈ c.interaction f.columns challenges, columns[e.1]? = some e.2.toArray

theorem IsCompletedBy.getElem?_eq {f : Filling} {challenges : List Felt} {c : Component}
    {columns : List (Array Felt)} (h : f.IsCompletedBy challenges c columns) {column : Nat}
    {cells : Array Felt} (hcells : f.columns[column]? = some cells) :
    columns[column]? = some cells := by
  obtain ⟨hcolumn, rfl⟩ := Array.getElem?_eq_some_iff.mp hcells
  exact List.prefix_iff_getElem?.mp h.main column hcolumn

end Filling

/-! ## Scripts -/

namespace Write

/-- The cells of a trace that a write is for. An access to memory fills the cells of an address and
of its value. -/
def cells (check : Option DilutedCheck) : Write → List CellValue
  | cell column row value => [((column, row), value)]
  | memory row address value =>
    [((Column.memoryPool, row), .ofNat address), ((Column.memoryPool, row + 1), value)]
  | rangeCheck row value => [((Column.rangeCheckPool, row), .ofNat value)]
  | diluted row value => check.toList.map fun c => ((c.pool, row), c.diluted value)
  | refuse _ => []

/-- Whether the cells of a trace hold what a script writes. -/
def AreHeld (check : Option DilutedCheck) (columns : List (Array Felt)) (script : List Write) :
    Prop :=
  ∀ w ∈ script, ∀ e ∈ w.cells check, traceCell columns e.1.1 e.1.2 = e.2

namespace AreHeld

variable {check : Option DilutedCheck} {columns : List (Array Felt)} {script script' : List Write}

theorem mono (h : AreHeld check columns script) (hsubset : script' ⊆ script) :
    AreHeld check columns script' := fun w hw => h w (hsubset hw)

/-- The part of a script that belongs to one of a list. -/
theorem of_getElem? {α : Type} {l : List α} {f : α × Nat → List Write}
    (h : AreHeld check columns (l.zipIdx.flatMap f)) {i : Nat} {a : α} (ha : l[i]? = some a) :
    AreHeld check columns (f (a, i)) :=
  h.mono (Result.subset_flatMap_zipIdx ha f)

theorem cellAt_eq (h : AreHeld check columns script) {c : VirtualColumn} {i : Nat} {v : Felt}
    (hmem : at' c i v ∈ script) : c.cellAt columns i = v :=
  h _ hmem ((c.column, c.row i), v) (List.mem_singleton_self _)

theorem slot_cellAt_eq (h : AreHeld check columns script) {slot : VirtualColumn}
    (hslot : slot.column = Column.memoryPool) {i address : Nat} {v : Felt}
    (hmem : memory (slot.row i) address v ∈ script) : slot.cellAt columns i = .ofNat address := by
  rw [VirtualColumn.cellAt, hslot]
  exact h _ hmem ((Column.memoryPool, slot.row i), .ofNat address) List.mem_cons_self

/-- The value of an access is beside its address. -/
theorem valueColumn_cellAt_eq (h : AreHeld check columns script) {slot : VirtualColumn}
    (hslot : slot.column = Column.memoryPool) {i address : Nat} {v : Felt}
    (hmem : memory (slot.row i) address v ∈ script) : slot.valueColumn.cellAt columns i = v := by
  have hrow : slot.valueColumn.row i = slot.row i + 1 := Nat.add_right_comm _ _ _
  have hcolumn : slot.valueColumn.column = Column.memoryPool := hslot
  rw [VirtualColumn.cellAt, hrow, hcolumn]
  exact h _ hmem ((Column.memoryPool, slot.row i + 1), v)
    (List.mem_cons_of_mem _ (List.mem_singleton_self _))

theorem rangeCheck_cellAt_eq (h : AreHeld check columns script) {slot : VirtualColumn}
    (hslot : slot.column = Column.rangeCheckPool) {i v : Nat}
    (hmem : rangeCheck (slot.row i) v ∈ script) : slot.cellAt columns i = .ofNat v := by
  rw [VirtualColumn.cellAt, hslot]
  exact h _ hmem ((Column.rangeCheckPool, slot.row i), .ofNat v) (List.mem_singleton_self _)

end AreHeld

end Write

/-- There are columns that hold given values, if each cell is given once. -/
theorem exists_columns_of_nodup {n width : Nat} {cells : List CellValue}
    (hin : ∀ e ∈ cells, e.1.1 < width ∧ e.1.2 < n) (hnodup : (cells.map (·.1)).Nodup) :
    ∃ columns : List (Array Felt), columns.length = width ∧
      (∀ column ∈ columns, column.size = n) ∧
      ∀ e ∈ cells, traceCell columns e.1.1 e.1.2 = e.2 := by
  let value (column row : Nat) : Felt := (Pool.lastPushed cells (column, row)).getD 0
  refine ⟨columnsOfRows n ((List.range width).map value), ?_, ?_, fun e he => ?_⟩
  · rw [columnsOfRows, List.length_map, List.length_map, List.length_range]
  · intro column hcolumn
    obtain ⟨cell, -, rfl⟩ := List.mem_map.mp hcolumn
    rw [List.size_toArray, List.length_map, List.length_range]
  · obtain ⟨hcolumn, hrow⟩ := hin e he
    have hcell : ((List.range width).map value)[e.1.1]? = some (value e.1.1) := by
      rw [List.getElem?_map, List.getElem?_range hcolumn, Option.map_some]
    rw [traceCell_columnsOfRows hcell hrow]
    exact congrArg (Option.getD · 0) (Pool.lastPushed_eq_of_nodup hnodup he)

end CairoTrace
