import CairoTrace.Proofs.Pool.MemoryPool
import CairoTrace.Proofs.Trace.Places
import CairoTrace.Trace.Filling

/-!
# Filling cells and pools

A cell that is written last stays, wherever else is written
(`Filling.IsShaped.traceCell_setCells_of_lt`). A script that is written fills cells and pushes into
the pools (`Filling.writeAll_eq_ok`). If it writes no place twice, it pushes nothing over
(`Write.nodup_pushes`), so that each pool has what was pushed in its place.
-/

namespace CairoTrace

open Pool (lastPushed)
open Write (places accessRows)

/-! ## Cells -/

namespace Filling

variable {n width : Nat} {f g : Filling}

theorem columns_setCells (h : f.columns = g.columns) (cells : List CellValue) :
    (f.setCells cells).columns = (g.setCells cells).columns := by
  induction cells generalizing f g with
  | nil => exact h
  | cons e cells ih => exact ih (congrArg (·.modify e.1.1 (·.setIfInBounds e.1.2 e.2)) h)

theorem setCells_eq (f : Filling) (cells : List CellValue) :
    f.setCells cells = { f with columns := (f.setCells cells).columns } := by
  induction cells generalizing f with
  | nil => rfl
  | cons e cells ih => exact ih (f.setCell e.1.1 e.1.2 e.2)

theorem traceCell_setCell_of_ne {place other : Nat × Nat} (hne : place ≠ other) (value : Felt) :
    traceCell (f.setCell place.1 place.2 value).columns.toList other.1 other.2 =
      traceCell f.columns.toList other.1 other.2 := by
  obtain ⟨column, row⟩ := place
  obtain ⟨column', row'⟩ := other
  simp only [traceCell, Filling.setCell, Array.toList_modify, List.getElem?_modify]
  by_cases hcolumn : column = column'
  · subst hcolumn
    have hrow : row ≠ row' := fun hrow => hne (congrArg _ hrow)
    cases f.columns.toList[column]? with
    | none => rfl
    | some cells => simp [Array.getElem?_setIfInBounds_ne hrow]
  · simp [hcolumn]

/-- A cell of the trace holds what was written to it last, wherever else was written. -/
theorem IsShaped.traceCell_setCells_of_lt (h : f.IsShaped n width) {cells : List CellValue}
    {place : Nat × Nat} (hcolumn : place.1 < width) (hrow : place.2 < n) :
    traceCell (f.setCells cells).columns.toList place.1 place.2 =
      (lastPushed cells place).getD (traceCell f.columns.toList place.1 place.2) := by
  induction cells using List.reverseRecOn with
  | nil => rfl
  | append_singleton cells e ih =>
    have happend : f.setCells (cells ++ [e]) = (f.setCells cells).setCell e.1.1 e.1.2 e.2 := by
      rw [Filling.setCells, List.foldl_append, List.foldl_cons, List.foldl_nil, Filling.setCells]
    rw [happend, Pool.lastPushed_append_singleton]
    by_cases hplace : e.1 = place
    · subst hplace
      rw [(h.setCells cells).traceCell_setCell hcolumn hrow, if_pos rfl, if_pos rfl,
        Option.getD_some]
    · rw [traceCell_setCell_of_ne hplace, ih, if_neg hplace]

end Filling

/-! ## The first stage -/

namespace Write

/-- The cell that is written without a pool. -/
def direct : Write → Option CellValue
  | cell column row value => some ((column, row), value)
  | _ => none

/-- The position and the entry of an access to memory. -/
def access : Write → Option (Nat × MemoryEntry)
  | memory row address value => some (row / memoryStep, ⟨address, value⟩)
  | _ => none

def checked : Write → Option (Nat × Nat)
  | rangeCheck row value => some (row, value)
  | _ => none

def spread : Write → Option (Nat × Nat)
  | diluted row value => some (row, value)
  | _ => none

/-- Whether a write is none that is refused whatever has been written before. -/
def Agrees (m : Memory) : Write → Prop
  | memory _ address value => Filling.contradicts m address value = false
  | refuse _ => False
  | _ => True

end Write

namespace Filling

/-- What a filling has become by a script. -/
structure IsFilledBy (f : Filling) (script : List Write) (f' : Filling) : Prop where
  columns : f'.columns = (f.setCells (script.filterMap Write.direct)).columns
  memory : f.memory.pushAll (script.filterMap Write.access) = .ok f'.memory
  rangeCheck : f'.rangeCheck = f.rangeCheck.pushAll (script.filterMap Write.checked)
  diluted : f'.diluted = f.diluted.pushAll (script.filterMap Write.spread)

variable {memory : Memory} {script : List Write} {f f' : Filling}

theorem writeAll_eq_ok (h : writeAll memory f script = .ok f') : f.IsFilledBy script f' := by
  induction script generalizing f with
  | nil =>
    obtain rfl := Except.ok.inj h
    exact ⟨rfl, rfl, rfl, rfl⟩
  | cons w script ih =>
    rw [writeAll, List.foldlM_cons, Result.bind_eq_ok_iff] at h
    obtain ⟨g, hg, hrest⟩ := h
    obtain ⟨hcolumns, hmemory, hrange, hdiluted⟩ := ih hrest
    cases w with
    | cell column row value =>
      obtain rfl := Except.ok.inj hg
      exact ⟨hcolumns, hmemory, hrange, hdiluted⟩
    | memory row address value =>
      rw [write] at hg
      split at hg
      · cases hg
      · split at hg
        · next pool hpush =>
          obtain rfl := Except.ok.inj hg
          have hsame := columns_setCells (f := { f with memory := pool }) (g := f) rfl
            (script.filterMap Write.direct)
          refine ⟨hcolumns.trans hsame, ?_, hrange, hdiluted⟩
          change MemoryPool.pushAll _ ((row / memoryStep, ⟨address, value⟩) ::
            script.filterMap Write.access) = _
          rw [MemoryPool.pushAll, List.foldlM_cons, hpush]
          exact hmemory
        · cases hg
    | rangeCheck row value =>
      obtain rfl := Except.ok.inj hg
      have hsame := columns_setCells
        (f := { f with rangeCheck := f.rangeCheck.push row value }) (g := f) rfl
        (script.filterMap Write.direct)
      exact ⟨hcolumns.trans hsame, hmemory, hrange, hdiluted⟩
    | diluted row value =>
      obtain rfl := Except.ok.inj hg
      have hsame := columns_setCells
        (f := { f with diluted := f.diluted.push row value }) (g := f) rfl
        (script.filterMap Write.direct)
      exact ⟨hcolumns.trans hsame, hmemory, hrange, hdiluted⟩
    | refuse error => cases hg

/-- A script that is written does not refuse anything. -/
theorem refuse_notMem_of_writeAll (h : writeAll memory f script = .ok f') (error : LayoutError) :
    .refuse error ∉ script := by
  intro hmem
  obtain ⟨before, after, rfl⟩ := List.append_of_mem hmem
  rw [writeAll, List.foldlM_append, Result.bind_eq_ok_iff] at h
  obtain ⟨g, -, h⟩ := h
  cases h

/-- A script is written if it agrees with the memory, and its accesses with each other. -/
theorem exists_writeAll_eq_ok (hagrees : ∀ w ∈ script, w.Agrees memory) {p : MemoryPool}
    (hpush : f.memory.pushAll (script.filterMap Write.access) = .ok p) :
    ∃ f', writeAll memory f script = .ok f' := by
  induction script generalizing f with
  | nil => exact ⟨f, rfl⟩
  | cons w script ih =>
    rw [List.forall_mem_cons] at hagrees
    obtain ⟨hw, hagrees⟩ := hagrees
    cases w with
    | cell | rangeCheck | diluted => exact ih hagrees hpush
    | memory row address value =>
      have hpush : f.memory.pushAll ((row / memoryStep, ⟨address, value⟩) ::
        script.filterMap Write.access) = .ok p := hpush
      rw [MemoryPool.pushAll, List.foldlM_cons] at hpush
      obtain ⟨g, hg, hrest⟩ := Result.bind_eq_ok_iff.mp hpush
      split at hg
      · next pool hpool =>
        obtain rfl := Except.ok.inj hg
        have hwrite : write memory f (.memory row address value) =
            .ok { f with memory := pool } := by
          rw [write, if_neg (Bool.eq_false_iff.mp hw), hpool]
        rw [writeAll, List.foldlM_cons, hwrite]
        exact ih hagrees hrest
      · cases hg
    | refuse error => exact hw.elim
end Filling

/-! ## Pushes -/

namespace Write

variable {check : Option DilutedCheck} {script : List Write}

/-- No place is pushed to twice by a script that writes no place twice. -/
theorem nodup_pushes {κ α : Type} (push : Write → Option (κ × α)) (place : κ → Nat × Nat)
    (hpush : ∀ w ∈ script, ∀ q ∈ push w, place q.1 ∈ places check [w])
    (hnodup : (places check script).Nodup) : ((script.filterMap push).map (·.1)).Nodup := by
  have hscript : places check script = script.flatMap fun w => places check [w] := by
    rw [← places_flatMap, List.flatMap_singleton']
  rw [hscript, List.nodup_flatMap] at hnodup
  rw [List.Nodup, List.pairwise_map, List.pairwise_filterMap]
  refine hnodup.2.imp_of_mem fun {a b} ha hb hdisjoint q hq q' hq' heq => ?_
  exact hdisjoint (hpush a ha q hq) (heq ▸ hpush b hb q' hq')

theorem nodup_direct (hnodup : (places check script).Nodup) :
    ((script.filterMap direct).map (·.1)).Nodup := by
  refine nodup_pushes direct id (fun w _ q hq => ?_) hnodup
  cases w with
  | cell column row value =>
    obtain rfl := Option.some.inj hq
    exact List.mem_singleton_self _
  | _ => cases hq

/-- The rows of accesses are even, so that two of them with one position are on one row. -/
theorem nodup_access (heven : ∀ row ∈ accessRows script, 2 ∣ row)
    (hnodup : (places check script).Nodup) : ((script.filterMap access).map (·.1)).Nodup := by
  refine nodup_pushes access (fun position => (Column.memoryPool, memoryStep * position))
    (fun w hw q hq => ?_) hnodup
  cases w with
  | memory row address value =>
    obtain rfl := Option.some.inj hq
    rw [memoryStep, Nat.mul_div_cancel' (heven row (mem_accessRows_of_mem hw))]
    exact List.mem_cons_self
  | _ => cases hq

theorem nodup_checked (hnodup : (places check script).Nodup) :
    ((script.filterMap checked).map (·.1)).Nodup := by
  refine nodup_pushes checked (fun row => (Column.rangeCheckPool, row)) (fun w _ q hq => ?_) hnodup
  cases w with
  | rangeCheck row value =>
    obtain rfl := Option.some.inj hq
    exact List.mem_singleton_self _
  | _ => cases hq

theorem nodup_spread {c : DilutedCheck} (hnodup : (places (some c) script).Nodup) :
    ((script.filterMap spread).map (·.1)).Nodup := by
  refine nodup_pushes spread (fun row => (c.pool, row)) (fun w _ q hq => ?_) hnodup
  cases w with
  | diluted row value =>
    obtain rfl := Option.some.inj hq
    exact List.mem_singleton_self _
  | _ => cases hq

end Write

end CairoTrace
