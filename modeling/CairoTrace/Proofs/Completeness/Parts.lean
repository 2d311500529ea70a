import CairoTrace.Proofs.Parts
import CairoTrace.Proofs.Trace.ScriptPlaces

/-!
# Completeness of range checked words

The script of range checked words refuses none of them if and only if each has the parts that an
instance holds (`RangeCheckCells.refuse_notMem_writes_iff`). On a trace with what is written, the
parts of every instance then make up its word, which its place in memory has as its value, whatever
the step of the parts (`RangeCheckCells.values_of_areHeld`).
-/

namespace CairoTrace

namespace Term

variable {n row : Nat} {columns : List (Array Felt)} {periodic : List PeriodicColumn} {b : Bindings}

/-- The value of a sum that is built from its highest part on. -/
theorem onRow_foldl (f : Nat → Term) (bits : Nat) (l : List Nat) (e : Term) :
    onRow n columns periodic b row (l.foldl (fun e j => e * .pow2 bits + f j) e) =
      (l.map fun j => onRow n columns periodic b row (f j)).foldl (fun v w => v * 2 ^ bits + w)
        (onRow n columns periodic b row e) := by
  induction l generalizing e with
  | nil => rfl
  | cons j l ih =>
    rw [List.foldl_cons, ih, List.map_cons, List.foldl_cons, onRow_add, onRow_mul, onRow_pow2]

end Term

namespace RangeCheck

/-- Parts are joined in the field as they are as numbers. -/
theorem foldl_natCast (ps : List Nat) (w : Nat) :
    (ps.map fun p : Nat => (p : Felt)).foldl (fun v p => v * 2 ^ partBits + p) (w : Felt) =
      (ps.foldl (fun w p => w * 2 ^ partBits + p) w : Nat) := by
  induction ps generalizing w with
  | nil => rfl
  | cons p ps ih =>
    rw [List.map_cons, List.foldl_cons, List.foldl_cons, ← ih]
    push_cast
    rfl

end RangeCheck

namespace RangeCheckCells

variable {cells : RangeCheckCells} {n start i : Nat} {inst : RangeCheckInstance} {ps : List Nat}
  {columns : List (Array Felt)} {periodic : List PeriodicColumn} {b : Bindings}
  {check : Option DilutedCheck}

/-! ## The rows of an instance -/

/-- Whether the parts of a word take as many rows as an instance has. -/
structure IsInStep (c : RangeCheckCells) : Prop where
  memory_column : c.memory.column = Column.memoryPool
  memory_offset : c.memory.offset + 1 < c.height
  parts_column : c.parts.column = Column.rangeCheckPool
  parts_offset : c.parts.offset < c.parts.step
  partCount_mul_step : c.partCount * c.parts.step = c.height

theorem IsArranged.isInStep (h : cells.IsArranged n) : cells.IsInStep :=
  ⟨h.memory.column_eq, h.memory.offset_succ_lt, h.parts_column, h.parts_offset,
    h.partCount_mul_step⟩

namespace IsInStep

variable (h : cells.IsInStep)
include h

theorem partCount_pos : 0 < cells.partCount := by
  have hheight := h.partCount_mul_step
  have hoffset := h.memory_offset
  refine Nat.pos_of_ne_zero fun hzero => ?_
  rw [hzero, zero_mul] at hheight
  omega

variable (hn : n ≤ 2 ^ 63) (hi : i < n / cells.height)
include hi

theorem parts_row_lt {j : Nat} (hj : j < cells.partCount) :
    cells.parts.row (cells.partCount * i + j) < n := by
  have hdiv := VirtualColumn.row_div (c := cells.parts) (i := i) ⟨rfl, h.parts_offset⟩ hj
  rw [h.partCount_mul_step] at hdiv
  rw [← hdiv] at hi
  exact Nat.lt_of_div_lt_div hi

theorem value_row_lt : cells.memory.valueColumn.row i < n := by
  have hdiv : cells.memory.valueColumn.row (1 * i + 0) / (1 * cells.height) = i :=
    VirtualColumn.row_div ⟨rfl, h.memory_offset⟩ one_pos
  rw [one_mul, one_mul, add_zero] at hdiv
  rw [← hdiv] at hi
  exact Nat.lt_of_div_lt_div hi

include hn

/-- The parts of an instance are on its rows. -/
theorem onRow_parts {j : Nat} (hj : j < cells.partCount) :
    Term.onRow n columns periodic b (cells.height * i) (cells.parts.cell j) =
      cells.parts.cellAt columns (cells.partCount * i + j) := by
  have hrow := h.parts_row_lt hi hj
  have hheight := (Nat.div_pos_iff.mp (Nat.zero_lt_of_lt hi)).2.trans hn
  have hoffset := h.parts_offset
  rw [← h.partCount_mul_step] at hheight ⊢
  rw [mul_comm cells.partCount, mul_assoc]
  have hle : cells.parts.step ≤ cells.partCount * cells.parts.step :=
    Nat.le_mul_of_pos_left _ h.partCount_pos
  cases j with
  | zero => exact Term.onRow_current (by omega) hrow
  | succ j =>
    -- only a second part makes the step a signed word
    have htwo : 2 * cells.parts.step ≤ cells.partCount * cells.parts.step :=
      Nat.mul_le_mul_right _ (by omega)
    exact Term.onRow_later (by omega) (by omega) hrow

theorem onRow_value :
    Term.onRow n columns periodic b (cells.height * i) cells.memory.valueColumn.current =
      cells.memory.valueColumn.cellAt columns i := by
  refine Term.onRow_current (c := cells.memory.valueColumn) ?_ (h.value_row_lt hi)
  exact h.memory_offset.trans_le ((Nat.div_pos_iff.mp (Nat.zero_lt_of_lt hi)).2.trans hn)

/-- Cells with the parts of a word make it up. -/
theorem onRow_joined (hlength : ps.length = cells.partCount)
    (hparts : ∀ j p : Nat, ps[j]? = some p →
      cells.parts.cellAt columns (cells.partCount * i + j) = (p : Felt)) :
    Term.onRow n columns periodic b (cells.height * i) cells.joined =
      (Nat.ofDigits (2 ^ RangeCheck.partBits) ps.reverse : Nat) := by
  have hcell {j p : Nat} (hp : ps[j]? = some p) :
      Term.onRow n columns periodic b (cells.height * i) (cells.parts.cell j) = (p : Felt) := by
    have hj : j < cells.partCount := hlength ▸ (List.getElem?_eq_some_iff.mp hp).1
    rw [h.onRow_parts hn hi hj, hparts j p hp]
  cases ps with
  | nil => exact absurd h.partCount_pos (hlength ▸ Nat.lt_irrefl 0)
  | cons p ps =>
    have hfirst : Term.onRow n columns periodic b (cells.height * i) cells.parts.current =
        (p : Felt) := hcell (j := 0) rfl
    have hrest : (List.range' 1 (cells.partCount - 1)).map (fun j : Nat =>
        Term.onRow n columns periodic b (cells.height * i) (cells.parts.cell j)) =
          ps.map fun q : Nat => (q : Felt) := by
      rw [← hlength, List.length_cons, Nat.add_sub_cancel]
      refine List.ext_getElem (by simp) fun j hj _ => ?_
      rw [List.length_map, List.length_range'] at hj
      rw [List.getElem_map, List.getElem_map, List.getElem_range', one_mul, add_comm]
      exact hcell (List.getElem?_eq_getElem hj)
    rw [joined, Term.onRow_foldl, hfirst, hrest, RangeCheck.foldl_natCast,
      RangeCheck.foldl_eq_ofDigits, Nat.ofDigits_reverse_cons, add_comm, mul_comm p]

end IsInStep

/-! ## What is written -/

/-- An instance is written with the parts of its word, or refused if there are none. -/
theorem refuse_notMem_instanceWrites_iff :
    (∀ error, .refuse error ∉ cells.instanceWrites start i inst) ↔
      inst.value < 2 ^ (cells.partCount * RangeCheck.partBits) := by
  rw [← RangeCheck.exists_parts_iff]
  unfold instanceWrites
  split
  · next e he =>
    exact iff_of_false (fun hok => hok _ List.mem_cons_self) fun ⟨ps, hps⟩ => by
      rw [he] at hps
      cases hps
  · next ps hps =>
    refine iff_of_true (fun error hmem => ?_) ⟨ps, hps⟩
    rcases List.mem_cons.mp hmem with heq | hmem
    · cases heq
    · obtain ⟨⟨part, j⟩, -, heq⟩ := List.mem_map.mp hmem
      cases heq

theorem refuse_notMem_writes_iff {instances : List (Option RangeCheckInstance)} :
    (∀ error, .refuse error ∉ cells.writes start instances) ↔
      ∀ inst, some inst ∈ instances →
        inst.value < 2 ^ (cells.partCount * RangeCheck.partBits) := by
  constructor
  · intro hok inst hinst
    obtain ⟨i, hi⟩ := List.mem_iff_getElem?.mp hinst
    exact refuse_notMem_instanceWrites_iff.mp fun error hmem =>
      hok error (instanceWrites_subset hi hmem)
  · intro hvalues error hmem
    obtain ⟨⟨inst?, i⟩, hinst, hmem⟩ := List.mem_flatMap.mp hmem
    refine refuse_notMem_instanceWrites_iff.mpr ?_ error hmem
    cases inst? with
    | some inst => exact hvalues inst (List.fst_mem_of_mem_zipIdx hinst)
    | none => exact Nat.two_pow_pos _

/-- The parts and the value of an instance that is written. -/
theorem values_of_areHeld (h : cells.IsInStep) (hn : n ≤ 2 ^ 63) (hi : i < n / cells.height)
    (hvalue : inst.value < 2 ^ (cells.partCount * RangeCheck.partBits))
    (hheld : Write.AreHeld check columns (cells.instanceWrites start i inst)) :
    cells.memory.valueColumn.cellAt columns i = (inst.value : Felt) ∧
      Term.onRow n columns periodic b (cells.height * i) cells.joined = (inst.value : Felt) := by
  obtain ⟨ps, hps⟩ := RangeCheck.exists_parts_iff.mpr hvalue
  have hparts := RangeCheck.parts_eq_ok_iff.mp hps
  rw [instanceWrites, hps] at hheld
  refine ⟨hheld.valueColumn_cellAt_eq h.memory_column List.mem_cons_self, ?_⟩
  rw [h.onRow_joined hn hi hparts.length_eq, hparts.ofDigits_eq]
  intro j p hp
  refine hheld.rangeCheck_cellAt_eq h.parts_column (List.mem_cons_of_mem _ ?_)
  rw [mul_comm]
  exact List.mem_map.mpr ⟨(p, j), List.mk_mem_zipIdx_iff_getElem?.mpr hp, rfl⟩

/-! ## Traces -/

section Layouts

variable {instances : List (Option RangeCheckInstance)}

/-- The parts and the value of every instance, on a trace with what is written of all of them. -/
theorem values_of_writes (h : cells.IsInStep) (hn : n ≤ 2 ^ 63)
    (hlength : instances.length ≤ n / cells.height)
    (hok : ∀ error, .refuse error ∉ cells.writes start instances)
    (hheld : Write.AreHeld check columns (cells.writes start instances))
    {inst? : Option RangeCheckInstance} (hinst : instances[i]? = some inst?) :
    cells.memory.valueColumn.cellAt columns i = ((inst?.getD ⟨i, 0⟩).value : Felt) ∧
      Term.onRow n columns periodic b (cells.height * i) cells.joined =
        ((inst?.getD ⟨i, 0⟩).value : Felt) := by
  obtain ⟨hi, -⟩ := List.getElem?_eq_some_iff.mp hinst
  refine values_of_areHeld h hn (hi.trans_le hlength) ?_ (hheld.of_getElem? hinst)
  exact refuse_notMem_instanceWrites_iff.mp fun error hmem =>
    hok error (instanceWrites_subset hinst hmem)

/-- The constraint on the values holds. -/
theorem holds_of_writes (h : cells.IsInStep) (hn : n ≤ 2 ^ 63) (hdvd : cells.height ∣ n)
    (hlength : instances.length = n / cells.height)
    (hok : ∀ error, .refuse error ∉ cells.writes start instances)
    (hheld : Write.AreHeld check columns (cells.writes start instances)) :
    ∀ c ∈ cells.constraints, c.name = "rc_builtin/value" → c.Holds n columns periodic b := by
  have hpos : 0 < cells.height := (Nat.zero_le _).trans_lt h.memory_offset
  intro c hc hname
  rcases List.mem_cons.mp hc with rfl | hc
  · rw [Constraint.holds_every_iff hpos hdvd]
    intro i hi
    have hinst := List.getElem?_eq_getElem (hlength ▸ hi)
    obtain ⟨hvalue, hjoined⟩ := values_of_writes h hn hlength.le hok hheld hinst
    rw [Term.onRow_sub, h.onRow_value hn hi, hvalue, hjoined, sub_self]
  · rcases List.mem_pair.mp hc with rfl | rfl
    · exact absurd hname (show "rc_builtin/addr_step" ≠ _ by decide)
    · exact absurd hname (show "rc_builtin/init_addr" ≠ _ by decide)

/-- A layout with a range check of words of two parts. -/
def pairedConfig : LayoutConfig where
  name := "paired"
  rangeCheck := some ⟨1, 2⟩

def pairedCells : RangeCheckCells := ⟨2, ⟨3, 16, 6⟩, ⟨0, 8, 1⟩⟩

end Layouts

end RangeCheckCells

end CairoTrace
