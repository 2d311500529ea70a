import CairoTrace.Proofs.Completeness.Processor
import CairoTrace.Proofs.Curve.StepCounts
import CairoTrace.Proofs.Trace.InstancePlaces
import CairoTrace.Proofs.Trace.Witnesses
import CairoTrace.Trace.Filling

/-!
# The places of a component

The script of a component writes no place twice, and only places of the component in the trace
(`Component.writesOwn_script`). That of a builtin is made of those of its instances, which are on
different rows (`Component.WritesOwn.of_instances`).
-/

namespace CairoTrace

open Write (places accessRows cellColumns)

namespace Component

/-- Whether a script writes no place twice, and only places of a component in a trace of length
`n`. -/
structure WritesOwn (c : Component) (check : Option DilutedCheck) (n : Nat)
    (script : List Write) : Prop where
  owns : ∀ p ∈ places check script, c.Owns p
  row_lt : ∀ p ∈ places check script, p.2 < n
  nodup : (places check script).Nodup
  accesses : ∀ row ∈ accessRows script, ∃ slot ∈ c.memorySlots, ∃ j, row = slot.row j
  cells : cellColumns script ⊆ c.writtenColumns

variable {c : Component} {check : Option DilutedCheck} {n : Nat}

theorem WritesOwn.nil : c.WritesOwn check n [] := ⟨nofun, nofun, List.nodup_nil, nofun, nofun⟩

theorem WritesOwn.refuse (e : LayoutError) : c.WritesOwn check n [.refuse e] :=
  ⟨nofun, nofun, List.nodup_nil, nofun, nofun⟩

/-- The instances of a builtin are on different rows. -/
theorem WritesOwn.of_instances {α : Type} {l : List α} {f : Nat → α → List Write}
    (hlength : l.length = n / c.height)
    (h : ∀ a ∈ l, ∀ i, c.WritesInstance check i (f i a)) :
    c.WritesOwn check n (l.zipIdx.flatMap fun q => f q.2 q.1) := by
  have hinstance (q : α × Nat) (hq : q ∈ l.zipIdx) :
      q.2 < n / c.height ∧ c.WritesInstance check q.2 (f q.2 q.1) := by
    rw [← hlength]
    exact ⟨(List.getElem?_eq_some_iff.mp (List.mk_mem_zipIdx_iff_getElem?.mp hq)).1,
      h _ (List.fst_mem_of_mem_zipIdx hq) _⟩
  constructor
  · intro p hp
    rw [Write.places_flatMap] at hp
    obtain ⟨q, hq, hp⟩ := List.mem_flatMap.mp hp
    exact (hinstance q hq).2.owns p hp
  · intro p hp
    rw [Write.places_flatMap] at hp
    obtain ⟨q, hq, hp⟩ := List.mem_flatMap.mp hp
    obtain ⟨hlt, hwrites⟩ := hinstance q hq
    rw [← hwrites.row_div p hp] at hlt
    exact Nat.lt_of_div_lt_div hlt
  · rw [Write.places_flatMap]
    refine nodup_flatMap_of_key (·.2 / c.height) (fun q hq p hp => (hinstance q hq).2.row_div p hp)
      ?_ fun q hq => (hinstance q hq).2.nodup
    rw [← range_length_eq_map_zipIdx]
    exact List.nodup_range
  · intro row hrow
    rw [Write.accessRows_flatMap] at hrow
    obtain ⟨q, hq, hrow⟩ := List.mem_flatMap.mp hrow
    exact (hinstance q hq).2.accesses row hrow
  · intro k hk
    rw [Write.cellColumns_flatMap] at hk
    obtain ⟨q, hq, hk⟩ := List.mem_flatMap.mp hk
    exact (hinstance q hq).2.cells hk

/-- What is written for the witnesses of all places, if each writes its own instance only. -/
theorem WritesOwn.of_witnesses {α β : Type} {witness : α × Nat → Except BuiltinError β}
    {writes : Nat → β → List Write} {l : List α} (hlength : l.length = n / c.height)
    (h : ∀ q w, witness q = .ok w → ∀ i, c.WritesInstance check i (writes i w)) :
    c.WritesOwn check n (Write.ofWitnesses witness writes l) := by
  cases hwitnesses : l.zipIdx.mapM witness with
  | error e =>
    rw [Write.ofWitnesses_of_mapM_eq_error hwitnesses]
    exact .refuse _
  | ok witnesses =>
    have hcount := (Result.mapM_eq_ok_iff.mp hwitnesses).length_eq
    rw [List.length_zipIdx] at hcount
    rw [Write.ofWitnesses_of_mapM_eq_ok hwitnesses]
    refine .of_instances (hcount.symm.trans hlength) fun w hw i => ?_
    obtain ⟨q, -, hq⟩ := (Result.mem_iff_of_mapM_eq_ok hwitnesses w).mp hw
    exact h q w hq i

end Component

/-! ## Builtins -/

section Builtins

variable {check : Option DilutedCheck} {config : LayoutConfig} {n start : Nat}

theorem EcOpCells.writesOwn {cells : EcOpCells} (h : cells.IsArranged n)
    (hallotted : (Component.ecOp cells).IsAllotted) {instances : List (Option EcOpInstance)}
    (hlength : instances.length = n / cells.height) :
    (Component.ecOp cells).WritesOwn check n (cells.writes start instances) := by
  rw [writes_eq_ofWitnesses]
  refine .of_witnesses hlength fun q w hw i => ?_
  obtain ⟨inst, v, k, hv, rfl⟩ := EcOp.Witness.ofPlace_eq_ok hw
  obtain ⟨hdoubling, hsum⟩ := EcOp.Witness.length_steps hv
  exact writesInstance h hallotted hdoubling hsum

theorem EcdsaCells.writesOwn {cells : EcdsaCells} (h : cells.IsArranged n)
    (hallotted : (Component.ecdsa cells).IsAllotted) {instances : List (Option EcdsaInstance)}
    (hlength : instances.length = n / cells.height) :
    (Component.ecdsa cells).WritesOwn check n (cells.writes start instances) := by
  rw [writes_eq_ofWitnesses]
  refine .of_witnesses hlength fun q w hw i => ?_
  obtain ⟨inst, v, k, hv, rfl⟩ := Ecdsa.Witness.ofPlace_eq_ok hw
  obtain ⟨hgenerator, hkey, hdoubling⟩ := Ecdsa.Witness.length_steps hv
  exact writesInstance h hallotted hgenerator hkey hdoubling

theorem PedersenCells.writesOwn {cells : PedersenCells} (h : cells.IsArranged n)
    (hallotted : (Component.pedersen cells).IsAllotted)
    {instances : List (Option PedersenInstance)}
    (hlength : instances.length = n / cells.height) :
    (Component.pedersen cells).WritesOwn check n (cells.writes start instances) := by
  rw [writes_eq_ofWitnesses]
  refine .of_witnesses hlength fun q w hw i => ?_
  obtain ⟨ha, hb⟩ := Pedersen.Witness.length_steps hw
  exact writesInstance h hallotted ha hb

theorem RangeCheckCells.writesOwn {cells : RangeCheckCells} (h : cells.IsArranged n)
    {instances : List (Option RangeCheckInstance)}
    (hlength : instances.length = n / cells.height) :
    (Component.rangeCheck cells).WritesOwn check n (cells.writes start instances) :=
  .of_instances (f := fun i inst? => cells.instanceWrites start i (inst?.getD ⟨i, 0⟩)) hlength
    fun _ _ _ => writesInstance h _

theorem BitwiseCells.writesOwn {cells : BitwiseCells} (h : cells.IsArranged config n)
    (hallotted : (Component.bitwise cells).IsAllotted) (hcheck : ∀ c ∈ check, c.pool = cells.pool)
    {instances : List (Option BitwiseInstance)}
    (hlength : instances.length = n / cells.height) :
    (Component.bitwise cells).WritesOwn check n (cells.writes start instances) :=
  .of_instances (f := fun i inst? => cells.instanceWrites start i (inst?.getD ⟨i, 0, 0⟩)) hlength
    fun _ _ _ => writesInstance h hallotted hcheck _

end Builtins

/-! ## The processor -/

namespace Cpu

variable {check : Option DilutedCheck} {n : Nat} {m : Memory} {registers : List Registers}

/-- The places of a cycle are in the slots and the columns of the processor. -/
theorem owns_of_mem_cyclePlaces {p : Nat × Nat} (hp : p ∈ cyclePlaces) (i : Nat) :
    Component.cpu.Owns (p.1, cycleHeight * i + p.2) := by
  have hplaces : ∀ p ∈ cyclePlaces,
      (p.1 = Column.memoryPool ∧ ∃ slot ∈ Component.cpu.memorySlots,
        slot.step = cycleHeight ∧ (p.2 = slot.offset ∨ p.2 = slot.offset + 1)) ∨
      (p.1 = Column.rangeCheckPool ∧ ∃ slot ∈ Component.cpu.rangeCheckSlots,
        slot.step = cycleHeight ∧ p.2 = slot.offset) ∨
      p.1 ∈ Component.cpu.ownColumns := by decide
  have hrow {slot : VirtualColumn} (hstep : slot.step = cycleHeight) :
      slot.row i = cycleHeight * i + slot.offset := by rw [VirtualColumn.row, hstep, add_comm]
  rcases hplaces p hp with
    ⟨hcolumn, slot, hslot, hstep, heq⟩ | ⟨hcolumn, slot, hslot, hstep, heq⟩ | h
  · refine Or.inl ⟨hcolumn, slot, hslot, i, ?_⟩
    rw [hrow hstep]
    rcases heq with heq | heq
    · exact Or.inl (congrArg _ heq)
    · exact Or.inr (congrArg _ heq)
  · refine Or.inr (Or.inl ⟨hcolumn, slot, hslot, i, ?_⟩)
    rw [hrow hstep, ← heq]
  · exact Or.inr (Or.inr h)

theorem accessRows_step (s : Step) (i : Nat) : accessRows (s.writes i) =
    Component.cpu.memorySlots.map (·.row i) := by
  have hflags : accessRows (Flag.all.map fun f =>
      .cell Column.flags (i * cycleHeight + f.position) (.ofNat (s.word.flagTail f))) = [] := by
    rw [accessRows, List.filterMap_map]
    exact List.filterMap_eq_nil_iff.mpr fun _ _ => rfl
  rw [Step.writes, Write.accessRows_append, hflags]
  rfl

theorem cellColumns_step_subset (s : Step) (i : Nat) :
    cellColumns (s.writes i) ⊆ Component.cpu.ownColumns := by
  have hflags : cellColumns (Flag.all.map fun f =>
      .cell Column.flags (i * cycleHeight + f.position) (.ofNat (s.word.flagTail f))) =
        Flag.all.map fun _ => Column.flags := by
    rw [cellColumns, List.filterMap_map]
    exact congrFun List.filterMap_eq_map _
  have hregisters : List.replicate 6 Column.registers ⊆ Component.cpu.ownColumns := by decide
  rw [Step.writes, Write.cellColumns_append, hflags]
  exact List.append_subset.mpr ⟨by decide, hregisters⟩

theorem writesOwn (hlength : cycleHeight * registers.length ≤ n) :
    Component.cpu.WritesOwn check n (writes m registers) := by
  cases hsteps : registers.mapM (Step.ofRegisters m) with
  | error e =>
    rw [writes, hsteps]
    exact .refuse e
  | ok steps =>
    have hcount := length_eq_of_mapM hsteps
    have hmem (p : Nat × Nat) (hp : p ∈ places check (writes m registers)) :
        ∃ i < registers.length, ∃ q ∈ cyclePlaces, p = (q.1, cycleHeight * i + q.2) := by
      rw [places, places_writes hsteps] at hp
      obtain ⟨⟨i, q⟩, hq, rfl⟩ := List.mem_map.mp hp
      obtain ⟨hi, hq⟩ := List.mem_product.mp hq
      exact ⟨i, hcount ▸ List.mem_range.mp hi, q, hq, rfl⟩
    constructor
    · intro p hp
      obtain ⟨i, -, q, hq, rfl⟩ := hmem p hp
      exact owns_of_mem_cyclePlaces hq i
    · intro p hp
      obtain ⟨i, hi, q, hq, rfl⟩ := hmem p hp
      have hlt : ∀ q ∈ cyclePlaces, q.2 < cycleHeight := by decide
      exact cycle_row_lt ((Nat.mul_le_mul_left _ hi).trans hlength) (hlt q hq)
    · exact nodup_places_writes hsteps
    · intro row hrow
      rw [writes, hsteps, Write.accessRows_flatMap] at hrow
      obtain ⟨q, -, hrow⟩ := List.mem_flatMap.mp hrow
      rw [accessRows_step] at hrow
      obtain ⟨slot, hslot, rfl⟩ := List.mem_map.mp hrow
      exact ⟨slot, hslot, q.2, rfl⟩
    · intro k hk
      rw [writes, hsteps, Write.cellColumns_flatMap] at hk
      obtain ⟨q, -, hk⟩ := List.mem_flatMap.mp hk
      exact cellColumns_step_subset q.1 q.2 hk

end Cpu

/-! ## All components -/

namespace Component

variable {check : Option DilutedCheck} {config : LayoutConfig} {n : Nat} {i : PublicInput}
  {e : Execution}

/-- Instances are placed if all indices are in range. The place of an index has the last of its
instances, whatever others there are. -/
theorem instancesByIndex_eq_ok_iff {α : Type} {b : Builtin} {index : α → Nat}
    {count : Nat} {instances : List α} {placed : List (Option α)} :
    instancesByIndex b index count instances = .ok placed ↔ (∀ a ∈ instances, index a < count) ∧
      (List.range count).map (Pool.lastPushed (instances.map fun a => (index a, a))) = placed := by
  have hlast (k : Nat) : instances.reverse.find? (index · == k) =
      Pool.lastPushed (instances.map fun a => (index a, a)) k := by
    rw [Pool.lastPushed, ← List.map_reverse, List.find?_map, Option.map_map]
    exact Option.map_id'.symm
  simp only [instancesByIndex, Result.check_bind_eq_ok_iff, Result.throw_bind, Result.pure_eq_ok,
    Result.forIn_refusing_eq_ok_iff, not_le, Except.ok.injEq, hlast]

theorem length_instancesByIndex {α : Type} {b : Builtin} {index : α → Nat} {count : Nat}
    {instances : List α} {placed : List (Option α)}
    (h : instancesByIndex b index count instances = .ok placed) : placed.length = count := by
  obtain ⟨-, rfl⟩ := instancesByIndex_eq_ok_iff.mp h
  rw [List.length_map, List.length_range]

theorem writesOwn_builtinScript {α : Type} {c : Component} {b : Builtin} {count : Nat}
    {index : α → Nat} {instances : List α} {writes : Nat → List (Option α) → List Write}
    (h : ∀ start placed, placed.length = count → c.WritesOwn check n (writes start placed)) :
    c.WritesOwn check n (builtinScript b i count index instances writes) := by
  rw [builtinScript]
  split
  · exact .refuse _
  · split
    · exact .refuse _
    · next hplaced => exact h _ _ (length_instancesByIndex hplaced)

/-- The script of a component that has been arranged and has slots and columns of its own. -/
theorem writesOwn_script {c : Component} (harranged : c.IsArranged config n)
    (hallotted : c.builtin.isSome = true → c.IsAllotted)
    (hcheck : ∀ cells, c = .bitwise cells → ∀ d ∈ check, d.pool = cells.pool)
    (hlength : cycleHeight * e.registers.length ≤ n) :
    c.WritesOwn check n (c.script n i e) := by
  cases c with
  | cpu => exact Cpu.writesOwn hlength
  | memory | rangeCheck16 | dilutedCheck | output => exact .nil
  | pedersen cells =>
    exact writesOwn_builtinScript fun _ _ => cells.writesOwn harranged (hallotted rfl)
  | rangeCheck cells => exact writesOwn_builtinScript fun _ _ => cells.writesOwn harranged
  | ecdsa cells =>
    exact writesOwn_builtinScript fun _ _ => cells.writesOwn harranged (hallotted rfl)
  | bitwise cells =>
    exact writesOwn_builtinScript fun _ _ =>
      cells.writesOwn harranged (hallotted rfl) (hcheck cells rfl)
  | ecOp cells =>
    exact writesOwn_builtinScript fun _ _ => cells.writesOwn harranged (hallotted rfl)

end Component

end CairoTrace
