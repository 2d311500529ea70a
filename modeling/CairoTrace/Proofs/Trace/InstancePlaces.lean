import CairoTrace.Proofs.Component.BitwiseRows
import CairoTrace.Proofs.Parts
import CairoTrace.Proofs.Trace.Places

/-!
# The places of an instance

The writes of an instance of a builtin are on the rows of the instance, in columns and slots of the
builtin, and no two of them are for the same place (`Component.WritesInstance`).
-/

namespace CairoTrace

open Write (places accessRows cellColumns)

namespace Component

/-- Whether a place is in a slot or in a column of a component. -/
def Owns (c : Component) (p : Nat × Nat) : Prop :=
  (p.1 = Column.memoryPool ∧
    ∃ slot ∈ c.memorySlots, ∃ i, p.2 = slot.row i ∨ p.2 = slot.row i + 1) ∨
  (p.1 = Column.rangeCheckPool ∧ ∃ slot ∈ c.rangeCheckSlots, ∃ i, p.2 = slot.row i) ∨
  p.1 ∈ c.ownColumns

/-- The columns that a component writes itself. Strands of words are in a pool. -/
def writtenColumns : Component → List Nat
  | bitwise _ => []
  | c => c.ownColumns

/-- Whether a script writes no place twice, and only places of a component on the rows of one of its
instances. -/
structure WritesInstance (c : Component) (check : Option DilutedCheck) (i : Nat)
    (script : List Write) : Prop where
  owns : ∀ p ∈ places check script, c.Owns p
  row_div : ∀ p ∈ places check script, p.2 / c.height = i
  nodup : (places check script).Nodup
  accesses : ∀ row ∈ accessRows script, ∃ slot ∈ c.memorySlots, ∃ j, row = slot.row j
  cells : cellColumns script ⊆ c.writtenColumns

variable {c : Component} {check : Option DilutedCheck} {i : Nat} {script : List Write}

theorem WritesInstance.refuse (e : LayoutError) : c.WritesInstance check i [.refuse e] where
  owns := nofun
  row_div := nofun
  nodup := List.nodup_nil
  accesses := nofun
  cells := nofun

/-- A script with accesses on even rows, whose other places are not in the pool of memory. -/
theorem WritesInstance.of_places (other : List (Nat × Nat)) (rows : List Nat)
    (hplaces : (places check script).Perm (other ++ accessPlaces rows))
    (haccess : accessRows script = rows) (hcells : cellColumns script ⊆ c.writtenColumns)
    (hother : ∀ p ∈ other, c.Owns p ∧ p.1 ≠ Column.memoryPool ∧ p.2 / c.height = i)
    (hnodup : other.Nodup)
    (hrows : ∀ row ∈ rows, (∃ slot ∈ c.memorySlots, ∃ j, row = slot.row j) ∧
      2 ∣ row ∧ row / c.height = i) (hdistinct : rows.Nodup) (hheight : 2 ∣ c.height) :
    c.WritesInstance check i script where
  owns p hp := by
    rw [hplaces.mem_iff, List.mem_append] at hp
    rcases hp with hp | hp
    · exact (hother p hp).1
    · obtain ⟨hcolumn, row, hrow, heq⟩ := mem_accessPlaces_iff.mp hp
      obtain ⟨⟨slot, hslot, j, rfl⟩, -⟩ := hrows row hrow
      exact Or.inl ⟨hcolumn, slot, hslot, j, heq⟩
  row_div p hp := by
    rw [hplaces.mem_iff, List.mem_append] at hp
    rcases hp with hp | hp
    · exact (hother p hp).2.2
    · obtain ⟨-, row, hrow, heq⟩ := mem_accessPlaces_iff.mp hp
      obtain ⟨-, heven, hdiv⟩ := hrows row hrow
      rcases heq with heq | heq
      · rw [heq, hdiv]
      · have hodd : ¬ c.height ∣ row + 1 := fun hdvd => by
          have hsucc := hheight.trans hdvd
          omega
        rw [heq, Nat.succ_div_of_not_dvd hodd, hdiv]
  nodup := by
    rw [hplaces.nodup_iff]
    refine nodup_append_of_key (·.1) hnodup
      (nodup_accessPlaces hdistinct fun row hrow => (hrows row hrow).2.1) fun p hp q hq => ?_
    rw [(mem_accessPlaces_iff.mp hq).1]
    exact (hother p hp).2.1
  accesses row hrow := (hrows row (haccess ▸ hrow)).1
  cells := hcells

/-- The pool of memory is no column of a builtin. -/
theorem IsAllotted.owns_of_column_mem (h : c.IsAllotted) {p : Nat × Nat}
    (hp : p.1 ∈ c.ownColumns) : c.Owns p ∧ p.1 ≠ Column.memoryPool := by
  refine ⟨Or.inr (Or.inr hp), fun heq => ?_⟩
  have hlt := h.lt_of_mem_ownColumns _ hp
  rw [heq] at hlt
  exact absurd hlt (by decide)

/-- The steps of an instance, in columns of its own. -/
theorem IsAllotted.of_mem_stepPlaces (h : c.IsAllotted) {cs : List VirtualColumn} {step count : Nat}
    (hcs : ∀ d ∈ cs, d.StartsSteps step) (hcolumns : cs.map (·.column) ⊆ c.ownColumns)
    (hstep : 0 < step) (hheight : count * step = c.height) {first length : Nat}
    (hfirst : count * i ≤ first) (hlast : first + length ≤ count * (i + 1)) {p : Nat × Nat}
    (hp : p ∈ stepPlaces cs first length) :
    c.Owns p ∧ p.1 ≠ Column.memoryPool ∧ p.2 / c.height = i := by
  obtain ⟨howns, hne⟩ := h.owns_of_column_mem (hcolumns (column_mem_of_mem_stepPlaces hp))
  have hdiv := row_div_of_mem_stepPlaces hstep hcs hfirst hlast hp
  rw [hheight] at hdiv
  exact ⟨howns, hne, hdiv⟩

end Component

/-! ## Parts of scripts -/

section Parts

variable {check : Option DilutedCheck}

/-- The places of a sum on whose first two steps the products of digits are. -/
def sumPlaces (cs : List VirtualColumn) (unpacking : VirtualColumn) (first : Nat) :
    List (Nat × Nat) :=
  stepPlaces cs first SubsetSum.steps ++ stepPlaces [unpacking] first 2

theorem sumPlaces_subset {cs : List VirtualColumn} {unpacking : VirtualColumn} {first : Nat} :
    sumPlaces cs unpacking first ⊆ stepPlaces (cs ++ [unpacking]) first SubsetSum.steps := by
  rw [sumPlaces, List.append_subset]
  constructor
  · intro p hp
    obtain ⟨k, hk, c, hc, rfl⟩ := mem_stepPlaces_iff.mp hp
    exact mem_stepPlaces_iff.mpr ⟨k, hk, c, List.mem_append_left _ hc, rfl⟩
  · intro p hp
    obtain ⟨k, hk, c, hc, rfl⟩ := mem_stepPlaces_iff.mp hp
    exact mem_stepPlaces_iff.mpr ⟨k, hk.trans (by decide), c, List.mem_append_right _ hc, rfl⟩

theorem nodup_sumPlaces {cs : List VirtualColumn} {unpacking : VirtualColumn} {step : Nat}
    (hstep : 0 < step) (hcs : ∀ c ∈ cs ++ [unpacking], c.StartsSteps step)
    (hnodup : ((cs ++ [unpacking]).map (·.column)).Nodup) (first : Nat) :
    (sumPlaces cs unpacking first).Nodup := by
  rw [List.forall_mem_append] at hcs
  rw [List.map_append, List.nodup_append] at hnodup
  obtain ⟨hstepNodup, hsingle, hdistinct⟩ := hnodup
  refine nodup_append_of_key (·.1) (nodup_stepPlaces hstep hcs.1 hstepNodup _ _)
    (nodup_stepPlaces hstep hcs.2 hsingle _ _) fun p hp q hq => ?_
  exact hdistinct _ (column_mem_of_mem_stepPlaces hp) _ (column_mem_of_mem_stepPlaces hq)

theorem places_unpackingWrites {c : VirtualColumn} {first : Nat} {scalar : Word} :
    places check (unpackingWrites c first scalar) = stepPlaces [c] first 2 := rfl

theorem cellColumns_unpackingWrites_subset {c : VirtualColumn} {first : Nat} {scalar : Word} :
    cellColumns (unpackingWrites c first scalar) ⊆ [c.column] := by
  intro k hk
  rcases List.mem_pair.mp hk with rfl | rfl <;> exact List.mem_singleton_self _

@[simp] theorem accessRows_unpackingWrites {c : VirtualColumn} {first : Nat} {scalar : Word} :
    accessRows (unpackingWrites c first scalar) = [] := rfl

/-- Columns that hold the products of digits. -/
theorem Write.AreHeld.unpacking_cellAt_eq {columns : List (Array Felt)} {c : VirtualColumn}
    {first : Nat} {scalar : Word}
    (h : Write.AreHeld check columns (unpackingWrites c first scalar)) :
    c.cellAt columns first = (unpackingProducts scalar).1 ∧
      c.cellAt columns (first + 1) = (unpackingProducts scalar).2 :=
  ⟨h.cellAt_eq (List.mem_cons_self ..),
    h.cellAt_eq (List.mem_cons_of_mem _ (List.mem_singleton_self _))⟩

variable (check) in
/-- The accesses of an instance, on rows that are given by their position. -/
theorem places_accesses {α : Type} (l : List α) (row : Nat → Nat) (address : α → Nat)
    (value : α → Felt) :
    places check (l.zipIdx.map fun q => .memory (row q.2) (address q.1) (value q.1)) =
        accessPlaces ((List.range l.length).map row) ∧
      accessRows (l.zipIdx.map fun q => .memory (row q.2) (address q.1) (value q.1)) =
        (List.range l.length).map row ∧
      cellColumns (l.zipIdx.map fun q => .memory (row q.2) (address q.1) (value q.1)) = [] := by
  rw [range_length_eq_map_zipIdx]
  refine ⟨?_, ?_, ?_⟩
  · rw [places, List.flatMap_map, List.map_flatMap, accessPlaces, List.map_map, List.flatMap_map]
    rfl
  · rw [accessRows, List.filterMap_map, List.map_map]
    exact congrFun List.filterMap_eq_map _
  · rw [cellColumns, List.filterMap_map]
    exact List.filterMap_eq_nil_iff.mpr fun _ _ => rfl

end Parts

/-! ## Multiples of a point -/

namespace EcOpCells

open SubsetSum (steps)

variable {cells : EcOpCells} {check : Option DilutedCheck} {n start i : Nat} {w : EcOp.Witness}

/-- The columns that an instance writes on each step. -/
def stepColumns (cells : EcOpCells) : List VirtualColumn :=
  [cells.sum.x, cells.sum.y, cells.sum.suffix, cells.sum.slope, cells.xDiffInv, cells.doubling.x,
    cells.doubling.y, cells.doubling.slope]

/-- The rows of the accesses of an instance. -/
def instanceRows (cells : EcOpCells) (i : Nat) : List Nat :=
  (List.range memoryCells).map fun k => cells.memory.row (memoryPlaces * i + k)

theorem places_instanceWrites (hdoubling : w.doubling.length = steps)
    (hsum : w.sum.length = steps) : places check (cells.instanceWrites start i w) =
      sumPlaces cells.stepColumns cells.unpacking (i * steps) ++
        accessPlaces (cells.instanceRows i) := by
  have hsteps := places_steps check cells.stepColumns
    (fun j (ds : DoublingStep × SumStep) => cells.stepWrites j ds.1 ds.2) (fun _ _ => rfl)
    (w.doubling.zip w.sum) (i * steps)
  rw [List.length_zip, hdoubling, hsum, min_self] at hsteps
  rw [instanceWrites, Write.places_append, Write.places_append, places_unpackingWrites]
  refine congrArg₂ _ (congrArg₂ _ hsteps rfl) ?_
  exact (places_accesses check _ (fun k => cells.memory.row (memoryPlaces * i + k)) Prod.fst
    Prod.snd).1

theorem accessRows_instanceWrites :
    accessRows (cells.instanceWrites start i w) = cells.instanceRows i := by
  have hsteps := accessRows_steps
    (fun j (ds : DoublingStep × SumStep) => cells.stepWrites j ds.1 ds.2) (fun _ _ => rfl)
    (w.doubling.zip w.sum) (i * steps)
  rw [instanceWrites, Write.accessRows_append, Write.accessRows_append, accessRows_unpackingWrites]
  refine (congrArg (· ++ _) (congrArg (· ++ _) hsteps)).trans ?_
  exact (places_accesses none _ (fun k => cells.memory.row (memoryPlaces * i + k)) Prod.fst
    Prod.snd).2.1

theorem cellColumns_instanceWrites_subset : cellColumns (cells.instanceWrites start i w) ⊆
    (cells.stepColumns ++ [cells.unpacking]).map (·.column) := by
  rw [instanceWrites, Write.cellColumns_append, Write.cellColumns_append, List.map_append]
  refine List.append_subset.mpr ⟨List.append_subset.mpr ⟨?_, ?_⟩, ?_⟩
  · refine List.Subset.trans ?_ (List.subset_append_left _ _)
    exact cellColumns_steps_subset cells.stepColumns
      (fun j (ds : DoublingStep × SumStep) => cells.stepWrites j ds.1 ds.2) (fun _ _ => rfl)
      (w.doubling.zip w.sum) (i * steps)
  · exact List.Subset.trans cellColumns_unpackingWrites_subset (List.subset_append_right _ _)
  · have haccesses := (places_accesses none ((w.inst.addresses start).zip
        [w.p.x, w.p.y, w.q.x, w.q.y, w.m, w.r.x, w.r.y])
      (fun k => cells.memory.row (memoryPlaces * i + k)) Prod.fst Prod.snd).2.2
    intro k hk
    exact absurd (haccesses ▸ hk) List.not_mem_nil

/-- No two writes of an instance are for the same place. -/
theorem writesInstance (h : cells.IsArranged n) (hallotted : (Component.ecOp cells).IsAllotted)
    (hdoubling : w.doubling.length = steps) (hsum : w.sum.length = steps) :
    (Component.ecOp cells).WritesInstance check i (cells.instanceWrites start i w) := by
  have hstep := pos_of_isPowerOfTwo h.isPowerOfTwo_step
  have hcolumns : ((cells.stepColumns ++ [cells.unpacking]).map (·.column)).Perm
      (Component.ecOp cells).ownColumns :=
    ((@List.perm_middle _ _ [cells.sum.slope.column, cells.xDiffInv.column] _).symm.cons _).cons _
  have hstarts : ∀ d ∈ cells.stepColumns ++ [cells.unpacking], d.StartsSteps cells.sum.step := by
    simp only [stepColumns, List.forall_mem_append, List.forall_mem_cons]
    exact ⟨⟨h.sum.x, h.sum.y, h.sum.suffix, h.sum.slope, h.xDiffInv, h.doubling.x, h.doubling.y,
      h.doubling.slope, List.forall_mem_nil _⟩, h.unpacking, List.forall_mem_nil _⟩
  have hplaces : memoryPlaces * (cells.height / memoryPlaces) = cells.height :=
    (mul_comm _ _).trans height_div_mul_memoryPlaces
  have hlast : i * steps + steps = steps * (i + 1) := by ring
  refine .of_places _ _ (.of_eq (places_instanceWrites hdoubling hsum)) accessRows_instanceWrites
    (List.Subset.trans cellColumns_instanceWrites_subset hcolumns.subset) ?_
    (nodup_sumPlaces hstep hstarts (hcolumns.nodup_iff.mpr hallotted.nodup_ownColumns) _) ?_ ?_ ?_
  · intro p hp
    exact hallotted.of_mem_stepPlaces hstarts hcolumns.subset hstep rfl (mul_comm _ _).le hlast.le
      (sumPlaces_subset hp)
  · intro row hrow
    obtain ⟨k, hk, rfl⟩ := List.mem_map.mp hrow
    have hk : k < memoryPlaces := (List.mem_range.mp hk).trans (by decide)
    obtain ⟨heven, hdiv⟩ := h.memory.row_mem_instance (i := i) hk
    rw [hplaces] at hdiv
    exact ⟨⟨_, List.mem_singleton_self _, _, rfl⟩, heven, hdiv⟩
  · exact List.nodup_range.map fun k k' heq =>
      Nat.add_left_cancel (VirtualColumn.row_injective h.memory.step_pos heq)
  · exact h.memory.two_dvd_step.trans (Dvd.intro_left _ hplaces)

end EcOpCells

/-! ## Pedersen hashes -/

namespace PedersenCells

open SubsetSum (steps)

variable {cells : PedersenCells} {check : Option DilutedCheck} {n start i : Nat}
  {w : Pedersen.Witness}

/-- The columns that an instance writes on each step. -/
def stepColumns (cells : PedersenCells) : List VirtualColumn :=
  [cells.sum.x, cells.sum.y, cells.sum.suffix, cells.sum.slope]

/-- The rows of the accesses of an instance. -/
def instanceRows (cells : PedersenCells) (i : Nat) : List Nat :=
  [cells.input0.row i, cells.input1.row i, cells.output.row i]

theorem places_inputWrites {first : Nat} {input : Word} {l : List Pedersen.Step}
    (hlength : l.length = steps) : places check (cells.inputWrites first input l) =
      sumPlaces cells.stepColumns cells.unpacking first := by
  have hsteps := places_steps check cells.stepColumns cells.stepWrites (fun _ _ => rfl) l first
  rw [hlength] at hsteps
  rw [inputWrites, Write.places_append, places_unpackingWrites]
  exact congrArg₂ _ hsteps rfl

theorem accessRows_inputWrites {first : Nat} {input : Word} {l : List Pedersen.Step} :
    accessRows (cells.inputWrites first input l) = [] := by
  rw [inputWrites, Write.accessRows_append, accessRows_unpackingWrites, List.append_nil]
  exact accessRows_steps cells.stepWrites (fun _ _ => rfl) l first

theorem places_instanceWrites (ha : w.aSteps.length = steps) (hb : w.bSteps.length = steps) :
    places check (cells.instanceWrites start i w) =
      (sumPlaces cells.stepColumns cells.unpacking (i * (2 * steps)) ++
        sumPlaces cells.stepColumns cells.unpacking (i * (2 * steps) + steps)) ++
          accessPlaces (cells.instanceRows i) := by
  rw [instanceWrites, Write.places_append, Write.places_append, places_inputWrites ha,
    places_inputWrites hb]
  rfl

theorem accessRows_instanceWrites :
    accessRows (cells.instanceWrites start i w) = cells.instanceRows i := by
  rw [instanceWrites, Write.accessRows_append, Write.accessRows_append, accessRows_inputWrites,
    accessRows_inputWrites]
  rfl

theorem cellColumns_instanceWrites_subset : cellColumns (cells.instanceWrites start i w) ⊆
    (Component.pedersen cells).ownColumns := by
  have hinput {first : Nat} {input : Word} {l : List Pedersen.Step} :
      cellColumns (cells.inputWrites first input l) ⊆ (Component.pedersen cells).ownColumns := by
    rw [inputWrites, Write.cellColumns_append]
    refine List.append_subset.mpr ⟨?_, ?_⟩
    · exact List.Subset.trans (cellColumns_steps_subset cells.stepColumns cells.stepWrites
        (fun _ _ => rfl) l first) (List.subset_append_left _ [cells.unpacking.column])
    · exact List.Subset.trans cellColumns_unpackingWrites_subset
        (List.subset_append_right (cells.stepColumns.map (·.column)) _)
  rw [instanceWrites, Write.cellColumns_append, Write.cellColumns_append]
  exact List.append_subset.mpr ⟨List.append_subset.mpr ⟨hinput, hinput⟩, List.nil_subset _⟩

theorem startsSteps (h : cells.IsArranged n) :
    ∀ d ∈ cells.stepColumns ++ [cells.unpacking], d.StartsSteps cells.sum.step := by
  simp only [stepColumns, List.forall_mem_append, List.forall_mem_cons]
  exact ⟨⟨h.sum.x, h.sum.y, h.sum.suffix, h.sum.slope, List.forall_mem_nil _⟩, h.unpacking,
    List.forall_mem_nil _⟩

/-- The two sums of an instance are on different rows. -/
theorem nodup_sums (h : cells.IsArranged n) (hallotted : (Component.pedersen cells).IsAllotted) :
    (sumPlaces cells.stepColumns cells.unpacking (i * (2 * steps)) ++
      sumPlaces cells.stepColumns cells.unpacking (i * (2 * steps) + steps)).Nodup := by
  have hstep := pos_of_isPowerOfTwo h.isPowerOfTwo_step
  have hstarts := startsSteps h
  have hnodup (first : Nat) : (sumPlaces cells.stepColumns cells.unpacking first).Nodup :=
    nodup_sumPlaces hstep hstarts hallotted.nodup_ownColumns first
  refine nodup_append_of_key (·.2 / (steps * cells.sum.step)) (hnodup _) (hnodup _)
    fun p hp q hq => ?_
  rw [row_div_of_mem_stepPlaces (i := 2 * i) hstep hstarts (by linarith) (by linarith)
    (sumPlaces_subset hp), row_div_of_mem_stepPlaces (i := 2 * i + 1) hstep hstarts (by linarith)
    (by linarith) (sumPlaces_subset hq)]
  omega

/-- No two writes of an instance are for the same place. -/
theorem writesInstance (h : cells.IsArranged n) (hallotted : (Component.pedersen cells).IsAllotted)
    (ha : w.aSteps.length = steps) (hb : w.bSteps.length = steps) :
    (Component.pedersen cells).WritesInstance check i (cells.instanceWrites start i w) := by
  have hstep := pos_of_isPowerOfTwo h.isPowerOfTwo_step
  have hstarts := startsSteps h
  have hfirst : 2 * steps * i = i * (2 * steps) := mul_comm _ _
  have hlast : i * (2 * steps) + steps + steps = 2 * steps * (i + 1) := by ring
  have hheight : 2 * steps * cells.sum.step = cells.height := mul_assoc _ _ _
  refine .of_places _ _ (.of_eq (places_instanceWrites ha hb)) accessRows_instanceWrites
    cellColumns_instanceWrites_subset ?_ ?_ ?_ ?_ h.input0.two_dvd_step
  · rw [List.forall_mem_append]
    constructor
    · intro p hp
      exact hallotted.of_mem_stepPlaces hstarts (List.Subset.refl _) hstep hheight hfirst.le
        ((Nat.le_add_right _ _).trans hlast.le) (sumPlaces_subset hp)
    · intro p hp
      exact hallotted.of_mem_stepPlaces hstarts (List.Subset.refl _) hstep hheight
        (hfirst.trans_le (Nat.le_add_right _ _)) hlast.le (sumPlaces_subset hp)
  · exact nodup_sums h hallotted
  · simp only [instanceRows, List.forall_mem_cons]
    exact ⟨⟨⟨_, .head _, i, rfl⟩, h.input0.row_mem i⟩,
      ⟨⟨_, .tail _ (.head _), i, rfl⟩, h.input1.row_mem i⟩,
      ⟨⟨_, .tail _ (.tail _ (.head _)), i, rfl⟩, h.output.row_mem i⟩, List.forall_mem_nil _⟩
  · have hseparate := hallotted.separate
    simp only [Component.memorySlots, List.pairwise_cons, List.mem_cons, List.not_mem_nil,
      or_false, forall_eq_or_imp, forall_eq] at hseparate
    obtain ⟨⟨h01, h02⟩, h12, -⟩ := hseparate
    simp [instanceRows, h01 i i, h02 i i, h12 i i]

end PedersenCells

/-! ## Signatures -/

namespace EcdsaCells

open SubsetSum (steps)

variable {cells : EcdsaCells} {check : Option DilutedCheck} {n start i : Nat} {w : Ecdsa.Witness}

/-- The columns that an instance writes on each step of the sum over the key. -/
def keyColumns (cells : EcdsaCells) : List VirtualColumn :=
  [cells.key.x, cells.key.y, cells.key.suffix, cells.key.slope, cells.keyXDiffInv,
    cells.doubling.x, cells.doubling.y, cells.doubling.slope]

/-- The columns that an instance writes on each step of the sum over the generator. -/
def generatorColumns (cells : EcdsaCells) : List VirtualColumn :=
  [cells.generator.x, cells.generator.y, cells.generator.suffix, cells.generator.slope,
    cells.generatorXDiffInv]

/-- The places of the cells that an instance has once. -/
def oncePlaces (cells : EcdsaCells) (i : Nat) : List (Nat × Nat) :=
  (List.range 6).map fun k => (cells.cells, k + cells.height * i)

/-- The places of the cells of an instance. -/
def cellPlaces (cells : EcdsaCells) (i : Nat) : List (Nat × Nat) :=
  stepPlaces cells.generatorColumns (i * steps) steps ++
    stepPlaces cells.keyColumns (i * (2 * steps)) (2 * steps) ++ cells.oncePlaces i

/-- The rows of the accesses of an instance. -/
def instanceRows (cells : EcdsaCells) (i : Nat) : List Nat :=
  [cells.pubkey.row i, cells.message.row i]

theorem places_instanceWrites (hgenerator : w.generatorSum.length = steps)
    (hkey : w.keySum.length = 2 * steps) (hdoubling : w.doubling.length = 2 * steps) :
    places check (cells.instanceWrites start i w) =
      cells.cellPlaces i ++ accessPlaces (cells.instanceRows i) := by
  have hgeneratorSteps := places_steps check cells.generatorColumns
    (fun j s => sumWrites cells.generator cells.generatorXDiffInv j s) (fun _ _ => rfl)
    w.generatorSum (i * steps)
  have hkeySteps := places_steps check cells.keyColumns
    (fun j (sd : SumStep × DoublingStep) =>
      sumWrites cells.key cells.keyXDiffInv j sd.1 ++ cells.doublingWrites j sd.2)
    (fun _ _ => rfl) (w.keySum.zip w.doubling) (i * (2 * steps))
  rw [hgenerator] at hgeneratorSteps
  rw [List.length_zip, hkey, hdoubling, min_self] at hkeySteps
  rw [instanceWrites, Write.places_append, Write.places_append, Write.places_append]
  exact congrArg₂ _ (congrArg₂ _ (congrArg₂ _ hgeneratorSteps hkeySteps) rfl) rfl

theorem accessRows_instanceWrites :
    accessRows (cells.instanceWrites start i w) = cells.instanceRows i := by
  have hgenerator := accessRows_steps
    (fun j s => sumWrites cells.generator cells.generatorXDiffInv j s) (fun _ _ => rfl)
    w.generatorSum (i * steps)
  have hkey := accessRows_steps
    (fun j (sd : SumStep × DoublingStep) =>
      sumWrites cells.key cells.keyXDiffInv j sd.1 ++ cells.doublingWrites j sd.2)
    (fun _ _ => rfl) (w.keySum.zip w.doubling) (i * (2 * steps))
  rw [instanceWrites, Write.accessRows_append, Write.accessRows_append, Write.accessRows_append]
  exact congrArg (· ++ _) (congrArg (· ++ _) (congrArg₂ (· ++ ·) hgenerator hkey))

theorem ownColumns_eq : (Component.ecdsa cells).ownColumns = cells.keyColumns.map (·.column) ++
    (cells.generatorColumns.map (·.column) ++ [cells.cells]) := rfl

theorem cellColumns_instanceWrites_subset : cellColumns (cells.instanceWrites start i w) ⊆
    (Component.ecdsa cells).ownColumns := by
  rw [instanceWrites, Write.cellColumns_append, Write.cellColumns_append, Write.cellColumns_append,
    ownColumns_eq]
  refine List.append_subset.mpr ⟨List.append_subset.mpr
    ⟨List.append_subset.mpr ⟨?_, ?_⟩, ?_⟩, List.nil_subset _⟩
  · refine List.Subset.trans (cellColumns_steps_subset cells.generatorColumns
      (fun j s => sumWrites cells.generator cells.generatorXDiffInv j s) (fun _ _ => rfl)
      w.generatorSum (i * steps)) fun _ hk => ?_
    exact List.mem_append_right _ (List.mem_append_left _ hk)
  · exact List.Subset.trans (cellColumns_steps_subset cells.keyColumns
      (fun j (sd : SumStep × DoublingStep) =>
        sumWrites cells.key cells.keyXDiffInv j sd.1 ++ cells.doublingWrites j sd.2)
      (fun _ _ => rfl) (w.keySum.zip w.doubling) (i * (2 * steps))) (List.subset_append_left _ _)
  · intro k hk
    obtain rfl : k = cells.cells := List.eq_of_mem_replicate (n := 6) hk
    exact List.mem_append_right _ (List.mem_append_right _ (List.mem_singleton_self _))

theorem startsSteps_keyColumns (h : cells.IsArranged n) :
    ∀ d ∈ cells.keyColumns, d.StartsSteps cells.key.step := by
  simp only [keyColumns, List.forall_mem_cons]
  exact ⟨h.key.x, h.key.y, h.key.suffix, h.key.slope, h.keyXDiffInv, h.doubling.x, h.doubling.y,
    h.doubling.slope, List.forall_mem_nil _⟩

theorem startsSteps_generatorColumns (h : cells.IsArranged n) :
    ∀ d ∈ cells.generatorColumns, d.StartsSteps cells.generator.step := by
  simp only [generatorColumns, List.forall_mem_cons]
  exact ⟨h.generator.x, h.generator.y, h.generator.suffix, h.generator.slope, h.generatorXDiffInv,
    List.forall_mem_nil _⟩

/-- An instance has twice as many steps of the sum over the key. -/
theorem two_mul_steps_mul_step (h : cells.IsArranged n) :
    2 * steps * cells.key.step = cells.height := by
  rw [height, SubsetSum.height, h.generator_step]
  ring

theorem generator_step_pos (h : cells.IsArranged n) : 0 < cells.generator.step := by
  have hstep := pos_of_isPowerOfTwo h.isPowerOfTwo_step
  rw [h.generator_step]
  omega

theorem mem_oncePlaces (h : cells.IsArranged n) {p : Nat × Nat} (hp : p ∈ cells.oncePlaces i) :
    p.1 = cells.cells ∧ p.2 / cells.height = i := by
  have hstep := pos_of_isPowerOfTwo h.isPowerOfTwo_step
  have hheight : 6 < cells.height := by
    rw [← two_mul_steps_mul_step h, SubsetSum.steps]
    omega
  obtain ⟨k, hk, rfl⟩ := List.mem_map.mp hp
  have hk : k < 6 := List.mem_range.mp hk
  refine ⟨rfl, ?_⟩
  rw [Nat.add_mul_div_left _ _ (by omega), Nat.div_eq_of_lt (by omega), zero_add]

/-- The cells of an instance are in columns of their own, on the rows of the instance. -/
theorem owns_of_mem_cellPlaces (h : cells.IsArranged n)
    (hallotted : (Component.ecdsa cells).IsAllotted) {p : Nat × Nat}
    (hp : p ∈ cells.cellPlaces i) : (Component.ecdsa cells).Owns p ∧ p.1 ≠ Column.memoryPool ∧
      p.2 / cells.height = i := by
  have hgenerator :
      cells.generatorColumns.map (·.column) ⊆ (Component.ecdsa cells).ownColumns :=
    ownColumns_eq ▸ fun _ hk => List.mem_append_right _ (List.mem_append_left _ hk)
  have hkeyLast : i * (2 * steps) + 2 * steps = 2 * steps * (i + 1) := by ring
  have hgeneratorLast : i * steps + steps = steps * (i + 1) := by ring
  simp only [cellPlaces, List.mem_append] at hp
  rcases hp with (hp | hp) | hp
  · exact hallotted.of_mem_stepPlaces (startsSteps_generatorColumns h) hgenerator
      (generator_step_pos h) rfl (mul_comm _ _).le hgeneratorLast.le hp
  · exact hallotted.of_mem_stepPlaces (startsSteps_keyColumns h) (List.subset_append_left _ _)
      (pos_of_isPowerOfTwo h.isPowerOfTwo_step) (two_mul_steps_mul_step h) (mul_comm _ _).le
      hkeyLast.le hp
  · obtain ⟨hcolumn, hdiv⟩ := mem_oncePlaces h hp
    have hmem : p.1 ∈ (Component.ecdsa cells).ownColumns :=
      List.mem_append_right _ (hcolumn ▸ List.mem_singleton_self _)
    obtain ⟨howns, hne⟩ := hallotted.owns_of_column_mem hmem
    exact ⟨howns, hne, hdiv⟩

theorem nodup_cellPlaces (h : cells.IsArranged n)
    (hallotted : (Component.ecdsa cells).IsAllotted) : (cells.cellPlaces i).Nodup := by
  have hnodup := hallotted.nodup_ownColumns
  rw [ownColumns_eq, List.nodup_append, List.nodup_append] at hnodup
  obtain ⟨hkey, ⟨hgenerator, -, honce⟩, hdistinct⟩ := hnodup
  refine nodup_append_of_key (·.1) (nodup_append_of_key (·.1)
    (nodup_stepPlaces (generator_step_pos h) (startsSteps_generatorColumns h) hgenerator _ _)
    (nodup_stepPlaces (pos_of_isPowerOfTwo h.isPowerOfTwo_step) (startsSteps_keyColumns h) hkey
      _ _) fun p hp q hq => ?_) ?_ ?_
  · exact (hdistinct _ (column_mem_of_mem_stepPlaces hq) _
      (List.mem_append_left _ (column_mem_of_mem_stepPlaces hp))).symm
  · exact List.nodup_range.map fun k k' heq => Nat.add_right_cancel (Prod.ext_iff.mp heq).2
  · intro p hp q hq
    rw [(mem_oncePlaces h hq).1]
    rcases List.mem_append.mp hp with hp | hp
    · exact honce _ (column_mem_of_mem_stepPlaces hp) _ (List.mem_singleton_self _)
    · exact hdistinct _ (column_mem_of_mem_stepPlaces hp) _
        (List.mem_append_right _ (List.mem_singleton_self _))

/-- No two writes of an instance are for the same place. -/
theorem writesInstance (h : cells.IsArranged n) (hallotted : (Component.ecdsa cells).IsAllotted)
    (hgenerator : w.generatorSum.length = steps) (hkey : w.keySum.length = 2 * steps)
    (hdoubling : w.doubling.length = 2 * steps) :
    (Component.ecdsa cells).WritesInstance check i (cells.instanceWrites start i w) := by
  refine .of_places _ _ (.of_eq (places_instanceWrites hgenerator hkey hdoubling))
    accessRows_instanceWrites cellColumns_instanceWrites_subset
    (fun p hp => owns_of_mem_cellPlaces h hallotted hp) (nodup_cellPlaces h hallotted) ?_ ?_
    h.pubkey.two_dvd_step
  · simp only [instanceRows, List.forall_mem_cons]
    exact ⟨⟨⟨_, .head _, i, rfl⟩, h.pubkey.row_mem i⟩,
      ⟨⟨_, .tail _ (.head _), i, rfl⟩, h.message.row_mem i⟩, List.forall_mem_nil _⟩
  · have hseparate := hallotted.separate
    simp only [Component.memorySlots, List.pairwise_cons, List.mem_cons, List.not_mem_nil,
      or_false, forall_eq] at hseparate
    simp [instanceRows, hseparate.1 i i]

end EcdsaCells

/-! ## Range checked words -/

namespace RangeCheckCells

variable {cells : RangeCheckCells} {check : Option DilutedCheck} {n start i : Nat}

theorem instanceWrites_subset {instances : List (Option RangeCheckInstance)}
    {inst? : Option RangeCheckInstance} (hinst : instances[i]? = some inst?) :
    cells.instanceWrites start i (inst?.getD ⟨i, 0⟩) ⊆ cells.writes start instances :=
  Result.subset_flatMap_zipIdx hinst fun q => cells.instanceWrites start q.2 (q.1.getD ⟨q.2, 0⟩)

/-- The places of the parts of a word. -/
def partPlaces (cells : RangeCheckCells) (i : Nat) : List (Nat × Nat) :=
  (List.range cells.partCount).map fun j =>
    (Column.rangeCheckPool, cells.parts.row (cells.partCount * i + j))

theorem places_parts {parts : List Nat} (hlength : parts.length = cells.partCount) :
    places check (parts.zipIdx.map fun q =>
      .rangeCheck (cells.parts.row (i * cells.partCount + q.2)) q.1) = cells.partPlaces i := by
  rw [places, List.flatMap_map, List.map_flatMap, partPlaces, ← hlength,
    range_length_eq_map_zipIdx, List.map_map, mul_comm i, hlength]
  exact List.map_eq_flatMap.symm

theorem accessRows_parts (parts : List Nat) (row : Nat → Nat) :
    accessRows (parts.zipIdx.map fun q => .rangeCheck (row q.2) q.1) = [] := by
  rw [accessRows, List.filterMap_map]
  exact List.filterMap_eq_nil_iff.mpr fun _ _ => rfl

theorem cellColumns_parts (parts : List Nat) (row : Nat → Nat) :
    cellColumns (parts.zipIdx.map fun q => .rangeCheck (row q.2) q.1) = [] := by
  rw [cellColumns, List.filterMap_map]
  exact List.filterMap_eq_nil_iff.mpr fun _ _ => rfl

/-- No two writes of an instance are for the same place. -/
theorem writesInstance (h : cells.IsArranged n) (inst : RangeCheckInstance) :
    (Component.rangeCheck cells).WritesInstance check i (cells.instanceWrites start i inst) := by
  rw [instanceWrites]
  split
  · exact .refuse _
  · next parts hparts =>
    have hlength := (RangeCheck.parts_eq_ok_iff.mp hparts).length_eq
    have hplaces : places check (.memory (cells.memory.row i) (inst.address start)
        (.ofNat inst.value) :: parts.zipIdx.map fun q =>
          .rangeCheck (cells.parts.row (i * cells.partCount + q.2)) q.1) =
        accessPlaces [cells.memory.row i] ++ cells.partPlaces i := by
      rw [Write.places_memory, places_parts hlength]
      rfl
    refine .of_places (cells.partPlaces i) [cells.memory.row i]
      ((List.Perm.of_eq hplaces).trans List.perm_append_comm) ?_ ?_ ?_ ?_ ?_
      (List.nodup_singleton _) h.memory.two_dvd_step
    · exact congrArg (_ :: ·) (accessRows_parts parts fun j =>
        cells.parts.row (i * cells.partCount + j))
    · exact List.subset_nil.mpr (cellColumns_parts parts fun j =>
        cells.parts.row (i * cells.partCount + j))
    · intro p hp
      obtain ⟨j, hj, rfl⟩ := List.mem_map.mp hp
      have hcolumn : Column.rangeCheckPool ≠ Column.memoryPool := by decide
      refine ⟨Or.inr (Or.inl ⟨rfl, _, List.mem_singleton_self _, _, rfl⟩), hcolumn, ?_⟩
      have hdiv := VirtualColumn.row_div (c := cells.parts) (i := i) ⟨rfl, h.parts_offset⟩
        (List.mem_range.mp hj)
      rwa [h.partCount_mul_step] at hdiv
    · refine List.nodup_range.map fun j j' heq => Nat.add_left_cancel
        (VirtualColumn.row_injective ?_ (Prod.ext_iff.mp heq).2)
      exact (Nat.zero_le _).trans_lt h.parts_offset
    · exact List.forall_mem_singleton.mpr
        ⟨⟨_, List.mem_singleton_self _, i, rfl⟩, h.memory.row_mem i⟩

end RangeCheckCells

/-! ## Bitwise operations -/

namespace BitwiseCells

variable {cells : BitwiseCells} {check : Option DilutedCheck} {config : LayoutConfig}
  {n start i : Nat}

/-- The places of diluted numbers on given rows. -/
def dilutedPlaces (check : Option DilutedCheck) (rows : List Nat) : List (Nat × Nat) :=
  rows.flatMap fun row => check.toList.map fun c => (c.pool, row)

theorem mem_dilutedPlaces_iff {rows : List Nat} {p : Nat × Nat} :
    p ∈ dilutedPlaces check rows ↔ (∃ c ∈ check, c.pool = p.1) ∧ p.2 ∈ rows := by
  obtain ⟨column, row⟩ := p
  simp only [dilutedPlaces, List.mem_flatMap, List.mem_map, Option.mem_toList, Prod.mk.injEq]
  constructor
  · rintro ⟨r, hr, c, hc, hcolumn, rfl⟩
    exact ⟨⟨c, hc, hcolumn⟩, hr⟩
  · rintro ⟨⟨c, hc, hcolumn⟩, hr⟩
    exact ⟨row, hr, c, hc, hcolumn, rfl⟩

theorem nodup_dilutedPlaces {rows : List Nat} (hrows : rows.Nodup) :
    (dilutedPlaces check rows).Nodup := by
  refine nodup_flatMap_of_key (·.2) (g := id) ?_ (by rwa [List.map_id]) fun row _ => ?_
  · intro row _ p hp
    obtain ⟨c, -, rfl⟩ := List.mem_map.mp hp
    rfl
  · cases check with
    | none => exact List.nodup_nil
    | some c => exact List.nodup_singleton _

theorem dilutedPlaces_flatMap {α : Type} {l : List α} {f : α → List Nat} :
    dilutedPlaces check (l.flatMap f) = l.flatMap fun a => dilutedPlaces check (f a) :=
  List.flatMap_assoc

theorem places_map_diluted {α : Type} {l : List α} {row v : α → Nat} :
    places check (l.map fun a => .diluted (row a) (v a)) = dilutedPlaces check (l.map row) := by
  rw [places, List.flatMap_map, List.map_flatMap, dilutedPlaces, List.flatMap_map]
  cases check <;> rfl

theorem accessRows_map_diluted {α : Type} {l : List α} {row v : α → Nat} :
    accessRows (l.map fun a => .diluted (row a) (v a)) = [] ∧
      cellColumns (l.map fun a => .diluted (row a) (v a)) = [] := by
  rw [accessRows, cellColumns, List.filterMap_map, List.filterMap_map]
  exact ⟨List.filterMap_eq_nil_iff.mpr fun _ _ => rfl, List.filterMap_eq_nil_iff.mpr fun _ _ => rfl⟩

/-- The rows of the strands of an instance. -/
def strandRows (cells : BitwiseCells) (i : Nat) : List Nat :=
  (List.range valueCount ×ˢ List.range cells.dilution.strands).map fun q =>
    i * cells.height + cells.strandRow q.1 q.2

/-- The rows of the trim cells of an instance. -/
def trimRows (cells : BitwiseCells) (i : Nat) : List Nat :=
  (cells.trimmed.filter fun q => q.2 ≠ 0).map fun q => i * cells.height + cells.trimRow q.1

/-- The rows of the accesses of an instance. -/
def instanceRows (cells : BitwiseCells) (i : Nat) : List Nat :=
  (List.range valueCount).map (fun k => cells.values.row (valueCount * i + k)) ++
    [cells.disjunction.row i]

section Scripts

variable {w : Bitwise.Witness}

theorem places_strandWrites (hcount : w.partitions.length = valueCount)
    (hlength : ∀ strands ∈ w.partitions, strands.length = cells.dilution.strands) :
    places check (cells.strandWrites (i * cells.height) w) =
      dilutedPlaces check (cells.strandRows i) := by
  have hpartition (q : List Word × Nat) (hq : q ∈ w.partitions.zipIdx) :
      places check (q.1.zipIdx.map fun r =>
          .diluted (i * cells.height + cells.strandRow q.2 r.2) (cells.compact r.1)) =
        dilutedPlaces check ((List.range cells.dilution.strands).map fun k =>
          i * cells.height + cells.strandRow q.2 k) := by
    rw [places_map_diluted, ← hlength _ (List.fst_mem_of_mem_zipIdx hq),
      range_length_eq_map_zipIdx, List.map_map]
    rfl
  have hrows : cells.strandRows i = (List.range valueCount).flatMap fun v =>
      (List.range cells.dilution.strands).map fun k => i * cells.height + cells.strandRow v k := by
    refine List.map_flatMap.trans ?_
    simp only [List.map_map, Function.comp_def]
  rw [strandWrites, Write.places_flatMap, List.flatMap_congr hpartition, hrows,
    dilutedPlaces_flatMap, ← hcount, range_length_eq_map_zipIdx, List.flatMap_map]

/-- The trim cells are those of the strands that have digits. -/
theorem trimWrites_eq (base : Nat) : cells.trimWrites base w =
    (cells.trimmed.filter fun q => q.2 ≠ 0).map fun q => .diluted (base + cells.trimRow q.1)
      ((cells.compact (cells.dilution.strand w.conjunction (cells.topStrand q.1)) |||
        cells.compact (cells.dilution.strand w.exclusive (cells.topStrand q.1))) <<<
          (cells.dilution.bits - q.2)) := by
  rw [trimWrites]
  generalize cells.trimmed = trimmed
  induction trimmed with
  | nil => rfl
  | cons q trimmed ih =>
    by_cases hq : q.2 = 0
    · simp [hq, ih]
    · simp [hq, ih]

theorem places_trimWrites : places check (cells.trimWrites (i * cells.height) w) =
    dilutedPlaces check (cells.trimRows i) := by
  rw [trimWrites_eq, places_map_diluted]
  rfl

theorem accessRows_strandWrites {base : Nat} : accessRows (cells.strandWrites base w) = [] ∧
    cellColumns (cells.strandWrites base w) = [] := by
  rw [strandWrites, Write.accessRows_flatMap, Write.cellColumns_flatMap]
  exact ⟨List.flatMap_eq_nil_iff.mpr fun _ _ => accessRows_map_diluted.1,
    List.flatMap_eq_nil_iff.mpr fun _ _ => accessRows_map_diluted.2⟩

theorem accessRows_trimWrites {base : Nat} : accessRows (cells.trimWrites base w) = [] ∧
    cellColumns (cells.trimWrites base w) = [] := by
  rw [trimWrites_eq]
  exact accessRows_map_diluted

end Scripts

section Rows

variable (h : cells.IsArranged config n)
include h

theorem nodup_strandRows : (cells.strandRows i).Nodup := by
  refine (List.nodup_range.product List.nodup_range).map_on fun q hq q' hq' heq => ?_
  have hv : q.1 < 4 := List.mem_range.mp (List.mem_product.mp hq).1
  have hv' : q'.1 < 4 := List.mem_range.mp (List.mem_product.mp hq').1
  have hmul : 4 * q.2 + q.1 = 4 * q'.2 + q'.1 := Nat.eq_of_mul_eq_mul_left
    (pos_of_isPowerOfTwo h.isPowerOfTwo_strandStep) (Nat.add_left_cancel heq)
  exact Prod.ext (by omega) (by omega)

theorem nodup_trimRows : (cells.trimRows i).Nodup := by
  have hpos : 0 < valueCount * cells.strandStep :=
    Nat.mul_pos (by decide) (pos_of_isPowerOfTwo h.isPowerOfTwo_strandStep)
  have hsublist : ((cells.trimmed.filter fun q => q.2 ≠ 0).map (·.1)).Sublist
      (List.range cells.dilution.spacing) := by
    have hall := (List.filter_sublist (p := fun q : Nat × Nat => decide (q.2 ≠ 0))).trans
      (List.filter_sublist (l := (List.range cells.dilution.spacing).map fun j =>
        (j, cells.dilution.topStrandBits j)) (p := fun q => decide (q.2 < cells.dilution.bits)))
    simpa only [trimmed, List.map_map, Function.comp_def, List.map_id'] using hall.map (·.1)
  have hrows : cells.trimRows i = ((cells.trimmed.filter fun q => q.2 ≠ 0).map (·.1)).map fun j =>
      i * cells.height + cells.trimRow j := by
    rw [List.map_map]
    rfl
  rw [hrows]
  refine (List.nodup_range.sublist hsublist).map fun j j' heq => ?_
  exact Nat.eq_of_mul_eq_mul_left hpos (Nat.add_right_cancel (Nat.add_left_cancel heq))

/-- Trim cells are not on the rows of strands. -/
theorem row_mod_of_mem {row : Nat} : (row ∈ cells.strandRows i → row % cells.strandStep = 0) ∧
    (row ∈ cells.trimRows i → row % cells.strandStep = 1) := by
  have htwo := h.two_le_strandStep
  have hheight : cells.height = cells.strandStep * (valueCount * cells.dilution.strands) :=
    h.strands_mul_step.symm.trans (mul_comm _ _)
  constructor
  · intro hrow
    obtain ⟨q, -, rfl⟩ := List.mem_map.mp hrow
    rw [hheight, strandRow, mul_left_comm, ← mul_add, Nat.mul_mod_right]
  · intro hrow
    obtain ⟨q, -, rfl⟩ := List.mem_map.mp hrow
    have hrow : i * cells.height + cells.trimRow q.1 = cells.strandStep *
        (i * (valueCount * cells.dilution.strands) + valueCount * q.1) + 1 := by
      rw [hheight, trimRow]
      ring
    rw [hrow, Nat.mul_add_mod, Nat.mod_eq_of_lt (by omega)]

theorem row_div_of_mem_strandRows {row : Nat}
    (hrow : row ∈ cells.strandRows i ++ cells.trimRows i) : row / cells.height = i := by
  have hdiv {r : Nat} (hr : r < cells.height) : (i * cells.height + r) / cells.height = i := by
    rw [mul_comm, Nat.mul_add_div (by omega), Nat.div_eq_of_lt hr, add_zero]
  rcases List.mem_append.mp hrow with hrow | hrow
  · obtain ⟨q, hq, rfl⟩ := List.mem_map.mp hrow
    obtain ⟨hv, hk⟩ := List.mem_product.mp hq
    exact hdiv (strandRow_lt h (List.mem_range.mp hv) (List.mem_range.mp hk))
  · obtain ⟨q, hq, rfl⟩ := List.mem_map.mp hrow
    obtain ⟨j, hj, rfl⟩ := List.mem_map.mp (List.mem_of_mem_filter (List.mem_of_mem_filter hq))
    exact hdiv (trimRow_lt h (List.mem_range.mp hj))

end Rows

/-- The slots of an instance do not overlap. -/
theorem nodup_instanceRows (h : cells.IsArranged config n)
    (hallotted : (Component.bitwise cells).IsAllotted) : (cells.instanceRows i).Nodup := by
  have hseparate := hallotted.separate
  simp only [Component.memorySlots, List.pairwise_cons, List.mem_cons, List.not_mem_nil,
    or_false, forall_eq] at hseparate
  refine List.nodup_append.mpr ⟨List.nodup_range.map fun k k' heq => Nat.add_left_cancel
    (VirtualColumn.row_injective h.values.step_pos heq), List.nodup_singleton _, ?_⟩
  intro row hrow row' hrow'
  obtain ⟨k, -, rfl⟩ := List.mem_map.mp hrow
  obtain rfl := List.mem_singleton.mp hrow'
  exact hseparate.1 _ _

theorem partitions_of_ofInstance {inst : BitwiseInstance} {d : Dilution} {w : Bitwise.Witness}
    (h : Bitwise.Witness.ofInstance inst d = .ok w) :
    w.partitions.length = valueCount ∧ ∀ strands ∈ w.partitions, strands.length = d.strands := by
  simp only [Bitwise.Witness.ofInstance, Result.bind_eq_ok_iff] at h
  obtain ⟨-, -, -, -, heq⟩ := h
  obtain rfl := Except.ok.inj heq
  refine ⟨rfl, List.forall_mem_map.mpr fun word _ => ?_⟩
  rw [Dilution.partition, List.length_map, List.length_range]

/-- No two writes of an instance are for the same place. -/
theorem writesInstance (h : cells.IsArranged config n)
    (hallotted : (Component.bitwise cells).IsAllotted) (hcheck : ∀ c ∈ check, c.pool = cells.pool)
    (inst : BitwiseInstance) :
    (Component.bitwise cells).WritesInstance check i (cells.instanceWrites start i inst) := by
  rw [instanceWrites]
  split
  · exact .refuse _
  · next w hw =>
    obtain ⟨hcount, hlength⟩ := partitions_of_ofInstance hw
    have hplaces : places check (cells.strandWrites (i * cells.height) w ++
        cells.trimWrites (i * cells.height) w) =
          dilutedPlaces check (cells.strandRows i ++ cells.trimRows i) := by
      rw [Write.places_append, places_strandWrites hcount hlength, places_trimWrites,
        dilutedPlaces, dilutedPlaces, dilutedPlaces, List.flatMap_append]
    have haccesses := places_accesses check ((w.inst.addresses start).zip
        [w.inst.x, w.inst.y, w.conjunction, w.exclusive, w.disjunction])
      (fun k => if k < valueCount then cells.values.row (valueCount * i + k)
        else cells.disjunction.row i) Prod.fst fun q => .ofNat q.2
    have hvalues {k : Nat} (hk : k < valueCount) :
        2 ∣ cells.values.row (valueCount * i + k) ∧
          cells.values.row (valueCount * i + k) / cells.height = i := by
      rw [h.height_eq]
      exact h.values.row_mem_instance hk
    refine .of_places (dilutedPlaces check (cells.strandRows i ++ cells.trimRows i))
      (cells.instanceRows i) (.of_eq ?_) ?_ ?_ ?_ ?_ ?_ ?_ h.disjunction.two_dvd_step
    · rw [Write.places_append, hplaces]
      exact congrArg _ haccesses.1
    · rw [Write.accessRows_append, Write.accessRows_append, accessRows_strandWrites.1,
        accessRows_trimWrites.1]
      exact haccesses.2.1
    · rw [Write.cellColumns_append, Write.cellColumns_append, accessRows_strandWrites.2,
        accessRows_trimWrites.2]
      exact List.subset_nil.mpr haccesses.2.2
    · intro p hp
      obtain ⟨⟨c, hc, hpool⟩, hrow⟩ := mem_dilutedPlaces_iff.mp hp
      have hcolumn : p.1 = cells.pool := hpool.symm.trans (hcheck c hc)
      have hmem : cells.pool ∈ (Component.bitwise cells).ownColumns := List.mem_singleton_self _
      obtain ⟨howns, hne⟩ := hallotted.owns_of_column_mem (hcolumn ▸ hmem)
      exact ⟨howns, hne, row_div_of_mem_strandRows h hrow⟩
    · refine nodup_dilutedPlaces (nodup_append_of_key (· % cells.strandStep) (nodup_strandRows h)
        (nodup_trimRows h) fun row hrow row' hrow' => ?_)
      rw [(row_mod_of_mem h).1 hrow, (row_mod_of_mem h).2 hrow']
      exact zero_ne_one
    · rw [instanceRows, List.forall_mem_append, List.forall_mem_map, List.forall_mem_singleton]
      refine ⟨fun k hk => ?_, ⟨_, .tail _ (.head _), i, rfl⟩, h.disjunction.row_mem i⟩
      exact ⟨⟨_, .head _, _, rfl⟩, hvalues (List.mem_range.mp hk)⟩
    · exact nodup_instanceRows h hallotted

end BitwiseCells

end CairoTrace
