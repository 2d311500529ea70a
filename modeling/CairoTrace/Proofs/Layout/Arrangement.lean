import CairoTrace.Component
import CairoTrace.Proofs.Layout.Config
import CairoTrace.Proofs.StarkField

/-!
# Where the cells of builtins are

The cells of a builtin follow each other at steps that divide the rows of an instance, and its slots
of memory have their values beside their addresses (`Component.IsArranged`). Layouts arrange their
components so.
-/

namespace CairoTrace

/-! ## Virtual columns -/

/-- Whether a virtual column has a cell on the first row of every step. -/
def VirtualColumn.StartsSteps (c : VirtualColumn) (step : Nat) : Prop :=
  c.step = step ∧ c.offset = 0

/-- Whether a virtual column is a slot of memory, whose addresses have their values on the next
row. -/
structure VirtualColumn.IsMemorySlot (c : VirtualColumn) (step : Nat) : Prop where
  column_eq : c.column = Column.memoryPool
  step_eq : c.step = step
  isPowerOfTwo_step : isPowerOfTwo step = true
  dvd_offset : memoryStep ∣ c.offset
  offset_succ_lt : c.offset + 1 < step

theorem VirtualColumn.IsMemorySlot.congr {c : VirtualColumn} {step step' : Nat}
    (h : c.IsMemorySlot step) (heq : step' = step) : c.IsMemorySlot step' := heq ▸ h

/-! ## Builtins -/

/-- Whether a sum has its cells on the first row of every step. -/
structure SubsetSum.IsArranged (s : SubsetSum) : Prop where
  x : s.x.StartsSteps s.step
  y : s.y.StartsSteps s.step
  suffix : s.suffix.StartsSteps s.step
  slope : s.slope.StartsSteps s.step

theorem SubsetSum.isArranged_ofColumns {x y suffix slope step bits : Nat} :
    (ofColumns x y suffix slope step bits).IsArranged :=
  ⟨⟨rfl, rfl⟩, ⟨rfl, rfl⟩, ⟨rfl, rfl⟩, ⟨rfl, rfl⟩⟩

/-- Whether a doubling has its cells on the first row of every step. -/
structure Doubling.IsArranged (d : Doubling) (step : Nat) : Prop where
  x : d.x.StartsSteps step
  y : d.y.StartsSteps step
  slope : d.slope.StartsSteps step

/-- Whether an instance sums up twice, one sum after the other. -/
structure PedersenCells.IsArranged (n : Nat) (c : PedersenCells) : Prop where
  isPowerOfTwo_step : isPowerOfTwo c.sum.step = true
  height_le : c.height ≤ n
  scalarBits_eq : c.sum.scalarBits = Pedersen.inputBits
  sum : c.sum.IsArranged
  unpacking : c.unpacking.StartsSteps c.sum.step
  input0 : c.input0.IsMemorySlot c.height
  input1 : c.input1.IsMemorySlot c.height
  output : c.output.IsMemorySlot c.height

/-- Whether the parts of a word are spread over the rows of its instance. -/
structure RangeCheckCells.IsArranged (n : Nat) (c : RangeCheckCells) : Prop where
  height_le : c.height ≤ n
  memory : c.memory.IsMemorySlot c.height
  parts_column : c.parts.column = Column.rangeCheckPool
  parts_offset : c.parts.offset < c.parts.step
  partCount_mul_step : c.partCount * c.parts.step = c.height

/-- Whether an instance sums up once, with a point that is doubled on every step of the sum. -/
structure EcOpCells.IsArranged (n : Nat) (c : EcOpCells) : Prop where
  isPowerOfTwo_step : isPowerOfTwo c.sum.step = true
  height_le : c.height ≤ n
  scalarBits_eq : c.sum.scalarBits = EcOp.scalarBits
  sum : c.sum.IsArranged
  xDiffInv : c.xDiffInv.StartsSteps c.sum.step
  doubling : c.doubling.IsArranged c.sum.step
  unpacking : c.unpacking.StartsSteps c.sum.step
  memory : c.memory.IsMemorySlot (c.height / memoryPlaces)

theorem EcOpCells.height_div_mul_memoryPlaces {c : EcOpCells} :
    c.height / memoryPlaces * memoryPlaces = c.height :=
  Nat.div_mul_cancel ⟨32 * c.sum.step, by
    rw [height, SubsetSum.height, SubsetSum.steps, memoryPlaces]
    ring⟩

/-- Whether an instance sums up twice in the time of a third sum, with a point that is doubled on
every step of the two. -/
structure EcdsaCells.IsArranged (n : Nat) (c : EcdsaCells) : Prop where
  isPowerOfTwo_step : isPowerOfTwo c.key.step = true
  generator_step : c.generator.step = 2 * c.key.step
  height_le : c.height ≤ n
  key_scalarBits : c.key.scalarBits = Ecdsa.scalarBits
  generator_scalarBits : c.generator.scalarBits = Ecdsa.scalarBits
  key : c.key.IsArranged
  keyXDiffInv : c.keyXDiffInv.StartsSteps c.key.step
  doubling : c.doubling.IsArranged c.key.step
  generator : c.generator.IsArranged
  generatorXDiffInv : c.generatorXDiffInv.StartsSteps c.generator.step
  pubkey : c.pubkey.IsMemorySlot c.height
  message : c.message.IsMemorySlot c.height

/-- Whether an instance has as many rows as its strands take, more than one for each. -/
structure BitwiseCells.IsArranged (config : LayoutConfig) (n : Nat) (c : BitwiseCells) : Prop where
  dilution : config.dilution = some c.dilution
  height_le : c.height ≤ n
  strands_mul_step : valueCount * c.dilution.strands * c.strandStep = c.height
  isPowerOfTwo_strandStep : isPowerOfTwo c.strandStep = true
  two_le_strandStep : 2 ≤ c.strandStep
  height_eq : c.height = valueCount * c.values.step
  values : c.values.IsMemorySlot c.values.step
  disjunction : c.disjunction.IsMemorySlot c.height

/-- The rows of an instance of a builtin. -/
def Component.height : Component → Nat
  | pedersen c => c.height
  | rangeCheck c => c.height
  | ecdsa c => c.height
  | bitwise c => c.height
  | ecOp c => c.height
  | _ => 1

/-- What layouts of a configuration for traces of length `n` have arranged for a component. -/
def Component.IsArranged (config : LayoutConfig) (n : Nat) : Component → Prop
  | pedersen cells => cells.IsArranged n
  | rangeCheck cells => cells.IsArranged n
  | ecdsa cells => cells.IsArranged n
  | bitwise cells => cells.IsArranged config n
  | ecOp cells => cells.IsArranged n
  | _ => True

/-! ## Periodic columns -/

/-- The number of the periodic columns of a component. -/
def Component.periodicCount : Component → Nat
  | pedersen _ | ecdsa _ => 2
  | _ => 0

/-- The index of the first periodic column of a component that has some. -/
def Component.periodicIndex : Component → Option Nat
  | pedersen cells => some cells.periodic
  | ecdsa cells => some cells.periodic
  | _ => none

/-- Whether the periodic columns of each component start where those of the components before it
end. -/
def ArePeriodic (components : List Component) : Prop :=
  ∀ component ∈ components, ∀ k, component.periodicIndex = some k →
    ∃ before after, components = before ++ component :: after ∧
      k = (before.map (·.periodicCount)).sum

theorem ArePeriodic.append {components : List Component} (h : ArePeriodic components)
    {component : Component} (hindex : ∀ k, component.periodicIndex = some k →
      k = (components.map (·.periodicCount)).sum) : ArePeriodic (components ++ [component]) := by
  intro other hother k hk
  rcases List.mem_append.mp hother with hold | hnew
  · obtain ⟨before, after, rfl, hsum⟩ := h other hold k hk
    exact ⟨before, after ++ [component], by rw [List.append_assoc, List.cons_append], hsum⟩
  · obtain rfl := List.mem_singleton.mp hnew
    exact ⟨components, [], rfl, hindex k hk⟩

end CairoTrace
