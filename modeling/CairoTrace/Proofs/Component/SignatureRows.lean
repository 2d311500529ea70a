import CairoTrace.Component.EcdsaCells
import CairoTrace.Proofs.Component.AddressRows
import CairoTrace.Proofs.Component.SumRows

/-!
# What the constraints of signatures say

The constraints of an instance, apart from those on the addresses of its values, are equations
between its cells (`EcdsaCells.verificationConstraints_holdOnInstance_iff`). An instance has the
rows of one sum of multiples of the generator, and of two sums of multiples of keys.
-/

namespace CairoTrace

open SubsetSum (steps)

namespace EcdsaCells

/-! ## Cells -/

section Cells

variable (cells : EcdsaCells) (columns : List (Array Felt)) (i : Nat)

/-- The sum of multiples of the generator. -/
def generatorAt : PointSum := cells.generator.sumAt columns i

/-- The sums of multiples of the first and of the second key. -/
def keyAt (j : Nat) : PointSum := cells.key.sumAt columns (2 * i + j)

/-- The keys as they are doubled. -/
def pointAt (j : Nat) : DoubledPoint := cells.doubling.pointAt columns (2 * i + j)

/-- A cell that an instance has once. -/
def onceAt (row : Nat) : Felt := (cells.once row).cellAt columns i

def pubkeyAt : Felt := cells.pubkey.valueColumn.cellAt columns i

def messageAt : Felt := cells.message.valueColumn.cellAt columns i

/-- The constraints on the addresses of the key and the message. -/
def addressConstraints : List Constraint := cells.memoryConstraints.take 3

/-- The constraints that are not on addresses. -/
def verificationConstraints : List Constraint := cells.constraints.filter (·.name ∉ addressNames)

/-- The three sums of an instance add points, and the keys are doubled. -/
@[mk_iff]
structure AddsUp (generatorX generatorY : Nat → Felt) : Prop where
  doubles : ∀ j < 2, (cells.pointAt columns i j).Doubles
  generator_extracts : (cells.generatorAt columns i).Extracts Ecdsa.scalarBits
  generator_adds : (cells.generatorAt columns i).Adds generatorX generatorY
  generator_xDiffInv : ∀ k, k + 1 < steps →
    cells.generatorXDiffInv.cellAt columns (steps * i + k) *
      ((cells.generatorAt columns i).x k - generatorX k) = 1
  key_extracts : ∀ j < 2, (cells.keyAt columns i j).Extracts Ecdsa.scalarBits
  key_adds : ∀ j < 2,
    (cells.keyAt columns i j).Adds (cells.pointAt columns i j).x (cells.pointAt columns i j).y
  key_xDiffInv : ∀ j < 2, ∀ k, k + 1 < steps →
    cells.keyXDiffInv.cellAt columns (steps * (2 * i + j) + k) *
      ((cells.keyAt columns i j).x k - (cells.pointAt columns i j).x k) = 1

/-- The sums start at the shift point or its negative, the second key is the sum of the first two
results, and the third result has the first coordinate `r` when it is shifted back. -/
@[mk_iff]
structure Links : Prop where
  generator_x : (cells.generatorAt columns i).x 0 = Ecdsa.shift.x
  generator_y : (cells.generatorAt columns i).y 0 + Ecdsa.shift.y = 0
  key_x : ∀ j < 2, (cells.keyAt columns i j).x 0 = Ecdsa.shift.x
  key_y : ∀ j < 2, (cells.keyAt columns i j).y 0 = Ecdsa.shift.y
  b_slope : (cells.generatorAt columns i).y (steps - 1) =
    (cells.keyAt columns i 0).y (steps - 1) + cells.onceAt columns i 2 *
      ((cells.generatorAt columns i).x (steps - 1) - (cells.keyAt columns i 0).x (steps - 1))
  b_x : cells.onceAt columns i 2 * cells.onceAt columns i 2 =
    (cells.generatorAt columns i).x (steps - 1) + (cells.keyAt columns i 0).x (steps - 1) +
      (cells.pointAt columns i 1).x 0
  b_y : (cells.generatorAt columns i).y (steps - 1) + (cells.pointAt columns i 1).y 0 =
    cells.onceAt columns i 2 *
      ((cells.generatorAt columns i).x (steps - 1) - (cells.pointAt columns i 1).x 0)
  b_xDiffInv : cells.onceAt columns i 3 *
    ((cells.generatorAt columns i).x (steps - 1) - (cells.keyAt columns i 0).x (steps - 1)) = 1
  r_slope : (cells.keyAt columns i 1).y (steps - 1) + Ecdsa.shift.y =
    cells.onceAt columns i 4 * ((cells.keyAt columns i 1).x (steps - 1) - Ecdsa.shift.x)
  r_x : cells.onceAt columns i 4 * cells.onceAt columns i 4 =
    (cells.keyAt columns i 1).x (steps - 1) + Ecdsa.shift.x + (cells.keyAt columns i 0).suffix 0
  r_xDiffInv : cells.onceAt columns i 5 *
    ((cells.keyAt columns i 1).x (steps - 1) - Ecdsa.shift.x) = 1
  z_nonzero : (cells.generatorAt columns i).suffix 0 * cells.onceAt columns i 0 = 1
  r_and_w_nonzero : ∀ j < 2,
    (cells.keyAt columns i j).suffix 0 * (cells.pointAt columns i j).slope (steps - 1) = 1
  q_x_squared : cells.onceAt columns i 1 =
    (cells.pointAt columns i 0).x 0 * (cells.pointAt columns i 0).x 0
  q_on_curve : (cells.pointAt columns i 0).y 0 * (cells.pointAt columns i 0).y 0 =
    (cells.pointAt columns i 0).x 0 * cells.onceAt columns i 1 +
      1 * (cells.pointAt columns i 0).x 0 + Point.curveConstant

/-- An instance verifies the message in memory with the key in memory. -/
structure Verifies (generatorX generatorY : Nat → Felt) : Prop where
  addsUp : cells.AddsUp columns i generatorX generatorY
  links : cells.Links columns i
  message : cells.messageAt columns i = (cells.generatorAt columns i).suffix 0
  pubkey : cells.pubkeyAt columns i = (cells.pointAt columns i 0).x 0

end Cells

theorem verificationConstraints_eq (cells : EcdsaCells) : cells.verificationConstraints =
    cells.sumConstraints ++ cells.signatureConstraints ++ cells.memoryConstraints.drop 3 :=
  rfl

/-! ## Rows -/

variable {cells : EcdsaCells} {n i : Nat} {columns : List (Array Felt)}
  {periodic : List PeriodicColumn} {b : Bindings}

variable (hn : isPowerOfTwo n = true) (hword : n < 2 ^ 64) (h : cells.IsArranged n)
  (hi : i < n / cells.height)

include h

theorem isPowerOfTwo_generator_step : isPowerOfTwo cells.generator.step = true :=
  h.generator_step ▸ isPowerOfTwo_mul (by decide) h.isPowerOfTwo_step

theorem two_mul_key_height : 2 * cells.key.height = cells.height := by
  rw [height, SubsetSum.height, SubsetSum.height, h.generator_step]
  ring

theorem isPowerOfTwo_height : isPowerOfTwo cells.height = true :=
  SubsetSum.isPowerOfTwo_height (isPowerOfTwo_generator_step h)

theorem key_height_le : cells.key.height ≤ n := by
  have hheight := two_mul_key_height h
  have hle := h.height_le
  omega

include hn hi

theorem key_lt {j : Nat} (hj : j < 2) : 2 * i + j < n / cells.key.height :=
  instance_step_lt hn (isPowerOfTwo_height h) h.height_le hi (two_mul_key_height h) hj

theorem holdsOnInstance_every_iff {name : String} {e : Term} :
    (⟨name, e, .every cells.height 0, []⟩ : Constraint).HoldsOnInstance
      n columns periodic b cells.height i ↔ e.onRow n columns periodic b (cells.height * i) = 0 :=
  Constraint.holdsOnInstance_every_iff hn (isPowerOfTwo_height h) h.height_le hi
    (pos_of_isPowerOfTwo (isPowerOfTwo_height h))

/-- A constraint on every sum of multiples of a key. -/
theorem holdsOnInstance_everyKey_iff {name : String} {e : Term} :
    (⟨name, e, .every cells.key.height 0, []⟩ : Constraint).HoldsOnInstance
      n columns periodic b cells.height i ↔
      ∀ j < 2, e.onRow n columns periodic b (cells.key.height * (2 * i + j)) = 0 := by
  have hheight := SubsetSum.isPowerOfTwo_height h.isPowerOfTwo_step
  rw [← two_mul_key_height h, Constraint.holdsOnInstance_mul_iff (by decide)]
  exact forall₂_congr fun j hj => Constraint.holdsOnInstance_every_iff hn hheight (key_height_le h)
    (key_lt hn h hi hj) (pos_of_isPowerOfTwo hheight)

/-- A cell that an instance has once. -/
theorem onRow_once {row : Nat} (hrow : row < 512) :
    (cells.once row).current.onRow n columns periodic b (cells.height * i) =
      cells.onceAt columns i row := by
  have hheight : cells.height = 512 * cells.key.step := by
    rw [← two_mul_key_height h, SubsetSum.height, steps]
    ring
  have hpos := pos_of_isPowerOfTwo h.isPowerOfTwo_step
  have hlt : cells.height * i + row < n :=
    instance_row_lt hn (isPowerOfTwo_height h) h.height_le hi (by omega)
  exact Term.onRow_current (c := cells.once row) (hrow.trans (by decide)) (by rwa [add_comm] at hlt)

include hword

/-- The value of a slot of memory. -/
theorem onRow_value {c : VirtualColumn} (hc : c.IsMemorySlot cells.height) :
    c.valueColumn.current.onRow n columns periodic b (cells.height * i) =
      c.valueColumn.cellAt columns i :=
  hc.onRow_value hn hword (isPowerOfTwo_height h) h.height_le hi

/-- A cell of the generator's sum, read from the first row. -/
theorem onRow_generator {c : VirtualColumn} (hc : c.StartsSteps cells.generator.step) {k : Nat}
    (hk : k < steps) : (c.cell k).onRow n columns periodic b (cells.height * i) =
      c.cellAt columns (steps * i + k) :=
  SubsetSum.onRow_first hn hword (isPowerOfTwo_generator_step h) h.height_le hi hc hk

/-- A cell of either sum of a key, read from the first row of the instance. -/
theorem onRow_key {c : VirtualColumn} (hc : c.StartsSteps cells.key.step) {j k : Nat} (hj : j < 2)
    (hk : k < steps) :
    (c.cell (steps * j + k : Nat)).onRow n columns periodic b (cells.height * i) =
      c.cellAt columns (steps * (2 * i + j) + k) := by
  have hle := h.height_le
  rw [← two_mul_key_height h] at hle hi ⊢
  exact SubsetSum.onRow_part hn hword h.isPowerOfTwo_step (by decide) hle hi hc hj hk

/-- A cell of a sum of a key, read from the first row of the sum. -/
theorem onRow_keySum {c : VirtualColumn} (hc : c.StartsSteps cells.key.step) {j k : Nat}
    (hj : j < 2) (hk : k < steps) :
    (c.cell k).onRow n columns periodic b (cells.key.height * (2 * i + j)) =
      c.cellAt columns (steps * (2 * i + j) + k) :=
  SubsetSum.onRow_first hn hword h.isPowerOfTwo_step (key_height_le h) (key_lt hn h hi hj) hc hk

/-! ## Constraints -/

omit hn hword hi in
/-- Constraints on the rows of both keys. -/
theorem forall_holdsOnInstance_iff {cs : List Constraint} :
    (∀ c ∈ cs, c.HoldsOnInstance n columns periodic b cells.height i) ↔
      ∀ j < 2, ∀ c ∈ cs, c.HoldsOnInstance n columns periodic b cells.key.height (2 * i + j) := by
  rw [← two_mul_key_height h]
  exact Constraint.forall_holdsOnInstance_mul_iff (by decide)

theorem sum_iff {generatorX generatorY : Nat → Felt}
    (hx : ∀ k, k + 1 < steps → (Term.periodic cells.periodic).onRow n columns periodic b
      (cells.generator.step * (steps * i + k)) = generatorX k)
    (hy : ∀ k, k + 1 < steps → (Term.periodic (cells.periodic + 1)).onRow n columns periodic b
      (cells.generator.step * (steps * i + k)) = generatorY k) :
    (∀ c ∈ cells.sumConstraints, c.HoldsOnInstance n columns periodic b cells.height i) ↔
      cells.AddsUp columns i generatorX generatorY := by
  have hkey := h.isPowerOfTwo_step
  have hkeyBits : cells.key.scalarBits < steps := h.key_scalarBits.trans_lt (by decide)
  have hpointX {j : Nat} (hj : j < 2) (k : Nat) (hk : k + 1 < steps) :
      cells.doubling.x.current.onRow n columns periodic b
        (cells.key.step * (steps * (2 * i + j) + k)) = (cells.pointAt columns i j).x k :=
    SubsetSum.onRow_current hn hword hkey (key_height_le h) (key_lt hn h hi hj) h.doubling.x
      (Nat.lt_of_succ_lt hk)
  have hpointY {j : Nat} (hj : j < 2) (k : Nat) (hk : k + 1 < steps) :
      cells.doubling.y.current.onRow n columns periodic b
        (cells.key.step * (steps * (2 * i + j) + k)) = (cells.pointAt columns i j).y k :=
    SubsetSum.onRow_current hn hword hkey (key_height_le h) (key_lt hn h hi hj) h.doubling.y
      (Nat.lt_of_succ_lt hk)
  have hdoubling {label : String} : (∀ c ∈ cells.doubling.constraints label cells.key,
      c.HoldsOnInstance n columns periodic b cells.height i) ↔ _ :=
    (forall_holdsOnInstance_iff h).trans (forall₂_congr fun j hj =>
      SubsetSum.doubling_holdOnInstance_iff hn hword hkey (key_height_le h) (key_lt hn h hi hj)
        h.doubling)
  have hkeySum {label : String} : (∀ c ∈ cells.key.constraints label cells.doubling.x.current
      cells.doubling.y.current, c.HoldsOnInstance n columns periodic b cells.height i) ↔ _ :=
    (forall_holdsOnInstance_iff h).trans (forall₂_congr fun j hj =>
      SubsetSum.holdOnInstance_iff hn hword hkey (key_height_le h) (key_lt hn h hi hj) h.key
        hkeyBits (hpointX hj) (hpointY hj))
  have hkeyInverse {label : String} : (∀ c ∈ [cells.key.xDiffInvConstraint label cells.keyXDiffInv
      cells.doubling.x.current], c.HoldsOnInstance n columns periodic b cells.height i) ↔ _ :=
    (forall_holdsOnInstance_iff h).trans (forall₂_congr fun j hj =>
      List.forall_mem_singleton.trans (SubsetSum.xDiffInv_holdsOnInstance_iff hn hword hkey
        (key_height_le h) (key_lt hn h hi hj) h.key h.keyXDiffInv (hpointX hj)))
  have hgenerator {label : String} : (∀ c ∈ cells.generator.constraints label
      (.periodic cells.periodic) (.periodic (cells.periodic + 1)),
      c.HoldsOnInstance n columns periodic b cells.height i) ↔ _ :=
    SubsetSum.holdOnInstance_iff hn hword (isPowerOfTwo_generator_step h) h.height_le hi
      h.generator (h.generator_scalarBits.trans_lt (by decide)) hx hy
  have hgeneratorInverse {label : String} : (∀ c ∈ [cells.generator.xDiffInvConstraint label
      cells.generatorXDiffInv (.periodic cells.periodic)],
      c.HoldsOnInstance n columns periodic b cells.height i) ↔ _ :=
    List.forall_mem_singleton.trans (SubsetSum.xDiffInv_holdsOnInstance_iff hn hword
      (isPowerOfTwo_generator_step h) h.height_le hi h.generator h.generatorXDiffInv hx)
  simp only [sumConstraints, List.forall_mem_append, hdoubling, hkeySum, hkeyInverse, hgenerator,
    hgeneratorInverse, h.key_scalarBits, h.generator_scalarBits, addsUp_iff, forall₂_and, and_assoc]
  rfl

theorem signature_iff : (∀ c ∈ cells.signatureConstraints,
      c.HoldsOnInstance n columns periodic b cells.height i) ↔ cells.Links columns i := by
  have hgenerator {c : VirtualColumn} (hc : c.StartsSteps cells.generator.step) :
      c.current.onRow n columns periodic b (cells.height * i) = c.cellAt columns (steps * i + 0) :=
    onRow_generator (k := 0) hn hword h hi hc (by decide)
  have hlast {c : VirtualColumn} (hc : c.StartsSteps cells.generator.step) :
      (c.cell ((steps - 1 : Nat) : Int)).onRow n columns periodic b (cells.height * i) =
        c.cellAt columns (steps * i + (steps - 1)) :=
    onRow_generator hn hword h hi hc (by decide)
  have hkey {c : VirtualColumn} (hc : c.StartsSteps cells.key.step) :
      c.current.onRow n columns periodic b (cells.height * i) =
        c.cellAt columns (steps * (2 * i + 0) + 0) :=
    onRow_key (j := 0) (k := 0) hn hword h hi hc (by decide) (by decide)
  have hkeyLast {c : VirtualColumn} (hc : c.StartsSteps cells.key.step) :
      (c.cell ((steps - 1 : Nat) : Int)).onRow n columns periodic b (cells.height * i) =
        c.cellAt columns (steps * (2 * i + 0) + (steps - 1)) :=
    onRow_key (j := 0) (k := steps - 1) hn hword h hi hc (by decide) (by decide)
  have hsecond {c : VirtualColumn} (hc : c.StartsSteps cells.key.step) :
      (c.cell (steps : Int)).onRow n columns periodic b (cells.height * i) =
        c.cellAt columns (steps * (2 * i + 1) + 0) :=
    onRow_key (j := 1) (k := 0) hn hword h hi hc (by decide) (by decide)
  have hsecondLast {c : VirtualColumn} (hc : c.StartsSteps cells.key.step) :
      (c.cell (2 * (steps : Int) - 1)).onRow n columns periodic b (cells.height * i) =
        c.cellAt columns (steps * (2 * i + 1) + (steps - 1)) :=
    onRow_key (j := 1) (k := steps - 1) hn hword h hi hc (by decide) (by decide)
  have hsum {c : VirtualColumn} (hc : c.StartsSteps cells.key.step) {v : Felt} :
      (∀ j < 2, c.current.onRow n columns periodic b (cells.key.height * (2 * i + j)) = v) ↔
        ∀ j < 2, c.cellAt columns (steps * (2 * i + j) + 0) = v :=
    forall₂_congr fun j hj => by
      rw [← onRow_keySum (k := 0) hn hword h hi hc hj (by decide)]
      rfl
  have hproduct {c d : VirtualColumn} (hc : c.StartsSteps cells.key.step)
      (hd : d.StartsSteps cells.key.step) {v : Felt} :
      (∀ j < 2, c.current.onRow n columns periodic b (cells.key.height * (2 * i + j)) *
          (d.cell ((steps - 1 : Nat) : Int)).onRow n columns periodic b
            (cells.key.height * (2 * i + j)) = v) ↔
        ∀ j < 2, c.cellAt columns (steps * (2 * i + j) + 0) *
          d.cellAt columns (steps * (2 * i + j) + (steps - 1)) = v :=
    forall₂_congr fun j hj => by
      rw [← onRow_keySum (k := 0) hn hword h hi hc hj (by decide),
        onRow_keySum hn hword h hi hd hj (by decide)]
      rfl
  have honce {row : Nat} (hrow : row < 512) :
      (cells.once row).current.onRow n columns periodic b (cells.height * i) = _ :=
    onRow_once hn h hi hrow
  have hconstant {v : Felt} {row : Nat} :
      (Term.constant v).onRow n columns periodic b row = v := rfl
  simp (disch := decide) only [signatureConstraints, List.forall_mem_cons, List.not_mem_nil,
    false_implies, implies_true, and_true, holdsOnInstance_every_iff hn h hi,
    holdsOnInstance_everyKey_iff hn h hi, Term.onRow_sub, Term.onRow_mul, Term.onRow_add,
    Term.onRow_one, hconstant, hgenerator h.generator.x, hgenerator h.generator.y,
    hgenerator h.generator.suffix, hlast h.generator.x, hlast h.generator.y, hkeyLast h.key.x,
    hkeyLast h.key.y, hsecond h.doubling.x, hsecond h.doubling.y, hsecondLast h.key.x,
    hsecondLast h.key.y, hkey h.doubling.x, hkey h.doubling.y, hkey h.key.suffix, messageInv,
    keyXSquared, bSlope, bXDiffInv, rPointSlope, rPointXDiffInv, honce, sub_eq_zero, hsum h.key.x,
    hsum h.key.y, hproduct h.key.suffix h.doubling.slope, links_iff]
  rfl

section Points

variable {generatorX generatorY : Nat → Felt}
  (hx : ∀ k, k + 1 < steps → (Term.periodic cells.periodic).onRow n columns periodic b
    (cells.generator.step * (steps * i + k)) = generatorX k)
  (hy : ∀ k, k + 1 < steps → (Term.periodic (cells.periodic + 1)).onRow n columns periodic b
    (cells.generator.step * (steps * i + k)) = generatorY k)
include hx hy

/-- The constraints of an instance that are not on addresses are equations between its cells, if the
generator's points are in the periodic columns. -/
theorem verificationConstraints_holdOnInstance_iff : (∀ c ∈ cells.verificationConstraints,
      c.HoldsOnInstance n columns periodic b cells.height i) ↔
      cells.Verifies columns i generatorX generatorY := by
  have hsuffix : cells.generator.suffix.current.onRow n columns periodic b (cells.height * i) =
      (cells.generatorAt columns i).suffix 0 :=
    onRow_generator (k := 0) hn hword h hi h.generator.suffix (by decide)
  have hpointX : cells.doubling.x.current.onRow n columns periodic b (cells.height * i) =
      (cells.pointAt columns i 0).x 0 :=
    onRow_key (j := 0) (k := 0) hn hword h hi h.doubling.x (by decide) (by decide)
  have hvalues : (∀ c ∈ cells.memoryConstraints.drop 3,
      c.HoldsOnInstance n columns periodic b cells.height i) ↔
      cells.messageAt columns i = (cells.generatorAt columns i).suffix 0 ∧
        cells.pubkeyAt columns i = (cells.pointAt columns i 0).x 0 := by
    simp only [memoryConstraints, List.drop_succ_cons, List.drop_zero, List.forall_mem_cons,
      List.not_mem_nil, false_implies, implies_true, and_true, holdsOnInstance_every_iff hn h hi,
      Term.onRow_sub, sub_eq_zero, onRow_value hn hword h hi h.message,
      onRow_value hn hword h hi h.pubkey, hsuffix, hpointX]
    rfl
  rw [verificationConstraints_eq, List.forall_mem_append, List.forall_mem_append,
    sum_iff hn hword h hi hx hy, signature_iff hn hword h hi, hvalues]
  constructor
  · rintro ⟨⟨haddsUp, hlinks⟩, hmessage, hpubkey⟩
    exact ⟨haddsUp, hlinks, hmessage, hpubkey⟩
  · rintro ⟨haddsUp, hlinks, hmessage, hpubkey⟩
    exact ⟨⟨haddsUp, hlinks⟩, hmessage, hpubkey⟩

theorem holdOnInstance_iff :
    (∀ c ∈ cells.constraints, c.HoldsOnInstance n columns periodic b cells.height i) ↔
      (∀ c ∈ cells.addressConstraints, c.HoldsOnInstance n columns periodic b cells.height i) ∧
        cells.Verifies columns i generatorX generatorY := by
  rw [← verificationConstraints_holdOnInstance_iff hn hword h hi hx hy,
    verificationConstraints_eq]
  have hmemory : cells.memoryConstraints =
      cells.addressConstraints ++ cells.memoryConstraints.drop 3 := rfl
  rw [constraints, hmemory]
  simp only [List.forall_mem_append]
  tauto

end Points

end EcdsaCells

end CairoTrace
