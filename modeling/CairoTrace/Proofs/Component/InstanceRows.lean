import CairoTrace.Proofs.RowValue

/-!
# Rows of an instance

The rows of a trace are divided among the instances of a builtin, which have as many rows each. On
the rows of one instance a constraint says something about cells of this instance and, at most, of
the next one: a constraint once for each instance about its first row or another one
(`Constraint.holdsOnInstance_every_iff`), and a constraint on the steps of an instance about each of
them (`Constraint.holdsOnInstance_steps_iff`).
-/

namespace CairoTrace

/-- Whether a constraint is zero on those rows of an instance that it applies to. -/
def Constraint.HoldsOnInstance (n : Nat) (columns : List (Array Felt))
    (periodic : List PeriodicColumn) (b : Bindings) (height i : Nat) (c : Constraint) : Prop :=
  ∀ row ∈ c.appliedRows n, row / height = i → c.expr.onRow n columns periodic b row = 0

variable {n height count step i : Nat} {columns : List (Array Felt)}
  {periodic : List PeriodicColumn} {b : Bindings}

theorem Constraint.Holds.holdsOnInstance {c : Constraint} (h : c.Holds n columns periodic b) :
    c.HoldsOnInstance n columns periodic b height i := fun row hrow _ => h row hrow

/-- The rows of a trace are those of all instances. -/
theorem Constraint.holds_iff_holdsOnInstance {c : Constraint} (hclass : c.domain.IsResidueClass n)
    (hdvd : height ∣ n) : c.Holds n columns periodic b ↔
      ∀ i < n / height, c.HoldsOnInstance n columns periodic b height i := by
  constructor
  · intro h i _
    exact h.holdsOnInstance
  · intro h row hrow
    have hlt := (Rows.contains_iff.mp ((mem_appliedRows_iff hclass).mp hrow).1).1
    exact h (row / height) (Nat.div_lt_div_of_lt_of_dvd hdvd hlt) row hrow rfl

/-- The rows of an instance are those of the smaller instances that it is divided into. -/
theorem Constraint.holdsOnInstance_mul_iff {c : Constraint} {parts : Nat} (hparts : 0 < parts) :
    c.HoldsOnInstance n columns periodic b (parts * height) i ↔
      ∀ j < parts, c.HoldsOnInstance n columns periodic b height (parts * i + j) := by
  have hdiv (row : Nat) : row / (parts * height) = row / height / parts := by
    rw [mul_comm, Nat.div_div_eq_div_mul]
  constructor
  · intro h j hj row hrow hinstance
    refine h row hrow ?_
    rw [hdiv, hinstance, Nat.mul_add_div hparts, Nat.div_eq_of_lt hj, add_zero]
  · intro h row hrow hinstance
    refine h (row / height % parts) (Nat.mod_lt _ hparts) row hrow ?_
    rw [← hinstance, hdiv, Nat.div_add_mod]

theorem Constraint.forall_holdsOnInstance_mul_iff {cs : List Constraint} {parts : Nat}
    (hparts : 0 < parts) :
    (∀ c ∈ cs, c.HoldsOnInstance n columns periodic b (parts * height) i) ↔
      ∀ j < parts, ∀ c ∈ cs, c.HoldsOnInstance n columns periodic b height (parts * i + j) := by
  constructor
  · intro hcs j hj c hc
    exact (Constraint.holdsOnInstance_mul_iff hparts).mp (hcs c hc) j hj
  · intro hcs c hc
    exact (Constraint.holdsOnInstance_mul_iff hparts).mpr fun j hj => hcs j hj c hc

/-! ## Rows -/

theorem mul_add_lt_mul {count i q k : Nat} (hi : i < q) (hk : k < count) :
    count * i + k < count * q := by
  calc count * i + k < count * (i + 1) := by
        rw [mul_add, mul_one]
        omega
    _ ≤ count * q := Nat.mul_le_mul_left count hi

/-- The steps of an instance are in the trace. -/
theorem instance_step_le (hheight : isPowerOfTwo height = true) (hle : height ≤ n)
    (hcount : count * step = height) : step ≤ n :=
  (Nat.le_of_dvd (pos_of_isPowerOfTwo hheight) (Dvd.intro_left count hcount)).trans hle

section Instance

variable (hn : isPowerOfTwo n = true) (hheight : isPowerOfTwo height = true) (hle : height ≤ n)
  (hi : i < n / height)
include hn hheight hle hi

/-- The rows of an instance are in the trace. -/
theorem instance_row_lt {k : Nat} (hk : k < height) : height * i + k < n := by
  rw [← Nat.mul_div_cancel' (dvd_of_isPowerOfTwo hheight hn hle)]
  exact mul_add_lt_mul hi hk

theorem instance_step_lt (hstep : count * step = height) {k : Nat} (hk : k < count) :
    count * i + k < n / step := by
  obtain ⟨q, rfl⟩ := dvd_of_isPowerOfTwo hheight hn hle
  have hpos := pos_of_isPowerOfTwo hheight
  rw [Nat.mul_div_cancel_left q hpos] at hi
  subst hstep
  have hstep : 0 < step := Nat.pos_of_mul_pos_left hpos
  rw [mul_right_comm, Nat.mul_div_cancel _ hstep]
  exact mul_add_lt_mul hi hk

/-! ## Cells -/

namespace Term

variable {c : VirtualColumn}

/-- A cell of a column that has several in each instance, read from one of the steps. -/
theorem onRow_later_of_instance (hstep : count * step = height) (hword : step < 2 ^ 63)
    (hc : c.step = step ∧ c.offset < step) {j k : Nat} (hjk : k + j < count) :
    onRow n columns periodic b (step * (count * i + k)) (c.cell j) =
      c.cellAt columns (count * i + (k + j)) := by
  have hdvd : step ∣ n := (Dvd.intro_left count hstep).trans (dvd_of_isPowerOfTwo hheight hn hle)
  have hlt := row_lt_of_lt_div hc hdvd (instance_step_lt hn hheight hle hi hstep hjk)
  obtain ⟨rfl, hoffset⟩ := hc
  rw [← add_assoc] at hlt ⊢
  exact onRow_later hword (hoffset.trans hword) hlt

end Term

/-! ## Constraints -/

namespace Constraint

variable {name : String} {e : Term}

theorem holdsOnInstance_every_iff {offset : Nat} (hoffset : offset < height) :
    (⟨name, e, .every height offset, []⟩ : Constraint).HoldsOnInstance
      n columns periodic b height i ↔
      e.onRow n columns periodic b (height * i + offset) = 0 := by
  have hrow (row : Nat) : row ∈ (⟨name, e, .every height offset, []⟩ : Constraint).appliedRows n ∧
      row / height = i ↔ row = height * i + offset := by
    rw [mem_appliedRows_of_nil (Rows.isResidueClass_of_fits hn
      (Rows.fits_every hheight hle hoffset)), Rows.contains_iff, Rows.stride, Rows.start]
    constructor
    · rintro ⟨⟨-, rfl⟩, rfl⟩
      exact (Nat.div_add_mod row height).symm
    · rintro rfl
      refine ⟨⟨instance_row_lt hn hheight hle hi hoffset, ?_⟩, ?_⟩
      · rw [Nat.mul_add_mod, Nat.mod_eq_of_lt hoffset]
      · rw [Nat.mul_add_div (pos_of_isPowerOfTwo hheight), Nat.div_eq_of_lt hoffset, add_zero]
  simp only [HoldsOnInstance, ← and_imp, hrow, forall_eq]

/-- The multiples of a step in the rows of an instance. -/
theorem contains_step_iff (hcount : count * step = height) (hstep : isPowerOfTwo step = true)
    (row : Nat) : (Rows.every step 0).contains n row = true ∧ row / height = i ↔
      ∃ k < count, row = step * (count * i + k) := by
  have hpos := pos_of_isPowerOfTwo hstep
  have hlestep : step ≤ n := instance_step_le hheight hle hcount
  rw [contains_every_zero_iff (dvd_of_isPowerOfTwo hstep hn hlestep)]
  have hcount_pos : 0 < count := Nat.pos_of_ne_zero fun hzero => by
    rw [hzero, zero_mul] at hcount
    exact absurd hcount (pos_of_isPowerOfTwo hheight).ne
  have hdiv (j : Nat) : step * j / height = j / count := by
    rw [← hcount, mul_comm step, Nat.mul_div_mul_right _ _ hpos]
  constructor
  · rintro ⟨⟨j, hj, rfl⟩, hrow⟩
    rw [hdiv] at hrow
    refine ⟨j % count, Nat.mod_lt j hcount_pos, ?_⟩
    rw [← hrow, Nat.div_add_mod]
  · rintro ⟨k, hk, rfl⟩
    refine ⟨⟨_, instance_step_lt hn hheight hle hi hcount hk, rfl⟩, ?_⟩
    rw [hdiv, Nat.mul_add_div hcount_pos, Nat.div_eq_of_lt hk, add_zero]

theorem holdsOnInstance_steps_iff (hcount : count * step = height)
    (hstep : isPowerOfTwo step = true) :
    (⟨name, e, .every step 0, []⟩ : Constraint).HoldsOnInstance n columns periodic b height i ↔
      ∀ k < count, e.onRow n columns periodic b (step * (count * i + k)) = 0 := by
  have hlestep : step ≤ n := instance_step_le hheight hle hcount
  simp only [HoldsOnInstance, mem_appliedRows_of_nil (Rows.isResidueClass_of_fits hn
    (Rows.fits_every hstep hlestep (pos_of_isPowerOfTwo hstep))), ← and_imp,
    contains_step_iff hn hheight hle hi hcount hstep]
  constructor
  · intro h k hk
    exact h _ ⟨k, hk, rfl⟩
  · rintro h _ ⟨k, hk, rfl⟩
    exact h k hk

/-- A constraint on all steps of an instance but the last one. -/
theorem holdsOnInstance_steps_except_last_iff (hcount : count * step = height)
    (hstep : isPowerOfTwo step = true) :
    (⟨name, e, .every step 0, [.every height ((count - 1) * step)]⟩ : Constraint).HoldsOnInstance
      n columns periodic b height i ↔
      ∀ k, k + 1 < count → e.onRow n columns periodic b (step * (count * i + k)) = 0 := by
  have hpos := pos_of_isPowerOfTwo hstep
  have hlestep : step ≤ n := instance_step_le hheight hle hcount
  have hrow (row : Nat) : row ∈ (⟨name, e, .every step 0, [.every height ((count - 1) * step)]⟩ :
      Constraint).appliedRows n ∧ row / height = i ↔
        ∃ k, k + 1 < count ∧ row = step * (count * i + k) := by
    rw [mem_appliedRows_iff (Rows.isResidueClass_of_fits hn
      (Rows.fits_every hstep hlestep hpos)), and_right_comm,
      contains_step_iff hn hheight hle hi hcount hstep]
    have hlast {k : Nat} (hk : k < count) :
        (Rows.every height ((count - 1) * step)).contains n (step * (count * i + k)) = true ↔
          k = count - 1 := by
      have hlt := instance_step_lt hn hheight hle hi hcount hk
      have hmod : step * (count * i + k) % height = k * step := by
        rw [← hcount, mul_comm step, Nat.mul_mod_mul_right, Nat.mul_add_mod, Nat.mod_eq_of_lt hk]
      rw [Nat.lt_div_iff_mul_lt' (dvd_of_isPowerOfTwo hstep hn hlestep)] at hlt
      rw [Rows.contains_iff, Rows.stride, Rows.start, hmod, Nat.mul_left_inj hpos.ne']
      exact and_iff_right hlt
    simp only [List.mem_singleton, exists_eq_left]
    constructor
    · rintro ⟨⟨k, hk, rfl⟩, hnot⟩
      rw [hlast hk] at hnot
      exact ⟨k, by omega, rfl⟩
    · rintro ⟨k, hk, rfl⟩
      have hk' : k < count := by omega
      refine ⟨⟨k, hk', rfl⟩, ?_⟩
      rw [hlast hk']
      omega
  simp only [HoldsOnInstance, ← and_imp, hrow]
  constructor
  · intro h k hk
    exact h _ ⟨k, hk, rfl⟩
  · rintro h _ ⟨k, hk, rfl⟩
    exact h k hk

end Constraint

end Instance

end CairoTrace
