import CairoTrace.Component.SubsetSum
import CairoTrace.Proofs.Component.InstanceRows
import CairoTrace.Proofs.Layout.Arrangement

/-!
# What the constraints of sums of points say

The constraints of a sum of points, of the doubling of a point and of the digits of a scalar are
equations between the cells of successive steps (`SubsetSum.holdOnInstance_iff` and the lemmas
beside it), which do not depend on where the cells are.
-/

namespace CairoTrace

/-! ## Cells -/

/-- The cells of a sum, by its steps. -/
structure PointSum where
  x : Nat → Felt
  y : Nat → Felt
  suffix : Nat → Felt
  slope : Nat → Felt

/-- The digit of a step: its suffix less twice the next one. -/
def PointSum.digit (t : PointSum) (k : Nat) : Felt :=
  t.suffix k - (t.suffix (k + 1) + t.suffix (k + 1))

/-- The cells of a point that is doubled, by the steps of the sum. -/
structure DoubledPoint where
  x : Nat → Felt
  y : Nat → Felt
  slope : Nat → Felt

open SubsetSum (steps)

/-- The cells of the sum of an instance. -/
def SubsetSum.sumAt (s : SubsetSum) (columns : List (Array Felt)) (i : Nat) : PointSum where
  x k := s.x.cellAt columns (steps * i + k)
  y k := s.y.cellAt columns (steps * i + k)
  suffix k := s.suffix.cellAt columns (steps * i + k)
  slope k := s.slope.cellAt columns (steps * i + k)

/-- The constraints of a sum on the digits of its scalar, which come before those on points: each
digit is a bit, and there are none from `scalarBits` on and on the last step. -/
def SubsetSum.digitConstraints (s : SubsetSum) (label : String) (pointX pointY : Term) :
    List Constraint :=
  (s.constraints label pointX pointY).take 3

def Doubling.pointAt (d : Doubling) (columns : List (Array Felt)) (i : Nat) : DoubledPoint where
  x k := d.x.cellAt columns (steps * i + k)
  y k := d.y.cellAt columns (steps * i + k)
  slope k := d.slope.cellAt columns (steps * i + k)

/-! ## Equations -/

/-- A digit is used on each step but the last, and only `bits` of them may be set. -/
@[mk_iff]
structure PointSum.Extracts (t : PointSum) (bits : Nat) : Prop where
  digit_bit : ∀ k, k + 1 < steps → t.digit k = 0 ∨ t.digit k = 1
  suffix_bits : t.suffix bits = 0
  suffix_last : t.suffix (steps - 1) = 0

/-- The point of a step is added if the digit of the step is set, and otherwise the sum is
copied. -/
@[mk_iff]
structure PointSum.Adds (t : PointSum) (pointX pointY : Nat → Felt) : Prop where
  slope : ∀ k, k + 1 < steps →
    t.digit k * (t.y k - pointY k) = t.slope k * (t.x k - pointX k)
  x : ∀ k, k + 1 < steps → t.slope k * t.slope k = t.digit k * (t.x k + pointX k + t.x (k + 1))
  y : ∀ k, k + 1 < steps →
    t.digit k * (t.y k + t.y (k + 1)) = t.slope k * (t.x k - t.x (k + 1))
  copy_x : ∀ k, k + 1 < steps → (1 - t.digit k) * (t.x (k + 1) - t.x k) = 0
  copy_y : ∀ k, k + 1 < steps → (1 - t.digit k) * (t.y (k + 1) - t.y k) = 0

/-- The point of a step is twice that of the step before it. -/
@[mk_iff]
structure DoubledPoint.Doubles (d : DoubledPoint) : Prop where
  slope : ∀ k, k + 1 < steps → d.x k * d.x k * 3 + 1 = (d.y k + d.y k) * d.slope k
  x : ∀ k, k + 1 < steps → d.slope k * d.slope k = d.x k + d.x k + d.x (k + 1)
  y : ∀ k, k + 1 < steps → d.y k + d.y (k + 1) = d.slope k * (d.x k - d.x (k + 1))

/-- The cells `ones192` and `ones196` hold products of the digits 251, 196 and 192 of the scalar,
between which digits are zero if the product is not. -/
@[mk_iff]
structure PointSum.Unpacks (t : PointSum) (ones192 ones196 : Felt) : Prop where
  last_one : ones192 * t.digit 0 = 0
  zeroes_below_192 : ones192 * (t.suffix 1 - t.suffix 192 * 2 ^ 191) = 0
  cumulative_192 : ones192 = ones196 * t.digit 192
  zeroes_below_196 : ones196 * (t.suffix 193 - t.suffix 196 * 2 ^ 3) = 0
  cumulative_196 : ones196 = t.digit 251 * t.digit 196
  zeroes_below_251 : t.digit 251 * (t.suffix 197 - t.suffix 251 * 2 ^ 54) = 0

/-! ## Rows -/

variable {n i : Nat} {columns : List (Array Felt)} {periodic : List PeriodicColumn} {b : Bindings}
  {s : SubsetSum}

namespace SubsetSum

variable (hn : isPowerOfTwo n = true) (hword : n < 2 ^ 64) (hstep : isPowerOfTwo s.step = true)
  (hle : s.height ≤ n) (hi : i < n / s.height)

include hword hle in
theorem step_lt : s.step < 2 ^ 63 := by
  have hheight : s.height = 256 * s.step := rfl
  omega

include hstep in
theorem isPowerOfTwo_height : isPowerOfTwo s.height = true :=
  isPowerOfTwo_mul (by decide) hstep

include hn hword hstep hle hi

/-- A cell that comes later than that of a step. -/
theorem onRow_cell {c : VirtualColumn} (hc : c.StartsSteps s.step) {j k : Nat}
    (hjk : k + j < steps) :
    (c.cell j).onRow n columns periodic b (s.step * (steps * i + k)) =
      c.cellAt columns (steps * i + (k + j)) :=
  Term.onRow_later_of_instance hn (isPowerOfTwo_height hstep) hle hi rfl (step_lt hword hle)
    ⟨hc.1, hc.2 ▸ pos_of_isPowerOfTwo hstep⟩ hjk

theorem onRow_current {c : VirtualColumn} (hc : c.StartsSteps s.step) {k : Nat} (hk : k < steps) :
    c.current.onRow n columns periodic b (s.step * (steps * i + k)) =
      c.cellAt columns (steps * i + k) :=
  onRow_cell (j := 0) hn hword hstep hle hi hc hk

theorem onRow_next {c : VirtualColumn} (hc : c.StartsSteps s.step) {k : Nat}
    (hk : k + 1 < steps) :
    c.next.onRow n columns periodic b (s.step * (steps * i + k)) =
      c.cellAt columns (steps * i + (k + 1)) :=
  onRow_cell (j := 1) hn hword hstep hle hi hc hk

/-- A cell of an instance, read from its first row. -/
theorem onRow_first {c : VirtualColumn} (hc : c.StartsSteps s.step) {j : Nat} (hj : j < steps) :
    (c.cell j).onRow n columns periodic b (s.height * i) = c.cellAt columns (steps * i + j) := by
  have hrow : s.height * i = s.step * (steps * i + 0) := by
    rw [height]
    ring
  rw [hrow, onRow_cell hn hword hstep hle hi hc (by rwa [zero_add]), zero_add]

omit hle hi in
/-- A cell of one of the sums of an instance, read from the first row of the instance. -/
theorem onRow_part {parts : Nat} (hparts : isPowerOfTwo parts = true) (hle : parts * s.height ≤ n)
    (hi : i < n / (parts * s.height)) {c : VirtualColumn} (hc : c.StartsSteps s.step) {j k : Nat}
    (hj : j < parts) (hk : k < steps) :
    (c.cell (steps * j + k : Nat)).onRow n columns periodic b (parts * s.height * i) =
      c.cellAt columns (steps * (parts * i + j) + k) := by
  have hcount : parts * steps * s.step = parts * s.height := by
    rw [height]
    ring
  have hlesum : s.height ≤ n :=
    (Nat.le_mul_of_pos_left _ (pos_of_isPowerOfTwo hparts)).trans hle
  have hlt : steps * j + k < steps * parts := mul_add_lt_mul hj hk
  have hrow : (c.cell (steps * j + k : Nat)).onRow n columns periodic b
      (s.step * (parts * steps * i + 0)) =
        c.cellAt columns (parts * steps * i + (0 + (steps * j + k))) :=
    Term.onRow_later_of_instance hn (isPowerOfTwo_mul hparts (isPowerOfTwo_height hstep)) hle hi
      hcount (step_lt hword hlesum) ⟨hc.1, hc.2 ▸ pos_of_isPowerOfTwo hstep⟩
      (by rwa [zero_add, mul_comm parts])
  have hfirst : s.step * (parts * steps * i + 0) = parts * s.height * i := by
    rw [← hcount]
    ring
  have hlater : parts * steps * i + (0 + (steps * j + k)) = steps * (parts * i + j) + k := by ring
  rw [hfirst, hlater] at hrow
  exact hrow

/-! ## Constraints -/

variable {name : String} {e : Term}

omit hword in
/-- A constraint on one step of each sum. -/
theorem holdsOnInstance_step_iff {k : Nat} (hk : k < steps) :
    (⟨name, e, .every s.height (k * s.step), []⟩ : Constraint).HoldsOnInstance
      n columns periodic b s.height i ↔
      e.onRow n columns periodic b (s.step * (steps * i + k)) = 0 := by
  have hrow : s.height * i + k * s.step = s.step * (steps * i + k) := by
    rw [height]
    ring
  rw [Constraint.holdsOnInstance_every_iff hn (isPowerOfTwo_height hstep) hle hi
    (Nat.mul_lt_mul_of_pos_right hk (pos_of_isPowerOfTwo hstep)), hrow]

omit hword in
theorem holdsOnInstance_onSteps_iff : (s.onSteps name e).HoldsOnInstance
    n columns periodic b s.height i ↔
      ∀ k, k + 1 < steps → e.onRow n columns periodic b (s.step * (steps * i + k)) = 0 :=
  Constraint.holdsOnInstance_steps_except_last_iff hn (isPowerOfTwo_height hstep) hle hi rfl hstep

variable (h : s.IsArranged)
include h

theorem onRow_bit {k : Nat} (hk : k + 1 < steps) :
    s.bit.onRow n columns periodic b (s.step * (steps * i + k)) = (s.sumAt columns i).digit k := by
  rw [bit, Term.onRow_sub, Term.onRow_mul, onRow_current hn hword hstep hle hi h.suffix (by omega),
    onRow_next hn hword hstep hle hi h.suffix hk, Term.onRow_ofNat, PointSum.digit, mul_two, sumAt]

/-- The constraints on the digits of a scalar, whatever points they choose. -/
theorem digits_holdOnInstance_iff (hbits : s.scalarBits < steps) {label : String}
    {pointX pointY : Term} :
    (∀ c ∈ s.digitConstraints label pointX pointY,
      c.HoldsOnInstance n columns periodic b s.height i) ↔
      (s.sumAt columns i).Extracts s.scalarBits := by
  have hlast : steps - 1 < steps := by decide
  have hcurrent {k : Nat} (hk : k < steps) :
      s.suffix.current.onRow n columns periodic b (s.step * (steps * i + k)) = _ :=
    onRow_current hn hword hstep hle hi h.suffix hk
  simp only [digitConstraints, constraints, List.take_succ_cons, List.take_zero, lastStep,
    List.forall_mem_cons, List.not_mem_nil, false_implies, implies_true, and_true,
    holdsOnInstance_onSteps_iff hn hstep hle hi, holdsOnInstance_step_iff hn hstep hle hi hbits,
    holdsOnInstance_step_iff hn hstep hle hi hlast, hcurrent hbits, hcurrent hlast,
    PointSum.extracts_iff]
  refine and_congr (forall₂_congr fun k hk => ?_) Iff.rfl
  rw [Term.onRow_booleanity_eq_zero_iff, onRow_bit hn hword hstep hle hi h hk]

theorem holdOnInstance_iff (hbits : s.scalarBits < steps) {label : String} {pointX pointY : Term}
    {px py : Nat → Felt}
    (hpx : ∀ k, k + 1 < steps →
      pointX.onRow n columns periodic b (s.step * (steps * i + k)) = px k)
    (hpy : ∀ k, k + 1 < steps →
      pointY.onRow n columns periodic b (s.step * (steps * i + k)) = py k) :
    (∀ c ∈ s.constraints label pointX pointY,
      c.HoldsOnInstance n columns periodic b s.height i) ↔
      (s.sumAt columns i).Extracts s.scalarBits ∧ (s.sumAt columns i).Adds px py := by
  have hcurrent {c : VirtualColumn} (hc : c.StartsSteps s.step) {k : Nat} (hk : k < steps) :
      c.current.onRow n columns periodic b (s.step * (steps * i + k)) = _ :=
    onRow_current hn hword hstep hle hi hc hk
  have hnext {c : VirtualColumn} (hc : c.StartsSteps s.step) {k : Nat} (hk : k + 1 < steps) :
      c.next.onRow n columns periodic b (s.step * (steps * i + k)) = _ :=
    onRow_next hn hword hstep hle hi hc hk
  have hbit {k : Nat} (hk : k + 1 < steps) :
      s.bit.onRow n columns periodic b (s.step * (steps * i + k)) = _ :=
    onRow_bit hn hword hstep hle hi h hk
  rw [← List.take_append_drop 3 (s.constraints label pointX pointY), List.forall_mem_append]
  refine and_congr (digits_holdOnInstance_iff hn hword hstep hle hi h hbits) ?_
  simp only [constraints, List.drop_succ_cons, List.drop_zero, List.forall_mem_cons,
    List.not_mem_nil, false_implies, implies_true, and_true,
    holdsOnInstance_onSteps_iff hn hstep hle hi, PointSum.adds_iff]
  refine and_congr (forall₂_congr fun k hk => ?slope) (and_congr (forall₂_congr fun k hk => ?x)
    (and_congr (forall₂_congr fun k hk => ?y) (and_congr (forall₂_congr fun k hk => ?copyX)
      (forall₂_congr fun k hk => ?copyY))))
  all_goals have hk' : k < steps := Nat.lt_of_succ_lt hk
  all_goals simp only [Term.onRow_sub, Term.onRow_mul, Term.onRow_add, Term.onRow_one, hbit hk,
    hcurrent h.x hk', hcurrent h.y hk', hcurrent h.slope hk', hnext h.x hk, hnext h.y hk, hpx k hk,
    hpy k hk, sub_eq_zero, sumAt]

/-- The first coordinates of the sum and of the point of a step have a difference with an
inverse. -/
theorem xDiffInv_holdsOnInstance_iff {label : String} {xDiffInv : VirtualColumn} {pointX : Term}
    {px : Nat → Felt} (hinv : xDiffInv.StartsSteps s.step)
    (hpx : ∀ k, k + 1 < steps →
      pointX.onRow n columns periodic b (s.step * (steps * i + k)) = px k) :
    (s.xDiffInvConstraint label xDiffInv pointX).HoldsOnInstance
      n columns periodic b s.height i ↔ ∀ k, k + 1 < steps →
        xDiffInv.cellAt columns (steps * i + k) * ((s.sumAt columns i).x k - px k) = 1 := by
  rw [xDiffInvConstraint, holdsOnInstance_onSteps_iff hn hstep hle hi]
  refine forall₂_congr fun k hk => ?_
  have hk' : k < steps := Nat.lt_of_succ_lt hk
  rw [Term.onRow_sub, Term.onRow_mul, Term.onRow_sub,
    onRow_current hn hword hstep hle hi hinv hk', onRow_current hn hword hstep hle hi h.x hk',
    hpx k hk, Term.onRow_one, sub_eq_zero, sumAt]

theorem unpacking_holdOnInstance_iff {label : String} {unpacking : VirtualColumn}
    (hunpacking : unpacking.StartsSteps s.step) :
    (∀ c ∈ s.unpackingConstraints label unpacking,
      c.HoldsOnInstance n columns periodic b s.height i) ↔
      (s.sumAt columns i).Unpacks (unpacking.cellAt columns (steps * i))
        (unpacking.cellAt columns (steps * i + 1)) := by
  have hfirst {c : VirtualColumn} (hc : c.StartsSteps s.step) {j : Nat} (hj : j < steps) :
      (c.cell j).onRow n columns periodic b (s.height * i) = _ :=
    onRow_first hn hword hstep hle hi hc hj
  have hevery {name : String} {e : Term} :
      (⟨name, e, .every s.height 0, []⟩ : Constraint).HoldsOnInstance
        n columns periodic b s.height i ↔ e.onRow n columns periodic b (s.height * i) = 0 :=
    Constraint.holdsOnInstance_every_iff hn (isPowerOfTwo_height hstep) hle hi
      (pos_of_isPowerOfTwo (isPowerOfTwo_height hstep))
  have hones192 : (unpacking.cell 0).onRow n columns periodic b (s.height * i) =
      unpacking.cellAt columns (steps * i) := hfirst (j := 0) hunpacking (by decide)
  have hones196 : (unpacking.cell 1).onRow n columns periodic b (s.height * i) =
      unpacking.cellAt columns (steps * i + 1) := hfirst (j := 1) hunpacking (by decide)
  simp (disch := decide) only [unpackingConstraints, List.forall_mem_cons, List.not_mem_nil,
    false_implies, implies_true, and_true, hevery, Term.onRow_sub, Term.onRow_mul, Term.onRow_pow2,
    Term.onRow_ofNat, hfirst h.suffix, hones192, hones196, PointSum.unpacks_iff, PointSum.digit,
    mul_two, sub_eq_zero, sumAt]

omit h in
theorem doubling_holdOnInstance_iff {d : Doubling} (hd : d.IsArranged s.step) {label : String} :
    (∀ c ∈ d.constraints label s, c.HoldsOnInstance n columns periodic b s.height i) ↔
      (d.pointAt columns i).Doubles := by
  simp only [Doubling.constraints, List.forall_mem_cons, List.not_mem_nil, false_implies,
    implies_true, and_true, holdsOnInstance_onSteps_iff hn hstep hle hi,
    DoubledPoint.doubles_iff]
  refine and_congr (forall₂_congr fun k hk => ?_) (and_congr (forall₂_congr fun k hk => ?_)
    (forall₂_congr fun k hk => ?_))
  all_goals have hk' : k < steps := Nat.lt_of_succ_lt hk
  all_goals simp only [Term.onRow_sub, Term.onRow_mul, Term.onRow_add, Term.onRow_one,
    Term.onRow_ofNat, onRow_current hn hword hstep hle hi hd.x hk',
    onRow_current hn hword hstep hle hi hd.y hk', onRow_next hn hword hstep hle hi hd.x hk,
    onRow_next hn hword hstep hle hi hd.y hk, onRow_current hn hword hstep hle hi hd.slope hk',
    sub_eq_zero, Doubling.pointAt]

end SubsetSum

end CairoTrace
