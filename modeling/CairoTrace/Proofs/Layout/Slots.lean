import CairoTrace.Layout.Slots
import CairoTrace.Proofs.Result
import CairoTrace.Proofs.StarkField
import Mathlib.Order.Bounds.Basic

/-!
# Slots

Two slots whose steps are powers of two have no row in common exactly if they do not meet
(`VirtualColumn.separate_iff_not_meets`). The search for a free slot finds the least multiple of the
granularity below the step at which it meets none that was taken
(`Slots.firstFree_eq_some_iff_isLeast`). So an allocation takes this slot, if it is asked for a step
that it can have (`Slots.allocate_eq_ok_iff`, `Slots.allocate_eq_error_iff`).
-/

namespace CairoTrace

/-! ## Rows in common -/

namespace VirtualColumn

variable {c d : VirtualColumn}

/-- Whether two virtual columns of one column have no row in common. -/
def Separate (c d : VirtualColumn) : Prop := ∀ i j, c.row i ≠ d.row j

theorem separate_of_not_meets (hc : isPowerOfTwo c.step = true)
    (hd : isPowerOfTwo d.step = true)
    (h : Slots.meets d.step d.offset (c.step, c.offset) = false) : c.Separate d := by
  intro i j heq
  have hmin : min c.step d.step ∣ c.step ∧ min c.step d.step ∣ d.step := by
    rcases le_total c.step d.step with hle | hle
    · rw [min_eq_left hle]
      exact ⟨dvd_rfl, dvd_of_isPowerOfTwo hc hd hle⟩
    · rw [min_eq_right hle]
      exact ⟨dvd_of_isPowerOfTwo hd hc hle, dvd_rfl⟩
  have hmod {e : VirtualColumn} (he : min c.step d.step ∣ e.step) (k : Nat) :
      e.row k % min c.step d.step = e.offset % min c.step d.step := by
    obtain ⟨q, hq⟩ := he
    rw [row, hq, mul_assoc, Nat.add_mul_mod_self_left]
  rw [Slots.meets, beq_eq_false_iff_ne, ← hmod hmin.1 i, ← hmod hmin.2 j, heq] at h
  exact h rfl

/-- Slots of which one has a multiple of the step of the other, from congruent offsets on. -/
theorem exists_row_eq (hpos : 0 < d.step) (hdvd : c.step ∣ d.step)
    (hoffset : c.offset ≡ d.offset [MOD c.step]) : ∃ i j, c.row i = d.row j := by
  -- the offset of `d` may be the smaller one, but its row of number `c.offset` is late enough
  have hle : c.offset ≤ d.row c.offset :=
    (Nat.le_mul_of_pos_left _ hpos).trans (Nat.le_add_left _ _)
  have hmultiple : d.step * c.offset ≡ 0 [MOD c.step] :=
    Nat.modEq_zero_iff_dvd.mpr (hdvd.mul_right _)
  have hrow : c.offset ≡ d.row c.offset [MOD c.step] := hoffset.trans (hmultiple.symm.add_left _)
  obtain ⟨i, hi⟩ := (Nat.modEq_iff_dvd' hle).mp hrow
  refine ⟨i, c.offset, ?_⟩
  rw [row, ← hi, Nat.add_sub_cancel' hle]

theorem separate_iff_not_meets (hc : isPowerOfTwo c.step = true) (hd : isPowerOfTwo d.step = true) :
    c.Separate d ↔ Slots.meets d.step d.offset (c.step, c.offset) = false := by
  refine ⟨fun h => eq_false_of_ne_true fun hmeets => ?_, separate_of_not_meets hc hd⟩
  rw [Slots.meets, beq_iff_eq] at hmeets
  rcases le_total c.step d.step with hle | hle
  · rw [min_eq_left hle] at hmeets
    obtain ⟨i, j, heq⟩ :=
      exists_row_eq (pos_of_isPowerOfTwo hd) (dvd_of_isPowerOfTwo hc hd hle) hmeets
    exact h i j heq
  · rw [min_eq_right hle] at hmeets
    obtain ⟨j, i, heq⟩ :=
      exists_row_eq (pos_of_isPowerOfTwo hc) (dvd_of_isPowerOfTwo hd hc hle) hmeets.symm
    exact h i j heq.symm

end VirtualColumn

namespace Slots

variable {s s' : Slots} {step : Nat} {owner : String} {slot : VirtualColumn}

/-! ## The search for a free slot -/

/-- The offsets at which an allocation may take a slot. -/
def freeOffsets (s : Slots) (step : Nat) : Set Nat :=
  {offset | s.granularity ∣ offset ∧ offset < step ∧ s.collides step offset = false}

theorem firstFree_eq_find? (count offset : Nat) : s.firstFree step count offset =
    ((List.range count).map (offset + s.granularity * ·)).find? (!s.collides step ·) := by
  induction count generalizing offset with
  | zero => rfl
  | succ count ih =>
    have hrest : (offset + s.granularity * ·) ∘ Nat.succ =
        (offset + s.granularity + s.granularity * ·) := by
      funext k
      simp only [Function.comp_apply, Nat.succ_eq_add_one]
      ring
    rw [firstFree, ih, List.range_succ_eq_map, List.map_cons, List.find?_cons, List.map_map, hrest,
      Nat.mul_zero, Nat.add_zero]
    cases s.collides step offset <;> rfl

/-- The search goes through the multiples of the granularity below the step. -/
theorem lt_offsets_iff (hpos : 0 < s.granularity) {k : Nat} :
    k < s.offsets step ↔ s.granularity * k < step := by
  rw [offsets, ← Nat.succ_le_iff, Nat.le_div_iff_mul_le hpos, Nat.succ_mul, mul_comm k]
  omega

/-- What is found is the first offset at which a slot is free. -/
theorem firstFree_eq_some_iff_isLeast (hpos : 0 < s.granularity) {free : Nat} :
    s.firstFree step (s.offsets step) 0 = some free ↔ IsLeast (s.freeOffsets step) free := by
  rw [firstFree_eq_find?, List.find?_map, Option.map_eq_some_iff]
  simp only [List.find?_range_eq_some, Function.comp_apply, zero_add, Bool.not_eq_true',
    Bool.not_not, List.mem_range, lt_offsets_iff hpos]
  constructor
  · rintro ⟨k, ⟨hfree, hk, hpassed⟩, rfl⟩
    refine ⟨⟨Nat.dvd_mul_right _ k, hk, hfree⟩, ?_⟩
    rintro - ⟨⟨j, rfl⟩, -, hj⟩
    by_contra hlt
    rw [not_le, Nat.mul_lt_mul_left hpos] at hlt
    exact ne_true_of_eq_false hj (hpassed j hlt)
  · rintro ⟨⟨⟨k, rfl⟩, hk, hfree⟩, hleast⟩
    refine ⟨k, ⟨hfree, hk, fun j hj => ?_⟩, rfl⟩
    by_contra hcollides
    have hlt : s.granularity * j < s.granularity * k := (Nat.mul_lt_mul_left hpos).mpr hj
    exact absurd (hleast ⟨Nat.dvd_mul_right _ j, hlt.trans hk, eq_false_of_ne_true hcollides⟩)
      (Nat.not_le_of_lt hlt)

theorem firstFree_eq_none_iff (hpos : 0 < s.granularity) :
    s.firstFree step (s.offsets step) 0 = none ↔ s.freeOffsets step = ∅ := by
  rw [firstFree_eq_find?, List.find?_map, Option.map_eq_none_iff, Set.eq_empty_iff_forall_notMem]
  simp only [List.find?_range_eq_none, Function.comp_apply, zero_add, Bool.not_not,
    lt_offsets_iff hpos]
  constructor
  · rintro hcollides - ⟨⟨k, rfl⟩, hk, hfree⟩
    exact ne_true_of_eq_false hfree (hcollides k hk)
  · intro hnone k hk
    by_contra hcollides
    exact hnone _ ⟨Nat.dvd_mul_right _ k, hk, eq_false_of_ne_true hcollides⟩

/-! ## Allocations -/

theorem allocate_eq_ok_iff (hpos : 0 < s.granularity) :
    s.allocate step owner = .ok (slot, s') ↔ (isPowerOfTwo step = true ∧ s.granularity ≤ step) ∧
      slot.column = s.column ∧ slot.step = step ∧ IsLeast (s.freeOffsets step) slot.offset ∧
      s' = s.reserve step slot.offset := by
  rw [allocate, Result.ite_error_eq_ok_iff, not_or, not_not, not_lt]
  refine and_congr_right fun _ => ?_
  obtain ⟨column, slotStep, offset⟩ := slot
  cases hfree : s.firstFree step (s.offsets step) 0 with
  | none =>
    rw [firstFree_eq_none_iff hpos] at hfree
    refine iff_of_false (fun h => by cases h) ?_
    rintro ⟨-, -, hleast, -⟩
    exact Set.notMem_empty _ (hfree ▸ hleast.1)
  | some free =>
    rw [firstFree_eq_some_iff_isLeast hpos] at hfree
    simp only [Except.ok.injEq, Prod.mk.injEq, VirtualColumn.mk.injEq]
    constructor
    · rintro ⟨⟨rfl, rfl, rfl⟩, rfl⟩
      exact ⟨rfl, rfl, hfree, rfl⟩
    · rintro ⟨rfl, rfl, hleast, rfl⟩
      obtain rfl := hfree.unique hleast
      exact ⟨⟨rfl, rfl, rfl⟩, rfl⟩

/-- There is nothing to search for without a granularity. -/
theorem granularity_pos_of_allocate (h : s.allocate step owner = .ok (slot, s')) :
    0 < s.granularity := by
  refine Nat.pos_of_ne_zero fun hzero => ?_
  rw [allocate, offsets, hzero, Nat.div_zero, firstFree] at h
  split at h <;> cases h

theorem allocate_eq_error_iff (hpos : 0 < s.granularity) {e : LayoutError} :
    s.allocate step owner = .error e ↔ e = .poolExhausted owner ∧
      (isPowerOfTwo step = false ∨ step < s.granularity ∨ s.freeOffsets step = ∅) := by
  rw [← firstFree_eq_none_iff hpos, ← or_assoc, ← Bool.not_eq_true, allocate]
  split
  · next hstep =>
    rw [Except.error.injEq, eq_comm]
    exact (and_iff_left (Or.inl hstep)).symm
  · next hstep =>
    rw [or_iff_right hstep]
    cases s.firstFree step (s.offsets step) 0 with
    | none =>
      rw [Except.error.injEq, eq_comm]
      exact (and_iff_left rfl).symm
    | some free => exact iff_of_false (fun h => by cases h) fun h => by cases h.2

/-- What a slot that has been allocated is like, and what the slots are left as. -/
theorem allocate_eq_ok (h : s.allocate step owner = .ok (slot, s')) :
    isPowerOfTwo step = true ∧ slot.column = s.column ∧ slot.step = step ∧
      s'.column = s.column ∧ s'.granularity = s.granularity ∧
      s.granularity ∣ slot.offset ∧ slot.offset < step ∧ s.granularity ≤ step := by
  obtain ⟨⟨hpow, hle⟩, hcolumn, hstep, ⟨⟨hdvd, hlt, -⟩, -⟩, rfl⟩ :=
    (allocate_eq_ok_iff (granularity_pos_of_allocate h)).mp h
  exact ⟨hpow, hcolumn, hstep, rfl, rfl, hdvd, hlt, hle⟩

end Slots

end CairoTrace
