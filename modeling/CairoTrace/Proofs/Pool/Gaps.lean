import CairoTrace.Pool.Basic
import Mathlib.Tactic

/-!
# Pools whose free cells are filled

The values that a pool misses of a range are its gaps, in ascending order and up to a limit
(`Pool.missing_eq`). Filling the pool keeps the cells that are taken, leaves no open cell free, and
uses up the values if there are as many free cells (`Pool.fill_snd_eq_nil_iff`). The open cells then
hold what they held, the values, and a default for each free cell that is left
(`Pool.openValues_fill_perm`).
-/

namespace CairoTrace

namespace Pool

variable {α : Type} {isOpen : Nat → Bool} {default : α} {i : Nat} {cells : List (Option α)}
  {values : List α}

/-! ## Gaps -/

/-- The numbers among `v`, `v + 1`, … `v + count - 1` that are not used. -/
def gaps (used : Nat → Bool) (v count : Nat) : List Nat :=
  (List.range' v count).filter fun k => !used k

theorem mem_gaps {used : Nat → Bool} {v count k : Nat} :
    k ∈ gaps used v count ↔ (v ≤ k ∧ k < v + count) ∧ used k = false := by
  rw [gaps, List.mem_filter, List.mem_range'_1, Bool.not_eq_true']

theorem missing_eq (used : Nat → Bool) (limit count v : Nat) :
    missing used limit count v = (gaps used v count).take limit := by
  induction count generalizing limit v with
  | zero => cases limit <;> rfl
  | succ count ih =>
    cases limit with
    | zero => rw [missing, List.take_zero]
    | succ limit =>
      rw [missing, gaps, List.range'_succ, List.filter_cons, ih, ih]
      cases used v with
      | true => rfl
      | false => rfl

theorem missing_of_length_le {used : Nat → Bool} {limit count v : Nat}
    (h : (gaps used v count).length ≤ limit) : missing used limit count v = gaps used v count := by
  rw [missing_eq, List.take_of_length_le h]

/-- With a limit of one more than there is room for, too many missing numbers are seen. -/
theorem length_missing_le_iff {used : Nat → Bool} {room count v : Nat} :
    (missing used (room + 1) count v).length ≤ room ↔ (gaps used v count).length ≤ room := by
  rw [missing_eq, List.length_take]
  omega

/-! ## Free cells -/

theorem freeCells_cons_of_free {cell : Option α} (h : (cell.isNone && isOpen i) = true) :
    freeCells isOpen i (cell :: cells) = freeCells isOpen (i + 1) cells + 1 := by
  rw [freeCells, if_pos h, Nat.add_comm]

theorem freeCells_cons_of_not_free {cell : Option α} (h : (cell.isNone && isOpen i) = false) :
    freeCells isOpen i (cell :: cells) = freeCells isOpen (i + 1) cells := by
  rw [freeCells, if_neg (ne_true_of_eq_false h), Nat.zero_add]

/-- Where all cells are open, the free cells are those without a value. -/
theorem freeCells_all (cells : List (Option α)) (i : Nat) :
    freeCells (fun _ => true) i cells = cells.countP (·.isNone) := by
  induction cells generalizing i with
  | nil => rfl
  | cons cell cells ih =>
    rw [freeCells, ih, List.countP_cons, Bool.and_true, add_comm]

/-- The free cells are counted by their positions. -/
theorem freeCells_map_range' (f : Nat → Option α) (i count : Nat) :
    freeCells isOpen i ((List.range' i count).map f) =
      (List.range' i count).countP fun k => (f k).isNone && isOpen k := by
  induction count generalizing i with
  | zero => rfl
  | succ count ih =>
    rw [List.range'_succ, List.map_cons, freeCells, ih, List.countP_cons, add_comm]

/-! ## Values at open positions -/

/-- The values of the cells at open positions. The first cell has position `i`. -/
def openValues (isOpen : Nat → Bool) (i : Nat) (cells : List (Option α)) : List α :=
  (cells.zipIdx i).filterMap fun (cell, k) => if isOpen k then cell else none

@[simp] theorem openValues_nil : openValues isOpen i ([] : List (Option α)) = [] := rfl

theorem openValues_cons (cell : Option α) :
    openValues isOpen i (cell :: cells) =
      (if isOpen i then cell else none).toList ++ openValues isOpen (i + 1) cells := by
  rw [openValues, List.zipIdx_cons, List.filterMap_cons, openValues]
  cases hcell : (if isOpen i then cell else none) with
  | none => simp [hcell]
  | some a => simp [hcell]

theorem openValues_all (cells : List (Option α)) (i : Nat) :
    openValues (fun _ => true) i cells = cells.filterMap id := by
  induction cells generalizing i with
  | nil => rfl
  | cons cell cells ih =>
    rw [openValues_cons, ih, if_pos rfl]
    cases cell <;> rfl

theorem mem_openValues {a : α} :
    a ∈ openValues isOpen i cells ↔ ∃ k, cells[k]? = some (some a) ∧ isOpen (i + k) = true := by
  rw [openValues, List.mem_filterMap]
  simp only [Prod.exists, List.mk_mem_zipIdx_iff_le_and_getElem?_sub]
  constructor
  · rintro ⟨cell, k, ⟨hle, hcell⟩, hvalue⟩
    split at hvalue
    · next hopen =>
      rw [hvalue] at hcell
      refine ⟨k - i, hcell, ?_⟩
      rwa [Nat.add_sub_cancel' hle]
    · cases hvalue
  · rintro ⟨k, hcell, hopen⟩
    refine ⟨some a, i + k, ⟨Nat.le_add_right i k, ?_⟩, if_pos hopen⟩
    rwa [Nat.add_sub_cancel_left]

theorem freeCells_cons_eq_zero_iff {cell : Option α} :
    freeCells isOpen i (cell :: cells) = 0 ↔
      (isOpen i = true → cell.isSome = true) ∧ freeCells isOpen (i + 1) cells = 0 := by
  rw [freeCells, Nat.add_eq_zero_iff]
  refine and_congr_left fun _ => ?_
  cases cell <;> cases isOpen i <;> simp

/-- A pool without free cells, with a value in place of its closed cells. -/
theorem map_zipIdx_perm (closed : α) (h : freeCells isOpen i cells = 0) :
    ((cells.zipIdx i).map fun (cell, k) => if isOpen k then cell.getD closed else closed).Perm
      (List.replicate ((List.range' i cells.length).countP (!isOpen ·)) closed ++
        openValues isOpen i cells) := by
  induction cells generalizing i with
  | nil => exact .refl _
  | cons cell cells ih =>
    obtain ⟨hcell, hcells⟩ := freeCells_cons_eq_zero_iff.mp h
    simp only [List.zipIdx_cons, List.map_cons, List.length_cons, List.range'_succ,
      List.countP_cons, openValues_cons]
    cases hopen : isOpen i with
    | true =>
      obtain ⟨v, rfl⟩ := Option.isSome_iff_exists.mp (hcell hopen)
      exact ((ih hcells).cons v).trans List.perm_middle.symm
    | false => exact (ih hcells).cons closed

/-- The open cells of a pool without free cells are those of its values. -/
theorem filter_zipIdx_eq_openValues (closed : α) (h : freeCells isOpen i cells = 0) :
    ((((cells.zipIdx i).map fun (cell, k) => if isOpen k then cell.getD closed else closed).zipIdx
      i).filter (isOpen ·.2)).map (·.1) = openValues isOpen i cells := by
  induction cells generalizing i with
  | nil => rfl
  | cons cell cells ih =>
    obtain ⟨hcell, hcells⟩ := freeCells_cons_eq_zero_iff.mp h
    rw [List.zipIdx_cons, List.map_cons, List.zipIdx_cons, List.filter_cons, openValues_cons,
      ← ih hcells]
    cases hopen : isOpen i with
    | true =>
      obtain ⟨v, rfl⟩ := Option.isSome_iff_exists.mp (hcell hopen)
      simp [hopen]
    | false => simp

/-! ## Filling -/

theorem fill_cons_of_free {cell : Option α} (h : (cell.isNone && isOpen i) = true) :
    fill isOpen default i (cell :: cells) values =
      (some (values.headD default) :: (fill isOpen default (i + 1) cells values.tail).1,
        (fill isOpen default (i + 1) cells values.tail).2) := by
  rw [fill, if_pos h]

theorem fill_cons_of_not_free {cell : Option α} (h : (cell.isNone && isOpen i) = false) :
    fill isOpen default i (cell :: cells) values =
      (cell :: (fill isOpen default (i + 1) cells values).1,
        (fill isOpen default (i + 1) cells values).2) := by
  rw [fill, if_neg (ne_true_of_eq_false h)]

@[simp] theorem length_fill : (fill isOpen default i cells values).1.length = cells.length := by
  induction cells generalizing i values with
  | nil => rfl
  | cons cell cells ih =>
    cases h : cell.isNone && isOpen i with
    | true => rw [fill_cons_of_free h, List.length_cons, ih, List.length_cons]
    | false => rw [fill_cons_of_not_free h, List.length_cons, ih, List.length_cons]

/-- The values that are left over. -/
theorem fill_snd :
    (fill isOpen default i cells values).2 = values.drop (freeCells isOpen i cells) := by
  induction cells generalizing i values with
  | nil => rfl
  | cons cell cells ih =>
    cases h : cell.isNone && isOpen i with
    | true =>
      rw [fill_cons_of_free h, freeCells_cons_of_free h, ih, ← List.drop_one, List.drop_drop,
        Nat.add_comm]
    | false => rw [fill_cons_of_not_free h, freeCells_cons_of_not_free h, ih]

theorem fill_snd_eq_nil_iff :
    (fill isOpen default i cells values).2 = [] ↔ values.length ≤ freeCells isOpen i cells := by
  rw [fill_snd, List.drop_eq_nil_iff]

/-- A cell that is taken, or closed, stays as it is. -/
theorem getElem?_fill_of_not_free {cell : Option α} {k : Nat} (hcell : cells[k]? = some cell)
    (h : (cell.isNone && isOpen (i + k)) = false) :
    (fill isOpen default i cells values).1[k]? = some cell := by
  induction cells generalizing i k values with
  | nil => cases hcell
  | cons first cells ih =>
    cases k with
    | zero =>
      obtain rfl : first = cell := Option.some.inj hcell
      rw [Nat.add_zero] at h
      rw [fill_cons_of_not_free h]
      rfl
    | succ k =>
      have hrest : (cell.isNone && isOpen (i + 1 + k)) = false := by
        rwa [Nat.add_right_comm]
      cases hfirst : first.isNone && isOpen i with
      | true =>
        rw [fill_cons_of_free hfirst]
        exact ih hcell hrest
      | false =>
        rw [fill_cons_of_not_free hfirst]
        exact ih hcell hrest

/-- No open cell is free afterwards. -/
theorem freeCells_fill : freeCells isOpen i (fill isOpen default i cells values).1 = 0 := by
  induction cells generalizing i values with
  | nil => rfl
  | cons cell cells ih =>
    cases h : cell.isNone && isOpen i with
    | true => rw [fill_cons_of_free h, freeCells_cons_of_not_free (by rfl), ih]
    | false => rw [fill_cons_of_not_free h, freeCells_cons_of_not_free h, ih]

/-- What the open cells hold afterwards. -/
theorem openValues_fill_perm (h : values.length ≤ freeCells isOpen i cells) :
    (openValues isOpen i (fill isOpen default i cells values).1).Perm
      (openValues isOpen i cells ++
        (values ++ List.replicate (freeCells isOpen i cells - values.length) default)) := by
  induction cells generalizing i values with
  | nil =>
    obtain rfl := List.length_eq_zero_iff.mp (Nat.le_zero.mp h)
    exact .refl _
  | cons cell cells ih =>
    cases hfree : cell.isNone && isOpen i with
    | true =>
      rw [freeCells_cons_of_free hfree] at h ⊢
      rw [fill_cons_of_free hfree]
      rw [Bool.and_eq_true, Option.isNone_iff_eq_none] at hfree
      obtain ⟨rfl, hopen⟩ := hfree
      rw [openValues_cons, openValues_cons, if_pos hopen, if_pos hopen]
      cases values with
      | nil => exact ((ih (Nat.zero_le _)).cons default).trans List.perm_middle.symm
      | cons v values =>
        rw [List.length_cons] at h ⊢
        rw [Nat.add_sub_add_right]
        exact ((ih (Nat.le_of_succ_le_succ h)).cons v).trans List.perm_middle.symm
    | false =>
      rw [freeCells_cons_of_not_free hfree] at h ⊢
      rw [fill_cons_of_not_free hfree, openValues_cons, openValues_cons, List.append_assoc]
      exact (ih h).append_left _

end Pool

end CairoTrace
