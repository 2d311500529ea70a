import CairoTrace.Pool.DilutedPool
import CairoTrace.Pool.RangeCheckPool
import CairoTrace.Proofs.Pool.Gaps
import CairoTrace.Proofs.Pool.Pushes

/-!
# Pools of numbers

A pool keeps the number that was pushed last to each row (`Pool.lastPushed`). Once its gaps have
room in the rows that are free, it has every number of a range and no others
(`Pool.mem_filled_iff`), so that its sorted copy covers the range (`Pool.Covers`): it starts with
the smallest number, ends with the largest one and climbs by one at most.
-/

namespace CairoTrace

namespace Pool

/-! ## Lists that cover a range -/

/-- Whether a list has the numbers from `least` to `greatest` in ascending order, with any number of
copies. -/
structure Covers (l : List Nat) (least greatest : Nat) : Prop where
  sorted : l.Pairwise (· ≤ ·)
  mem_iff : ∀ v, v ∈ l ↔ least ≤ v ∧ v ≤ greatest

namespace Covers

variable {l : List Nat} {least greatest : Nat}

theorem getElem_le (h : Covers l least greatest) {i j : Nat} (hij : i ≤ j) (hj : j < l.length) :
    l[i] ≤ l[j] := by
  rcases Nat.lt_or_eq_of_le hij with hlt | rfl
  · exact List.pairwise_iff_getElem.mp h.sorted i j (hlt.trans hj) hj hlt
  · exact le_rfl

theorem of_mem_iff (h : ∀ v, v ∈ l ↔ least ≤ v ∧ v ≤ greatest) :
    Covers (l.mergeSort (· ≤ ·)) least greatest where
  sorted := by
    have htrans (a b c : Nat) : decide (a ≤ b) = true → decide (b ≤ c) = true →
        decide (a ≤ c) = true := by
      simp only [decide_eq_true_eq]
      exact Nat.le_trans
    have htotal (a b : Nat) : (decide (a ≤ b) || decide (b ≤ a)) = true := by
      simp only [Bool.or_eq_true, decide_eq_true_eq]
      exact Nat.le_total a b
    exact (List.pairwise_mergeSort htrans htotal l).imp of_decide_eq_true
  mem_iff v := by
    rw [(List.mergeSort_perm l _).mem_iff]
    exact h v

theorem length_pos (h : Covers l least greatest) (hle : least ≤ greatest) : 0 < l.length :=
  List.length_pos_of_mem ((h.mem_iff least).mpr ⟨le_rfl, hle⟩)

theorem getElem_zero (h : Covers l least greatest) (hle : least ≤ greatest)
    (hpos : 0 < l.length) : l[0] = least := by
  obtain ⟨i, hi, hleast⟩ := List.mem_iff_getElem.mp ((h.mem_iff least).mpr ⟨le_rfl, hle⟩)
  apply Nat.le_antisymm
  · rw [← hleast]
    exact h.getElem_le (Nat.zero_le i) hi
  · exact ((h.mem_iff _).mp (List.getElem_mem hpos)).1

theorem getElem_last (h : Covers l least greatest) (hle : least ≤ greatest)
    (hlast : l.length - 1 < l.length) : l[l.length - 1] = greatest := by
  obtain ⟨i, hi, hgreatest⟩ := List.mem_iff_getElem.mp ((h.mem_iff greatest).mpr ⟨hle, le_rfl⟩)
  apply Nat.le_antisymm
  · exact ((h.mem_iff _).mp (List.getElem_mem hlast)).2
  · rw [← hgreatest]
    exact h.getElem_le (by omega) hlast

/-- A number that was stepped over would be missing. -/
theorem getElem_succ (h : Covers l least greatest) {i : Nat} (hi : i + 1 < l.length) :
    l[i + 1] = l[i] ∨ l[i + 1] = l[i] + 1 := by
  have hmono := h.getElem_le (show i ≤ i + 1 by omega) hi
  by_contra hne
  rw [not_or] at hne
  have hlow := ((h.mem_iff _).mp (List.getElem_mem (Nat.lt_of_succ_lt hi))).1
  have hhigh := ((h.mem_iff _).mp (List.getElem_mem hi)).2
  obtain ⟨j, hj, heq⟩ := List.mem_iff_getElem.mp ((h.mem_iff (l[i] + 1)).mpr (by omega))
  rcases Nat.lt_or_ge i j with hlt | hge
  · have hafter := h.getElem_le (show i + 1 ≤ j from hlt) hj
    omega
  · have hbefore := h.getElem_le hge (Nat.lt_of_succ_lt hi)
    omega

end Covers

/-! ## Pools without gaps -/

/-- The numbers of a pool whose free cells have been filled with its gaps, in the order of the
rows. -/
def filled (default start count : Nat) (cells : List (Option Nat)) : List Nat :=
  let used (v : Nat) : Bool := (cells.filterMap id).contains v
  (fill (fun _ => true) default 0 cells (gaps used start count)).1.map (·.getD default)

/-- The number of gaps of a pool. -/
def gapCount (start count : Nat) (cells : List (Option Nat)) : Nat :=
  (gaps (cells.filterMap id).contains start count).length

variable {default start count : Nat} {cells : List (Option Nat)}

@[simp] theorem length_filled : (filled default start count cells).length = cells.length := by
  rw [filled, List.length_map, length_fill]

theorem getElem?_filled {row v : Nat} (h : cells[row]? = some (some v)) :
    (filled default start count cells)[row]? = some v := by
  rw [filled, List.getElem?_map, getElem?_fill_of_not_free h rfl]
  rfl

/-- A pool without free cells is the list of its values. -/
theorem map_getD_eq_filterMap (h : freeCells (fun _ => true) 0 cells = 0) :
    cells.map (·.getD default) = cells.filterMap id := by
  rw [freeCells_all, List.countP_eq_zero] at h
  induction cells with
  | nil => rfl
  | cons cell cells ih =>
    rw [List.forall_mem_cons] at h
    cases cell with
    | none => exact absurd rfl h.1
    | some v => exact congrArg (v :: ·) (ih h.2)

theorem filled_perm (hroom : gapCount start count cells ≤ cells.countP (·.isNone)) :
    (filled default start count cells).Perm (cells.filterMap id ++
      (gaps (cells.filterMap id).contains start count ++
        List.replicate (cells.countP (·.isNone) - gapCount start count cells) default)) := by
  rw [filled, map_getD_eq_filterMap freeCells_fill]
  rw [← freeCells_all cells 0] at hroom
  have h : (openValues (fun _ => true) 0 (fill (fun _ => true) default 0 cells
      (gaps (cells.filterMap id).contains start count)).1).Perm _ := openValues_fill_perm hroom
  rwa [openValues_all, openValues_all, freeCells_all] at h

/-- Filling a pool with what is missing uses all of it up if the gaps have room. -/
theorem fill_missing_snd_eq_nil_iff :
    (fill (fun _ => true) default 0 cells
        (missing (Std.HashSet.ofList (cells.filterMap id)).contains
          (freeCells (fun _ => true) 0 cells + 1) count start)).2 = [] ↔
      gapCount start count cells ≤ cells.countP (·.isNone) := by
  have hused : (Std.HashSet.ofList (cells.filterMap id)).contains =
      (cells.filterMap id).contains := funext fun v => Std.HashSet.contains_ofList
  rw [hused, fill_snd_eq_nil_iff, length_missing_le_iff, gapCount, freeCells_all]

theorem fill_missing_fst (hroom : gapCount start count cells ≤ cells.countP (·.isNone)) :
    (fill (fun _ => true) default 0 cells
        (missing (Std.HashSet.ofList (cells.filterMap id)).contains
          (freeCells (fun _ => true) 0 cells + 1) count start)).1.map (·.getD default) =
      filled default start count cells := by
  have hused : (Std.HashSet.ofList (cells.filterMap id)).contains =
      (cells.filterMap id).contains := funext fun v => Std.HashSet.contains_ofList
  rw [← freeCells_all cells 0] at hroom
  rw [hused, missing_of_length_le (Nat.le_succ_of_le hroom)]
  rfl

/-- A pool of numbers of a range has all of them once its gaps are filled. -/
theorem mem_filled_iff (hused : ∀ v ∈ cells.filterMap id, start ≤ v ∧ v < start + count)
    (hdefault : start ≤ default ∧ default < start + count)
    (hroom : gapCount start count cells ≤ cells.countP (·.isNone)) {v : Nat} :
    v ∈ filled default start count cells ↔ start ≤ v ∧ v < start + count := by
  rw [(filled_perm hroom).mem_iff, List.mem_append, List.mem_append, mem_gaps]
  constructor
  · rintro (hv | ⟨hv, -⟩ | hv)
    · exact hused v hv
    · exact hv
    · rw [List.eq_of_mem_replicate hv]
      exact hdefault
  · intro hv
    cases hcontains : (cells.filterMap id).contains v with
    | true => exact Or.inl (List.contains_iff_mem.mp hcontains)
    | false => exact Or.inr (Or.inl ⟨hv, rfl⟩)

end Pool

open Pool

/-! ## Range checked values -/

namespace RangeCheckPool

/-- A pool after a number of pushes. -/
def pushAll (p : RangeCheckPool) (pushes : List (Nat × Nat)) : RangeCheckPool :=
  pushes.foldl (fun p q => p.push q.1 q.2) p

theorem toList_pushAll (n : Nat) (pushes : List (Nat × Nat)) :
    ((ofSize n).pushAll pushes).toList = (List.range n).map (lastPushed pushes) :=
  toList_foldl_setIfInBounds n pushes

variable {p : RangeCheckPool} {least greatest : Nat} {pool sorted : List Nat}

theorem finish_eq_ok_iff : (p.finish least greatest).2 = .ok (pool, sorted) ↔
    (∀ v ∈ p.values, least ≤ v ∧ v ≤ greatest) ∧
      gapCount least (greatest + 1 - least) p.toList ≤ p.toList.countP (·.isNone) ∧
      filled greatest least (greatest + 1 - least) p.toList = pool ∧
      pool.mergeSort (· ≤ ·) = sorted := by
  have hbounds : (p.values.filter fun v => v < least || greatest < v).min? = none ↔
      ∀ v ∈ p.values, least ≤ v ∧ v ≤ greatest := by
    rw [List.min?_eq_none_iff, List.filter_eq_nil_iff]
    simp only [Bool.or_eq_true, decide_eq_true_eq, not_or, not_lt]
  rw [← hbounds, finish]
  cases (p.values.filter fun v => v < least || greatest < v).min? with
  | some v => simp
  | none =>
    simp only [values, ne_eq, fill_missing_snd_eq_nil_iff, ite_not, true_and]
    split
    · next hroom =>
      rw [fill_missing_fst hroom, Except.ok.injEq, Prod.mk.injEq, and_iff_right hroom]
      exact ⟨fun ⟨hpool, hsorted⟩ => ⟨hpool, hpool ▸ hsorted⟩,
        fun ⟨hpool, hsorted⟩ => ⟨hpool, hpool ▸ hsorted⟩⟩
    · next hroom => exact iff_of_false nofun fun h => hroom h.1

theorem exists_finish_eq_ok_iff :
    (∃ pool sorted, (p.finish least greatest).2 = .ok (pool, sorted)) ↔
    (∀ v ∈ p.values, least ≤ v ∧ v ≤ greatest) ∧
      gapCount least (greatest + 1 - least) p.toList ≤ p.toList.countP (·.isNone) := by
  simp only [finish_eq_ok_iff, exists_and_left, exists_eq', and_true]

/-- The sorted copy of a pool that is finished covers the range of its bounds. -/
theorem covers_of_finish (hle : least ≤ greatest)
    (h : (p.finish least greatest).2 = .ok (pool, sorted)) : Covers sorted least greatest := by
  obtain ⟨hbounds, hroom, rfl, rfl⟩ := finish_eq_ok_iff.mp h
  have hused (v : Nat) (hv : v ∈ p.values) : least ≤ v ∧ v < least + (greatest + 1 - least) := by
    have hv := hbounds v hv
    omega
  apply Covers.of_mem_iff
  intro v
  rw [mem_filled_iff hused (by omega) hroom]
  omega

end RangeCheckPool

/-! ## Diluted values -/

namespace DilutedPool

/-- A pool after a number of pushes. -/
def pushAll (p : DilutedPool) (pushes : List (Nat × Nat)) : DilutedPool :=
  pushes.foldl (fun p q => p.push q.1 q.2) p

theorem pushAll_eq (p : DilutedPool) (pushes : List (Nat × Nat)) : p.pushAll pushes =
    ⟨pushes.foldl (fun cells q => cells.setIfInBounds q.1 (some q.2)) p.cells, p.bits⟩ := by
  induction pushes generalizing p with
  | nil => rfl
  | cons q pushes ih => exact ih (p.push q.1 q.2)

theorem toList_cells_pushAll (n bits : Nat) (pushes : List (Nat × Nat)) :
    ((ofSize n bits).pushAll pushes).cells.toList = (List.range n).map (lastPushed pushes) := by
  rw [pushAll_eq]
  exact toList_foldl_setIfInBounds n pushes

variable {p : DilutedPool} {pool sorted : List Nat}

theorem finish_eq_ok_iff : p.finish.2 = .ok (pool, sorted) ↔
    gapCount 0 (2 ^ p.bits) p.cells.toList ≤ p.cells.toList.countP (·.isNone) ∧
      filled 0 0 (2 ^ p.bits) p.cells.toList = pool ∧ pool.mergeSort (· ≤ ·) = sorted := by
  simp only [finish, Nat.one_shiftLeft, ne_eq, fill_missing_snd_eq_nil_iff, ite_not]
  split
  · next hroom =>
    rw [fill_missing_fst hroom, Except.ok.injEq, Prod.mk.injEq, and_iff_right hroom]
    exact ⟨fun ⟨hpool, hsorted⟩ => ⟨hpool, hpool ▸ hsorted⟩,
      fun ⟨hpool, hsorted⟩ => ⟨hpool, hpool ▸ hsorted⟩⟩
  · next hroom => exact iff_of_false nofun fun h => hroom h.1

/-- The sorted copy of a pool that is finished covers the numbers of its digits. -/
theorem covers_of_finish (hused : ∀ v ∈ p.cells.toList.filterMap id, v < 2 ^ p.bits)
    (h : p.finish.2 = .ok (pool, sorted)) : Covers sorted 0 (2 ^ p.bits - 1) := by
  have hpos : 0 < 2 ^ p.bits := Nat.two_pow_pos _
  obtain ⟨hroom, rfl, rfl⟩ := finish_eq_ok_iff.mp h
  have hused (v : Nat) (hv : v ∈ p.cells.toList.filterMap id) : 0 ≤ v ∧ v < 0 + 2 ^ p.bits := by
    have hv := hused v hv
    omega
  apply Covers.of_mem_iff
  intro v
  rw [mem_filled_iff hused (by omega) hroom]
  omega

end DilutedPool

end CairoTrace
