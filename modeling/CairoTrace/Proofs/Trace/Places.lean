import CairoTrace.Proofs.Layout.Allotment
import CairoTrace.Proofs.Trace.Writes

/-!
# The places that are written

A script writes no place twice if its parts do not and have different keys, such as their columns or
the instances of their rows (`nodup_flatMap_of_key`). The writes of a builtin are made of cells on
successive steps of some virtual columns (`stepPlaces`) and of accesses to memory, which are on the
even rows of its slots (`accessPlaces`).
-/

namespace CairoTrace

/-! ## Lists without duplicates -/

theorem nodup_flatMap_of_key {α β κ : Type} {l : List α} {f : α → List β} (key : β → κ) {g : α → κ}
    (hkey : ∀ a ∈ l, ∀ b ∈ f a, key b = g a) (hg : (l.map g).Nodup) (hf : ∀ a ∈ l, (f a).Nodup) :
    (l.flatMap f).Nodup := by
  rw [List.nodup_flatMap]
  rw [List.Nodup, List.pairwise_map] at hg
  refine ⟨hf, hg.imp_of_mem fun ha hb hne x hx hy => hne ?_⟩
  exact (hkey _ ha x hx).symm.trans (hkey _ hb x hy)

theorem nodup_append_of_key {β κ : Type} {l l' : List β} (key : β → κ) (hl : l.Nodup)
    (hl' : l'.Nodup) (hkey : ∀ a ∈ l, ∀ b ∈ l', key a ≠ key b) : (l ++ l').Nodup :=
  List.nodup_append.mpr ⟨hl, hl', fun a ha b hb heq => hkey a ha b hb (congrArg key heq)⟩

theorem range_length_eq_map_zipIdx {α : Type} (l : List α) :
    List.range l.length = l.zipIdx.map (·.2) := by
  rw [List.zipIdx_map_snd, List.range_eq_range']

/-! ## Places of scripts -/

namespace Write

variable {check : Option DilutedCheck} {script script' : List Write}

/-- The places that a script writes, by their columns and their rows. -/
def places (check : Option DilutedCheck) (script : List Write) : List (Nat × Nat) :=
  (script.flatMap (cells check)).map (·.1)

@[simp] theorem places_nil : places check [] = [] := rfl

@[simp] theorem places_append :
    places check (script ++ script') = places check script ++ places check script' := by
  rw [places, List.flatMap_append, List.map_append, places, places]

@[simp] theorem places_flatMap {α : Type} {l : List α} {f : α → List Write} :
    places check (l.flatMap f) = l.flatMap fun a => places check (f a) := by
  rw [places, List.flatMap_assoc, List.map_flatMap]
  rfl

@[simp] theorem places_at' {c : VirtualColumn} {i : Nat} {v : Felt} :
    places check (at' c i v :: script) = (c.column, c.row i) :: places check script := rfl

@[simp] theorem places_memory {row address : Nat} {v : Felt} :
    places check (memory row address v :: script) =
      (Column.memoryPool, row) :: (Column.memoryPool, row + 1) :: places check script := rfl

@[simp] theorem places_rangeCheck {row v : Nat} :
    places check (rangeCheck row v :: script) =
      (Column.rangeCheckPool, row) :: places check script := rfl

@[simp] theorem places_refuse {e : LayoutError} :
    places check (refuse e :: script) = places check script := rfl

theorem mem_places_iff {p : Nat × Nat} :
    p ∈ places check script ↔ ∃ v, (p, v) ∈ script.flatMap (cells check) := by
  rw [places, List.mem_map]
  constructor
  · rintro ⟨⟨p, v⟩, hmem, rfl⟩
    exact ⟨v, hmem⟩
  · rintro ⟨v, hmem⟩
    exact ⟨(p, v), hmem, rfl⟩

/-- The rows of the accesses to memory of a script. -/
def accessRows (script : List Write) : List Nat :=
  script.filterMap fun
    | memory row _ _ => some row
    | _ => none

@[simp] theorem accessRows_append :
    accessRows (script ++ script') = accessRows script ++ accessRows script' :=
  List.filterMap_append

@[simp] theorem accessRows_flatMap {α : Type} {l : List α} {f : α → List Write} :
    accessRows (l.flatMap f) = l.flatMap fun a => accessRows (f a) :=
  List.filterMap_flatMap

/-- The columns of the cells that a script writes itself, rather than by way of a pool. -/
def cellColumns (script : List Write) : List Nat :=
  script.filterMap fun
    | cell column _ _ => some column
    | _ => none

@[simp] theorem cellColumns_append :
    cellColumns (script ++ script') = cellColumns script ++ cellColumns script' :=
  List.filterMap_append

@[simp] theorem cellColumns_flatMap {α : Type} {l : List α} {f : α → List Write} :
    cellColumns (l.flatMap f) = l.flatMap fun a => cellColumns (f a) :=
  List.filterMap_flatMap

theorem mem_accessRows_of_mem {row address : Nat} {v : Felt} (h : memory row address v ∈ script) :
    row ∈ accessRows script :=
  List.mem_filterMap.mpr ⟨_, h, rfl⟩

theorem mem_cellColumns_of_mem {column row : Nat} {v : Felt} (h : cell column row v ∈ script) :
    column ∈ cellColumns script :=
  List.mem_filterMap.mpr ⟨_, h, rfl⟩

end Write

open Write (places accessRows cellColumns)

/-! ## Steps -/

variable {check : Option DilutedCheck}

/-- The cells of virtual columns with `count` successive indices. -/
def stepPlaces (cs : List VirtualColumn) (first count : Nat) : List (Nat × Nat) :=
  (List.range count).flatMap fun k => cs.map fun c => (c.column, c.row (first + k))

theorem mem_stepPlaces_iff {cs : List VirtualColumn} {first count : Nat} {p : Nat × Nat} :
    p ∈ stepPlaces cs first count ↔
      ∃ k < count, ∃ c ∈ cs, (c.column, c.row (first + k)) = p := by
  simp only [stepPlaces, List.mem_flatMap, List.mem_range, List.mem_map]

theorem column_mem_of_mem_stepPlaces {cs : List VirtualColumn} {first count : Nat} {p : Nat × Nat}
    (h : p ∈ stepPlaces cs first count) : p.1 ∈ cs.map (·.column) := by
  obtain ⟨k, -, c, hc, rfl⟩ := mem_stepPlaces_iff.mp h
  exact List.mem_map_of_mem hc

variable (check) in
/-- The places of a script that writes cells of the same columns on each step. -/
theorem places_steps {α : Type} (cs : List VirtualColumn) (f : Nat → α → List Write)
    (hf : ∀ i a, places check (f i a) = cs.map fun c => (c.column, c.row i)) (l : List α)
    (first : Nat) : places check (l.zipIdx.flatMap fun q => f (first + q.2) q.1) =
      stepPlaces cs first l.length := by
  rw [Write.places_flatMap, stepPlaces, range_length_eq_map_zipIdx, List.flatMap_map]
  simp only [hf]

theorem accessRows_steps {α : Type} (f : Nat → α → List Write)
    (hf : ∀ i a, accessRows (f i a) = []) (l : List α) (first : Nat) :
    accessRows (l.zipIdx.flatMap fun q => f (first + q.2) q.1) = [] := by
  rw [Write.accessRows_flatMap]
  exact List.flatMap_eq_nil_iff.mpr fun q _ => hf _ q.1

theorem cellColumns_steps_subset {α : Type} (cs : List VirtualColumn) (f : Nat → α → List Write)
    (hf : ∀ i a, cellColumns (f i a) = cs.map (·.column)) (l : List α) (first : Nat) :
    cellColumns (l.zipIdx.flatMap fun q => f (first + q.2) q.1) ⊆ cs.map (·.column) := by
  intro k hk
  rw [Write.cellColumns_flatMap] at hk
  obtain ⟨q, -, hk⟩ := List.mem_flatMap.mp hk
  rwa [hf] at hk

theorem nodup_stepPlaces {cs : List VirtualColumn} {step : Nat} (hstep : 0 < step)
    (hcs : ∀ c ∈ cs, c.StartsSteps step) (hnodup : (cs.map (·.column)).Nodup) (first count : Nat) :
    (stepPlaces cs first count).Nodup := by
  refine nodup_flatMap_of_key (·.2) (g := fun k => step * (first + k)) ?_ ?_ ?_
  · intro k _ p hp
    obtain ⟨c, hc, rfl⟩ := List.mem_map.mp hp
    obtain ⟨hcstep, hoffset⟩ := hcs c hc
    rw [VirtualColumn.row, hcstep, hoffset, Nat.zero_add]
  · refine List.nodup_range.map fun k k' heq => ?_
    exact Nat.add_left_cancel (Nat.eq_of_mul_eq_mul_left hstep heq)
  · intro k _
    refine List.Nodup.of_map (·.1) ?_
    rwa [List.map_map]

/-- The row of a cell, of which each instance has `count` on steps of its own. -/
theorem VirtualColumn.row_div {c : VirtualColumn} {step count i k : Nat}
    (hc : c.step = step ∧ c.offset < step) (hk : k < count) :
    c.row (count * i + k) / (count * step) = i := by
  obtain ⟨rfl, hoffset⟩ := hc
  have hpos : 0 < c.step := (Nat.zero_le _).trans_lt hoffset
  rw [mul_comm count c.step, ← Nat.div_div_eq_div_mul, VirtualColumn.row,
    Nat.add_mul_div_left _ _ hpos, Nat.div_eq_of_lt hoffset, zero_add, Nat.mul_add_div (by omega),
    Nat.div_eq_of_lt hk, add_zero]

theorem row_div_of_mem_stepPlaces {cs : List VirtualColumn} {step count i : Nat} (hstep : 0 < step)
    (hcs : ∀ c ∈ cs, c.StartsSteps step) {first length : Nat} (hfirst : count * i ≤ first)
    (hlast : first + length ≤ count * (i + 1)) {p : Nat × Nat}
    (hp : p ∈ stepPlaces cs first length) : p.2 / (count * step) = i := by
  obtain ⟨k, hk, c, hc, rfl⟩ := mem_stepPlaces_iff.mp hp
  obtain ⟨hcstep, hoffset⟩ := hcs c hc
  obtain ⟨j, rfl⟩ := Nat.exists_eq_add_of_le hfirst
  rw [mul_add, mul_one] at hlast
  rw [add_assoc]
  exact VirtualColumn.row_div ⟨hcstep, hoffset.trans_lt hstep⟩ (by omega)

/-! ## Accesses to memory -/

/-- The cells of the addresses and the values of accesses on given rows. -/
def accessPlaces (rows : List Nat) : List (Nat × Nat) :=
  rows.flatMap fun row => [(Column.memoryPool, row), (Column.memoryPool, row + 1)]

theorem mem_accessPlaces_iff {rows : List Nat} {p : Nat × Nat} : p ∈ accessPlaces rows ↔
    p.1 = Column.memoryPool ∧ ∃ row ∈ rows, p.2 = row ∨ p.2 = row + 1 := by
  obtain ⟨column, row⟩ := p
  simp only [accessPlaces, List.mem_flatMap, List.mem_cons, Prod.mk.injEq, List.not_mem_nil,
    or_false]
  constructor
  · rintro ⟨r, hr, ⟨rfl, rfl⟩ | ⟨rfl, rfl⟩⟩
    · exact ⟨rfl, _, hr, Or.inl rfl⟩
    · exact ⟨rfl, _, hr, Or.inr rfl⟩
  · rintro ⟨rfl, r, hr, rfl | rfl⟩
    · exact ⟨_, hr, Or.inl ⟨rfl, rfl⟩⟩
    · exact ⟨_, hr, Or.inr ⟨rfl, rfl⟩⟩

theorem nodup_accessPlaces {rows : List Nat} (hrows : rows.Nodup) (heven : ∀ r ∈ rows, 2 ∣ r) :
    (accessPlaces rows).Nodup := by
  refine nodup_flatMap_of_key (·.2 / 2) (g := (· / 2)) ?_ ?_ ?_
  · intro r hr p hp
    obtain ⟨k, rfl⟩ := heven r hr
    rcases List.mem_pair.mp hp with rfl | rfl
    · rfl
    · simp only
      omega
  · refine List.Nodup.map_on (fun r hr r' hr' heq => ?_) hrows
    obtain ⟨k, rfl⟩ := heven r hr
    obtain ⟨k', rfl⟩ := heven r' hr'
    omega
  · intro r _
    simp

namespace VirtualColumn

theorem row_injective {c : VirtualColumn} (hstep : 0 < c.step) : Function.Injective c.row :=
  fun _ _ heq => Nat.eq_of_mul_eq_mul_left hstep (Nat.add_left_cancel heq)

namespace IsMemorySlot

variable {c : VirtualColumn} {step : Nat}

theorem step_pos (h : c.IsMemorySlot step) : 0 < c.step :=
  h.step_eq ▸ pos_of_isPowerOfTwo h.isPowerOfTwo_step

theorem two_dvd_step (h : c.IsMemorySlot step) : 2 ∣ step := by
  have hlt := h.offset_succ_lt
  exact dvd_of_isPowerOfTwo (by decide) h.isPowerOfTwo_step (by omega)

/-- The rows of a slot of memory are even, and the same number of them is in each instance. -/
theorem row_mem_instance (h : c.IsMemorySlot step) {count i k : Nat} (hk : k < count) :
    2 ∣ c.row (count * i + k) ∧ c.row (count * i + k) / (count * step) = i := by
  refine ⟨?_, row_div ⟨h.step_eq, (Nat.lt_succ_self _).trans h.offset_succ_lt⟩ hk⟩
  rw [row, h.step_eq]
  exact dvd_add h.dvd_offset (h.two_dvd_step.mul_right _)

/-- The row of a slot that each instance has once. -/
theorem row_mem (h : c.IsMemorySlot step) (i : Nat) : 2 ∣ c.row i ∧ c.row i / step = i := by
  have hrow : 2 ∣ c.row (1 * i + 0) ∧ c.row (1 * i + 0) / (1 * step) = i :=
    h.row_mem_instance one_pos
  rwa [one_mul, one_mul, add_zero] at hrow

end IsMemorySlot

end VirtualColumn

end CairoTrace
