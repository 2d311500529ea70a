import CairoTrace.Proofs.Composition.Acceptance

/-!
# The mask of a list of constraints

Insertion into an ascending list keeps it ascending and adds one element (`pairwise_insertSorted`,
`mem_insertSorted`). A mask is made by insertions alone, so that it has no cell twice
(`nodup_deriveMask`) and holds the cells that one of the constraints reads, and no others
(`mem_deriveMask_iff`).
-/

namespace CairoTrace

/-! ## Ascending lists -/

/-- A test that puts elements in a strict total order. -/
structure IsStrictlyTotal {α : Type} (lt : α → α → Bool) : Prop where
  irrefl : ∀ a, lt a a = false
  trans : ∀ {a b c}, lt a b = true → lt b c = true → lt a c = true
  eq_of_not_lt : ∀ {a b}, lt a b = false → lt b a = false → a = b

theorem isStrictlyTotal_cellLt : IsStrictlyTotal cellLt where
  irrefl := by
    intro a
    simp [cellLt]
  trans := by
    intro a b c hab hbc
    simp only [cellLt, Bool.or_eq_true, Bool.and_eq_true, decide_eq_true_eq, beq_iff_eq] at *
    omega
  eq_of_not_lt := by
    intro a b hab hba
    simp only [cellLt, Bool.or_eq_false_iff, Bool.and_eq_false_iff, decide_eq_false_iff_not,
      beq_eq_false_iff_ne] at hab hba
    have hcolumn : a.1 = b.1 := by omega
    exact Prod.ext hcolumn (by omega)

section Insertion

variable {α : Type} {lt : α → α → Bool}

theorem mem_insertSorted (h : IsStrictlyTotal lt) {a b : α} {l : List α} :
    b ∈ insertSorted lt a l ↔ b = a ∨ b ∈ l := by
  induction l with
  | nil => simp [insertSorted]
  | cons x rest ih =>
    unfold insertSorted
    split
    · rw [List.mem_cons]
    · next hax =>
      split
      · rw [List.mem_cons, ih, List.mem_cons]
        exact or_left_comm
      · next hxa =>
        obtain rfl := h.eq_of_not_lt (Bool.not_eq_true _ ▸ hax) (Bool.not_eq_true _ ▸ hxa)
        simp

theorem pairwise_insertSorted (h : IsStrictlyTotal lt) {a : α} {l : List α}
    (hl : l.Pairwise (lt · · = true)) : (insertSorted lt a l).Pairwise (lt · · = true) := by
  induction l with
  | nil => exact List.pairwise_singleton _ a
  | cons x rest ih =>
    obtain ⟨hx, hrest⟩ := List.pairwise_cons.mp hl
    unfold insertSorted
    split
    · next hax =>
      refine List.pairwise_cons.mpr ⟨fun b hb => ?_, hl⟩
      rcases List.mem_cons.mp hb with rfl | hb
      · exact hax
      · exact h.trans hax (hx b hb)
    · split
      · next hxa =>
        refine List.pairwise_cons.mpr ⟨fun b hb => ?_, ih hrest⟩
        rcases (mem_insertSorted h).mp hb with rfl | hb
        · exact hxa
        · exact hx b hb
      · exact hl

theorem nodup_of_pairwise (h : IsStrictlyTotal lt) {l : List α} (hl : l.Pairwise (lt · · = true)) :
    l.Nodup := by
  refine hl.imp fun {a b} hab heq => ?_
  rw [heq, h.irrefl] at hab
  cases hab

/-! ## Insertion of a list -/

theorem mem_foldl_insertSorted (h : IsStrictlyTotal lt) {added l : List α} {b : α} :
    b ∈ added.foldl (fun set a => insertSorted lt a set) l ↔ b ∈ added ∨ b ∈ l := by
  induction added generalizing l with
  | nil => simp
  | cons a added ih =>
    rw [List.foldl_cons, ih, mem_insertSorted h, List.mem_cons]
    tauto

theorem pairwise_foldl_insertSorted (h : IsStrictlyTotal lt) {added l : List α}
    (hl : l.Pairwise (lt · · = true)) :
    (added.foldl (fun set a => insertSorted lt a set) l).Pairwise (lt · · = true) := by
  induction added generalizing l with
  | nil => exact hl
  | cons a added ih => exact ih (pairwise_insertSorted h hl)

end Insertion

/-! ## Masks -/

theorem Constraint.mem_cells_iff {c : Constraint} {cell : Cell} :
    cell ∈ c.cells ↔ c.Reads cell := by
  rw [cells, sortedSet, mem_foldl_insertSorted isStrictlyTotal_cellLt, cellLeaves,
    List.mem_filterMap, Reads]
  constructor
  · rintro (⟨l, hl, heq⟩ | hnil)
    · split at heq
      · obtain rfl := Option.some.inj heq
        exact hl
      · cases heq
    · cases hnil
  · intro h
    exact .inl ⟨_, h, rfl⟩

/-- A mask is made of the cells of all constraints by one insertion after the other. -/
theorem deriveMask_eq (cs : List Constraint) :
    deriveMask cs = (cs.flatMap (·.cells)).foldl (fun set a => insertSorted cellLt a set) [] := by
  rw [List.foldl_flatMap]
  rfl

theorem mem_deriveMask_iff {cs : List Constraint} {cell : Cell} :
    cell ∈ deriveMask cs ↔ ∃ c ∈ cs, c.Reads cell := by
  rw [deriveMask_eq, mem_foldl_insertSorted isStrictlyTotal_cellLt, List.mem_flatMap]
  simp [Constraint.mem_cells_iff]

theorem nodup_deriveMask (cs : List Constraint) : (deriveMask cs).Nodup := by
  rw [deriveMask_eq]
  exact nodup_of_pairwise isStrictlyTotal_cellLt
    (pairwise_foldl_insertSorted isStrictlyTotal_cellLt .nil)

end CairoTrace
