import CairoTrace.Constraint.Composition
import CairoTrace.Proofs.Expr
import CairoTrace.Proofs.StarkField
import Std.Data.HashMap.Lemmas

/-!
# What constraints read

The value of a leaf, from what cells and periodic columns hold (`Leaf.read`), and the condition
under which it can be bound (`Leaf.IsBound`). A bound leaf has the value of the leaf that it comes
from (`value_of_bind`) and its degree (`degree_of_bind`). The places of a mask are looked up in a
map that knows the cells of the mask and nothing else (`maskPlaces_eq_some`,
`exists_maskPlaces_iff`), and a place of a mask counts as used if an expression reads it
(`getElem?_usedPlaces`).
-/

namespace CairoTrace

namespace Leaf

/-- The value of a leaf when cells and periodic columns have given values. -/
def read (b : Bindings) (cell : Cell → Felt) (periodic : Nat → Felt) : Leaf → Felt
  | .constant v => v
  | .cell column offset => cell (column, offset)
  | .periodic i => periodic i
  | .challenge i => b.challenges[i]?.getD 0
  | .hint i => b.hints[i]?.join.getD 0

/-- Whether what a leaf reads is there; of cells those are that are `known`. -/
def IsBound (b : Bindings) (known : Cell → Prop) : Leaf → Prop
  | .constant _ => True
  | .cell column offset => known (column, offset)
  | .periodic i => i < b.periodicCount
  | .challenge i => i < b.challenges.length
  | .hint i => ∃ v, b.hints[i]? = some (some v)

/-- The degree of what a leaf reads, as a polynomial in the point. -/
def degree (n : Nat) (periodic : List PeriodicColumn) : Leaf → Nat
  | .cell _ _ => n - 1
  | .periodic i => (periodic[i]?.map (·.degree)).getD 0
  | _ => 0

variable {κ : Type} {b : Bindings} {locate : Cell → Option κ}

theorem exists_bind_eq_ok_iff {known : Cell → Prop} (l : Leaf)
    (hlocate : ∀ cell, (∃ place, locate cell = some place) ↔ known cell) :
    (∃ l', l.bind b locate = .ok l') ↔ l.IsBound b known := by
  cases l with
  | constant v => simp [bind, IsBound]
  | cell column offset =>
    rw [IsBound, ← hlocate, bind]
    cases locate (column, offset) <;> simp
  | periodic i =>
    rw [IsBound, bind]
    split <;> simp_all
  | challenge i =>
    rw [IsBound, bind]
    split
    · next v hv => simpa using (List.getElem?_eq_some_iff.mp hv).1
    · next hnone => simpa using List.getElem?_eq_none_iff.mp hnone
  | hint i =>
    rw [IsBound, bind]
    split <;> simp_all

/-- A leaf that can be bound has, once it is bound, the value that it reads. -/
theorem value_of_bind {l : Leaf} {l' : BoundLeaf κ} {cell : Cell → Felt} {place : κ → Felt}
    {periodic : Nat → Felt} (h : l.bind b locate = .ok l')
    (hcell : ∀ c p, locate c = some p → place p = cell c) :
    l'.value place periodic = l.read b cell periodic := by
  cases l with
  | constant v =>
    obtain rfl := Except.ok.inj h
    rfl
  | cell column offset =>
    rw [bind] at h
    split at h
    · next p hp =>
      obtain rfl := Except.ok.inj h
      exact hcell _ _ hp
    · cases h
  | periodic i =>
    rw [bind] at h
    split at h
    · obtain rfl := Except.ok.inj h
      rfl
    · cases h
  | challenge i =>
    rw [bind] at h
    split at h
    · next v hv =>
      obtain rfl := Except.ok.inj h
      rw [read, hv]
      rfl
    · cases h
  | hint i =>
    rw [bind] at h
    split at h
    · next v hv =>
      obtain rfl := Except.ok.inj h
      rw [read, hv]
      rfl
    · cases h

theorem degree_of_bind {n : Nat} {periodic : List PeriodicColumn} {locate : Cell → Option Nat}
    {l : Leaf} {l' : BoundLeaf Nat} (h : l.bind b locate = .ok l') :
    Composition.leafDegree n periodic.toArray l' = l.degree n periodic := by
  cases l with
  | constant v =>
    obtain rfl := Except.ok.inj h
    rfl
  | cell column offset =>
    rw [bind] at h
    split at h
    · obtain rfl := Except.ok.inj h
      rfl
    · cases h
  | periodic i =>
    rw [bind] at h
    split at h
    · obtain rfl := Except.ok.inj h
      rw [Composition.leafDegree, degree, List.getElem?_toArray]
    · cases h
  | challenge i | hint i =>
    rw [bind] at h
    split at h
    · obtain rfl := Except.ok.inj h
      rfl
    · cases h

/-- The places that bound leaves read are those of the cells that the leaves read. -/
theorem bind_eq_cell_iff {l : Leaf} {p : κ} :
    l.bind b locate = .ok (.cell p) ↔
      ∃ column offset, l = .cell column offset ∧ locate (column, offset) = some p := by
  cases l with
  | constant v => simp [bind]
  | cell column offset =>
    rw [bind]
    cases h : locate (column, offset) with
    | none => simp [h]
    | some q => simp [h]
  | periodic i | challenge i | hint i =>
    rw [bind]
    split <;> simp

end Leaf

namespace Constraint

/-- The value of the expression of a constraint, from the values of cells and periodic columns. -/
def value (b : Bindings) (cell : Cell → Felt) (periodic : Nat → Felt) (c : Constraint) : Felt :=
  c.expr.eval (Leaf.read b cell periodic)

/-- The value of a constraint depends on the cells that its leaves are bound to. -/
theorem value_congr {b : Bindings} {c : Constraint} {known : Cell → Prop} {v w : Cell → Felt}
    {periodic : Nat → Felt} (hbound : ∀ l ∈ c.expr.leaves, l.IsBound b known)
    (hcell : ∀ cell, known cell → v cell = w cell) :
    c.value b v periodic = c.value b w periodic := by
  refine Expr.eval_congr fun l hl => ?_
  cases l with
  | cell column offset => exact hcell _ (hbound _ hl)
  | constant v | periodic i | challenge i | hint i => rfl

/-- The value of a bound expression is that of the constraint that it comes from. -/
theorem eval_of_tryMap_bind {κ : Type} {b : Bindings} {locate : Cell → Option κ}
    {c : Constraint} {e : Expr (BoundLeaf κ)} {place : κ → Felt} {cell : Cell → Felt}
    {periodic : Nat → Felt} (h : c.expr.tryMap (Leaf.bind b locate) = .ok e)
    (hcell : ∀ c p, locate c = some p → place p = cell c) :
    e.eval (BoundLeaf.value place periodic) = c.value b cell periodic :=
  Expr.eval_tryMap h fun _ _ _ hl => Leaf.value_of_bind hl hcell

end Constraint

namespace Composition

/-! ## The places of a mask -/

theorem maskPlaces_concat (mask : List Cell) (cell : Cell) :
    maskPlaces (mask ++ [cell]) = (maskPlaces mask).insert cell mask.length := by
  rw [maskPlaces, List.zipIdx_append, List.foldl_append, maskPlaces]
  simp

theorem maskPlaces_eq_some {mask : List Cell} {cell : Cell} {i : Nat}
    (h : (maskPlaces mask)[cell]? = some i) : mask[i]? = some cell := by
  induction mask using List.reverseRecOn with
  | nil => simp [maskPlaces] at h
  | append_singleton mask last ih =>
    rw [maskPlaces_concat, Std.HashMap.getElem?_insert] at h
    split at h
    · next heq =>
      obtain rfl := Option.some.inj h
      rw [List.getElem?_concat_length, eq_of_beq heq]
    · have hi := ih h
      rw [List.getElem?_append_left (List.getElem?_eq_some_iff.mp hi).1, hi]

theorem exists_maskPlaces_iff {mask : List Cell} (cell : Cell) :
    (∃ i, (maskPlaces mask)[cell]? = some i) ↔ cell ∈ mask := by
  constructor
  · rintro ⟨i, hi⟩
    exact List.mem_of_getElem? (maskPlaces_eq_some hi)
  · induction mask using List.reverseRecOn with
    | nil => simp
    | append_singleton mask last ih =>
      intro h
      rw [maskPlaces_concat, Std.HashMap.getElem?_insert]
      by_cases heq : (last == cell) = true
      · exact ⟨mask.length, if_pos heq⟩
      · rw [if_neg heq]
        rcases List.mem_append.mp h with h | h
        · exact ih h
        · exact absurd (beq_iff_eq.mpr (List.mem_singleton.mp h).symm) heq

/-! ## The places that are used -/

/-- Marks the places that leaves read. -/
def markLeaf (used : Array Bool) : BoundLeaf Nat → Array Bool
  | .cell i => used.setIfInBounds i true
  | _ => used

theorem usedPlaces_eq (size : Nat) (exprs : List (Expr (BoundLeaf Nat))) :
    usedPlaces size exprs =
      (exprs.flatMap (·.leaves)).foldl markLeaf (Array.replicate size false) := by
  rw [List.foldl_flatMap]
  rfl

theorem getElem?_markLeaf {used : Array Bool} {l : BoundLeaf Nat} {i : Nat} :
    (markLeaf used l)[i]? = some true ↔ used[i]? = some true ∨ l = .cell i ∧ i < used.size := by
  cases l with
  | constant v | periodic j => simp [markLeaf]
  | cell j =>
    rw [markLeaf, Array.getElem?_setIfInBounds]
    split
    · next hij =>
      subst hij
      split
      · simp_all
      · simp_all
    · next hij =>
      simp only [BoundLeaf.cell.injEq]
      tauto

theorem size_markLeaf (used : Array Bool) (l : BoundLeaf Nat) :
    (markLeaf used l).size = used.size := by
  cases l with
  | constant v | periodic j => rfl
  | cell j => exact Array.size_setIfInBounds

theorem getElem?_foldl_markLeaf {used : Array Bool} {ls : List (BoundLeaf Nat)} {i : Nat} :
    (ls.foldl markLeaf used)[i]? = some true ↔
      used[i]? = some true ∨ .cell i ∈ ls ∧ i < used.size := by
  induction ls generalizing used with
  | nil => simp
  | cons l ls ih =>
    rw [List.foldl_cons, ih, getElem?_markLeaf, size_markLeaf, List.mem_cons]
    tauto

theorem getElem?_usedPlaces {size : Nat} {exprs : List (Expr (BoundLeaf Nat))} {i : Nat} :
    (usedPlaces size exprs)[i]? = some true ↔ i < size ∧ ∃ e ∈ exprs, .cell i ∈ e.leaves := by
  rw [usedPlaces_eq, getElem?_foldl_markLeaf, Array.size_replicate, List.mem_flatMap,
    Array.getElem?_replicate, and_comm]
  split <;> simp_all

end Composition

end CairoTrace
