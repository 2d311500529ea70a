import Mathlib.Data.List.Induction
import Mathlib.Data.List.Nodup

/-!
# The last of a number of pushes

Values are pushed to places one after the other, and a place keeps the last one
(`Pool.lastPushed`). It is the value of any push to the place, if they all agree
(`Pool.lastPushed_eq_of_mem`).
-/

namespace CairoTrace

namespace Pool

variable {κ α : Type} [DecidableEq κ] {pushes : List (κ × α)} {place : κ} {v : α}

/-- The value that was pushed last to a place, if there is one. -/
def lastPushed (pushes : List (κ × α)) (place : κ) : Option α :=
  (pushes.reverse.find? (·.1 == place)).map (·.2)

theorem lastPushed_append_singleton (pushes : List (κ × α)) (q : κ × α) (place : κ) :
    lastPushed (pushes ++ [q]) place =
      if q.1 = place then some q.2 else lastPushed pushes place := by
  rw [lastPushed, List.reverse_append, List.reverse_singleton, List.singleton_append,
    List.find?_cons]
  by_cases h : q.1 = place
  · rw [if_pos h, beq_iff_eq.mpr h]
    rfl
  · rw [if_neg h, beq_eq_false_iff_ne.mpr h]
    rfl

theorem mem_of_lastPushed (h : lastPushed pushes place = some v) : (place, v) ∈ pushes := by
  obtain ⟨⟨place', v'⟩, hfind, heq⟩ := Option.map_eq_some_iff.mp h
  obtain rfl : v' = v := heq
  have hplace := List.find?_some hfind
  obtain rfl : place' = place := eq_of_beq hplace
  exact List.mem_reverse.mp (List.mem_of_find?_eq_some hfind)

theorem lastPushed_eq_none_iff :
    lastPushed pushes place = none ↔ ∀ q ∈ pushes, q.1 ≠ place := by
  rw [lastPushed, Option.map_eq_none_iff, List.find?_eq_none]
  simp only [List.mem_reverse, beq_iff_eq, ne_eq]

/-- A place that is pushed to keeps one of the values. -/
theorem exists_lastPushed (h : (place, v) ∈ pushes) : ∃ w, lastPushed pushes place = some w :=
  Option.ne_none_iff_exists'.mp fun hnone => lastPushed_eq_none_iff.mp hnone _ h rfl

theorem lastPushed_map {β : Type} (f : α → β) (pushes : List (κ × α)) (place : κ) :
    lastPushed (pushes.map fun q => (q.1, f q.2)) place = (lastPushed pushes place).map f := by
  rw [lastPushed, ← List.map_reverse, List.find?_map, lastPushed, Option.map_map, Option.map_map]
  rfl

/-- All pushes to a place are of the same value. -/
theorem lastPushed_eq_of_mem (h : (place, v) ∈ pushes)
    (hsame : ∀ w, (place, w) ∈ pushes → w = v) : lastPushed pushes place = some v := by
  cases hlast : lastPushed pushes place with
  | none => exact absurd rfl (lastPushed_eq_none_iff.mp hlast _ h)
  | some w => rw [hsame w (mem_of_lastPushed hlast)]

/-- A place that is pushed to once keeps what was pushed. -/
theorem lastPushed_eq_of_nodup (hdistinct : (pushes.map (·.1)).Nodup) (h : (place, v) ∈ pushes) :
    lastPushed pushes place = some v :=
  lastPushed_eq_of_mem h fun _ hw =>
    congrArg (·.2) (List.inj_on_of_nodup_map hdistinct hw h rfl)

theorem toList_foldl_setIfInBounds (n : Nat) (pushes : List (Nat × α)) :
    (pushes.foldl (fun cells q => cells.setIfInBounds q.1 (some q.2))
      (Array.replicate n none)).toList = (List.range n).map (lastPushed pushes) := by
  induction pushes using List.reverseRecOn with
  | nil =>
    have hnone : lastPushed ([] : List (Nat × α)) = fun _ => none := rfl
    rw [List.foldl_nil, Array.toList_replicate, hnone, List.map_const', List.length_range]
  | append_singleton pushes q ih =>
    rw [List.foldl_append, List.foldl_cons, List.foldl_nil, Array.toList_setIfInBounds, ih]
    apply List.ext_getElem
    · simp
    · intro row h _
      simp only [List.getElem_set, List.getElem_map, List.getElem_range,
        lastPushed_append_singleton]

end Pool

end CairoTrace
