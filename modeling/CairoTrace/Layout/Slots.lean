import CairoTrace.Constraint.Basic
import CairoTrace.Layout.Error

/-!
# Slots

The rows of a column are handed out to the components of a layout in slots: the rows `offset`,
`offset + step`, `offset + 2·step`, … Steps are powers of two, so two slots have a row in common
exactly when their offsets agree modulo the smaller step.
-/

namespace CairoTrace

/-- The slots of a column that are taken. -/
structure Slots where
  column : Nat
  /-- Offsets are multiples of this. -/
  granularity : Nat
  /-- Steps and offsets, in the order in which the slots were taken. -/
  taken : List (Nat × Nat) := []
deriving DecidableEq

namespace Slots

/-- Takes a slot whether or not it is free. -/
def reserve (s : Slots) (step offset : Nat) : Slots :=
  { s with taken := s.taken ++ [(step, offset)] }

/-- Whether two slots have a row in common. -/
def meets (step offset : Nat) (slot : Nat × Nat) : Bool :=
  slot.2 % min slot.1 step == offset % min slot.1 step

/-- Whether a slot has a row in common with one that is taken. -/
def collides (s : Slots) (step offset : Nat) : Bool := s.taken.any (meets step offset)

/-- The first offset of a free slot among `count` multiples of the granularity from `offset` on. -/
def firstFree (s : Slots) (step : Nat) : (count offset : Nat) → Option Nat
  | 0, _ => none
  | count + 1, offset =>
    if s.collides step offset then firstFree s step count (offset + s.granularity) else some offset

/-- The number of offsets below `step`. -/
def offsets (s : Slots) (step : Nat) : Nat := (step + s.granularity - 1) / s.granularity

/-- Takes the first free slot with a given step. -/
def allocate (s : Slots) (step : Nat) (owner : String) :
    Except LayoutError (VirtualColumn × Slots) :=
  if ¬ isPowerOfTwo step ∨ step < s.granularity then .error (.poolExhausted owner)
  else
    match s.firstFree step (s.offsets step) 0 with
    | some offset => .ok (⟨s.column, step, offset⟩, s.reserve step offset)
    | none => .error (.poolExhausted owner)

/-! A step of zero makes no slot. -/

/-- Whether a slot is compared with one of step zero before it collides. -/
def meetsZero (step offset : Nat) : List (Nat × Nat) → Bool
  | [] => false
  | slot :: rest =>
    min slot.1 step == 0 || (!meets step offset slot && meetsZero step offset rest)

/-- Whether the search for a free slot meets a step of zero. -/
def searchMeetsZero (s : Slots) (step : Nat) : (count offset : Nat) → Bool
  | 0, _ => false
  | count + 1, offset =>
    meetsZero step offset s.taken ||
      (s.collides step offset && searchMeetsZero s step count (offset + s.granularity))

/-- Whether a slot of a given step cannot be searched for: there is no granularity, or the search
meets a step of zero. -/
def undefinedFor (s : Slots) (step : Nat) : Bool :=
  isPowerOfTwo step && s.granularity ≤ step &&
    (s.granularity == 0 || s.searchMeetsZero step (s.offsets step) 0)

end Slots

end CairoTrace
