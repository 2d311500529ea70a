import CairoTrace.Pool.Basic
import CairoTrace.Run.PublicInput
import Std.Data.HashMap

/-!
# The memory pool

The memory accesses of a trace by their position. Every `publicStep`-th position is kept for the
public memory. Memory has one value per address, and the accesses together with the public memory
have to cover a range of addresses that starts at one, so free positions take the addresses in the
gaps. What has been recorded of an address outlives an access that is refused.
-/

namespace CairoTrace

structure MemoryPool where
  accesses : Array (Option MemoryEntry)
  publicStep : Nat
  publicOffset : Nat
  /-- The value that was recorded last at each address. -/
  values : Std.HashMap Nat Felt := {}
  maxAddress : Nat := 0

namespace MemoryPool

def ofSize (positions publicStep publicOffset : Nat) : MemoryPool :=
  { accesses := Array.replicate positions none, publicStep, publicOffset }

/-- Whether a position is kept for the public memory. -/
def isPublic (p : MemoryPool) (position : Nat) : Bool :=
  position % p.publicStep == p.publicOffset

/-- Records the value at an address. It has to be the one that was recorded before, if any. -/
def record (p : MemoryPool) (e : MemoryEntry) : MemoryPool × Except LayoutError Unit :=
  let recorded := { p with
    values := p.values.insert e.address e.value
    maxAddress := max p.maxAddress e.address }
  match p.values[e.address]? with
  | some value =>
    if value = e.value then (recorded, .ok ()) else (recorded, .error (.memoryMismatch e.address))
  | none => (recorded, .ok ())

/-- Puts an access at a position, unless its address has another value. -/
def push (p : MemoryPool) (position : Nat) (e : MemoryEntry) :
    MemoryPool × Except LayoutError Unit :=
  match p.record e with
  | (p, .ok ()) => ({ p with accesses := p.accesses.setIfInBounds position (some e) }, .ok ())
  | (p, .error error) => (p, .error error)

/-- Records entries up to the first that is refused. -/
def recordAll (p : MemoryPool) : List MemoryEntry → MemoryPool × Except LayoutError Unit
  | [] => (p, .ok ())
  | e :: rest =>
    match p.record e with
    | (p, .ok ()) => recordAll p rest
    | (p, .error error) => (p, .error error)

/-- The number of positions that are kept for the public memory. -/
def publicCapacity (p : MemoryPool) : Nat := (List.range p.accesses.size).countP p.isPublic

/-- The entries of the trace: those of the accesses in order, and none where the public memory is
kept. -/
def traceEntries (p : MemoryPool) (accesses : List (Option MemoryEntry)) : List MemoryEntry :=
  accesses.zipIdx.map fun (access, i) => if p.isPublic i then ⟨0, 0⟩ else access.getD ⟨0, 0⟩

/-- The entries outside the positions that are kept for the public memory. -/
def ownEntries (p : MemoryPool) (accesses : List (Option MemoryEntry)) : List MemoryEntry :=
  accesses.zipIdx.filterMap fun (access, i) => if p.isPublic i then none else access

/-- The pool in the order of the trace, and sorted by address with the public memory in place of
the positions that are kept for it. Gaps take the values `gapValue` gives them; other free
positions take `padding`, as do those kept for the public memory that it does not use. -/
def finish (p : MemoryPool) (publicMemory : List MemoryEntry) (padding : MemoryEntry)
    (gapValue : Nat → Felt) :
    MemoryPool × Except LayoutError (List MemoryEntry × List MemoryEntry) :=
  let capacity := p.publicCapacity
  if capacity < publicMemory.length then
    (p, .error (.publicMemoryOverflow publicMemory.length capacity))
  else
    match p.recordAll publicMemory with
    | (p, .error error) => (p, .error error)
    | (p, .ok ()) =>
      let own (i : Nat) : Bool := !p.isPublic i
      let cells := p.accesses.toList
      let gaps := Pool.missing (fun address => p.values.contains address)
        (Pool.freeCells own 0 cells + 1) (p.maxAddress - 1) 1
      let (cells, left) := Pool.fill own padding 0 cells
        (gaps.map fun address => ⟨address, gapValue address⟩)
      if left ≠ [] then ({ p with accesses := cells.toArray }, .error (.poolExhausted "memory"))
      else
        let sorted := p.ownEntries cells ++ publicMemory
        let sorted := sorted ++ List.replicate (cells.length - sorted.length) padding
        ({ p with accesses := #[] },
          .ok (p.traceEntries cells, sorted.mergeSort fun a b => a.address ≤ b.address))

end MemoryPool

end CairoTrace
