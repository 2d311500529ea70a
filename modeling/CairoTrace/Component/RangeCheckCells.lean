import CairoTrace.Builtin.RangeCheck
import CairoTrace.Component.Basic
import CairoTrace.Run.PrivateInput

/-!
# Range checked words in a trace

A word is checked to have no more than a number of parts, each of which is a range checked value.
-/

namespace CairoTrace

structure RangeCheckCells where
  /-- The parts of a word. -/
  partCount : Nat
  memory : VirtualColumn
  /-- The slot of range checked values of the parts, the highest first. -/
  parts : VirtualColumn
deriving DecidableEq

namespace RangeCheckCells

def height (c : RangeCheckCells) : Nat := c.memory.step

def joined (c : RangeCheckCells) : Term :=
  (List.range' 1 (c.partCount - 1)).foldl
    (fun (acc : Term) (j : Nat) => acc * .pow2 RangeCheck.partBits + c.parts.cell j)
    c.parts.current

def constraints (c : RangeCheckCells) : List Constraint :=
  let every : Rows := .every c.height 0
  [{ name := "rc_builtin/value", expr := c.joined - c.memory.valueColumn.current, domain := every },
    { name := "rc_builtin/addr_step", expr := c.memory.next - (c.memory.current + 1)
      domain := every, exclusions := [.fromEnd c.height] },
    { name := "rc_builtin/init_addr", expr := c.memory.current - Hint.rangeCheckStart.term
      domain := .first 0 }]

/-- The writes of instance `i`, whose segment of memory starts at `start`. -/
def instanceWrites (c : RangeCheckCells) (start i : Nat) (inst : RangeCheckInstance) :
    List Write :=
  match RangeCheck.parts inst.value c.partCount with
  | .error e => [.refuse (.builtin e)]
  | .ok parts =>
    .memory (c.memory.row i) (inst.address start) (.ofNat inst.value) ::
      parts.zipIdx.map fun (part, j) => .rangeCheck (c.parts.row (i * c.partCount + j)) part

/-- The writes of all instances; a place without an instance holds zero. -/
def writes (c : RangeCheckCells) (start : Nat) (instances : List (Option RangeCheckInstance)) :
    List Write :=
  instances.zipIdx.flatMap fun (inst?, i) =>
    c.instanceWrites start i (inst?.getD ⟨i, 0⟩)

end RangeCheckCells

end CairoTrace
