import CairoTrace.Builtin.Bitwise
import CairoTrace.Component.Basic

/-!
# Bitwise operations in a trace

An instance splits two words, their conjunction and their exclusive disjunction into strands,
which are diluted numbers. For strands the sum of the operands is the exclusive disjunction plus
twice the conjunction, digit by digit, as the spacing leaves room for the carry. Strand `k` of
value `v` is on row `d·(4k + v)` of the pool of diluted numbers. The strands at the top of a word
have fewer digits; a trim cell on row `4dj + 1` holds the disjunction of strand `j`, shifted so far
that it would overflow if it had more.
-/

namespace CairoTrace

structure BitwiseCells where
  dilution : Dilution
  /-- The column of the pool of diluted numbers. -/
  pool : Nat
  /-- The slot of memory of the operands, the conjunction and the exclusive disjunction. -/
  values : VirtualColumn
  disjunction : VirtualColumn
deriving DecidableEq

namespace BitwiseCells

/-- The values whose strands are in the pool. -/
def valueCount : Nat := 4

def height (c : BitwiseCells) : Nat := c.disjunction.step

def strandStep (c : BitwiseCells) : Nat := c.height / (valueCount * c.dilution.strands)

def strandRow (c : BitwiseCells) (value k : Nat) : Nat := c.strandStep * (valueCount * k + value)

/-- The row of the trim cell of strand `j` of the last chunk. -/
def trimRow (c : BitwiseCells) (j : Nat) : Nat := valueCount * c.strandStep * j + 1

def poolCell (c : BitwiseCells) (row : Nat) : Term := .leaf (.cell c.pool row)

/-- The strands of the last chunk that do not use all of their digits, and how many they use. -/
def trimmed (c : BitwiseCells) : List (Nat × Nat) :=
  ((List.range c.dilution.spacing).map fun j => (j, c.dilution.topStrandBits j)).filter
    fun (_, bits) => bits < c.dilution.bits

/-- Strand `j` of the last chunk. -/
def topStrand (c : BitwiseCells) (j : Nat) : Nat :=
  (c.dilution.chunks - 1) * c.dilution.spacing + j

def joined (c : BitwiseCells) (value : Nat) : Term :=
  let strand (k : Nat) : Term :=
    c.poolCell (c.strandRow value k) * .pow2 (c.dilution.strandShift k)
  match List.range c.dilution.strands with
  | [] => 0
  | k :: rest => rest.foldl (fun (acc : Term) k => acc + strand k) (strand k)

/-- Every address follows the one before it. -/
def addressConstraints (c : BitwiseCells) : List Constraint :=
  let every : Rows := .every c.height 0
  let address (k : Nat) : Term := c.values.cell k
  [{ name := "bitwise/init_var_pool_addr", expr := address 0 - Hint.bitwiseStart.term
     domain := .first 0 },
    { name := "bitwise/step_var_pool_addr", expr := address 1 - (address 0 + 1)
      domain := .every c.values.step 0, exclusions := [.every c.height (3 * c.values.step)] },
    { name := "bitwise/x_or_y_addr", expr := c.disjunction.current - (address 3 + 1)
      domain := every },
    { name := "bitwise/next_var_pool_addr", expr := address 4 - (c.disjunction.current + 1)
      domain := every, exclusions := [.fromEnd c.height] }]

/-- The words in memory are made of their strands. -/
def partitionConstraints (c : BitwiseCells) : List Constraint :=
  ["x", "y", "x_and_y", "x_xor_y"].zipIdx.map fun (name, value) =>
    { name := s!"bitwise/partition_{name}"
      expr := c.values.valueColumn.cell value - c.joined value
      domain := .every c.height 0 }

/-- The disjunction is the sum of the conjunction and the exclusive disjunction, and strand by
strand the operands add up to the exclusive disjunction and twice the conjunction. -/
def operationConstraints (c : BitwiseCells) : List Constraint :=
  let value (k : Nat) : Term := c.values.valueColumn.cell k
  let d := c.strandStep
  [{ name := "bitwise/or_is_and_plus_xor"
     expr := c.disjunction.valueColumn.current - (value 2 + value 3), domain := .every c.height 0 },
    { name := "bitwise/addition_is_xor_with_and"
      expr := c.poolCell 0 + c.poolCell d - (c.poolCell (3 * d) + c.poolCell (2 * d) * 2)
      domain := .every (valueCount * d) 0 }]

/-- The strands at the top of a word have no digits above it. -/
def trimConstraints (c : BitwiseCells) : List Constraint :=
  c.trimmed.map fun (j, bits) =>
    let top (value : Nat) : Term := c.poolCell (c.strandRow value (c.topStrand j))
    let disjunction := top 2 + top 3
    { name := s!"bitwise/unique_unpacking{j}"
      expr :=
        if bits = 0 then disjunction
        else disjunction * .pow2 (c.dilution.spacing * (c.dilution.bits - bits)) -
          c.poolCell (c.trimRow j)
      domain := .every c.height 0 }

def constraints (c : BitwiseCells) : List Constraint :=
  c.addressConstraints ++ c.partitionConstraints ++ c.operationConstraints ++ c.trimConstraints

/-- The number whose dilution is a strand. -/
def compact (c : BitwiseCells) (strand : Word) : Nat :=
  (List.range c.dilution.bits).foldl
    (fun n t => n ||| (strand.testBit (c.dilution.spacing * t)).toNat <<< t) 0

/-- The writes of the strands of an instance whose first row is `base`. -/
def strandWrites (c : BitwiseCells) (base : Nat) (w : Bitwise.Witness) : List Write :=
  w.partitions.zipIdx.flatMap fun (strands, value) =>
    strands.zipIdx.map fun (strand, k) =>
      .diluted (base + c.strandRow value k) (c.compact strand)

/-- The writes of the trim cells of an instance whose first row is `base`. -/
def trimWrites (c : BitwiseCells) (base : Nat) (w : Bitwise.Witness) : List Write :=
  c.trimmed.filterMap fun (j, bits) =>
    let top (v : Word) : Nat := c.compact (c.dilution.strand v (c.topStrand j))
    let disjunction := top w.conjunction ||| top w.exclusive
    if bits = 0 then none
    else some (.diluted (base + c.trimRow j) (disjunction <<< (c.dilution.bits - bits)))

/-- The writes of instance `i`, whose segment of memory starts at `start`. -/
def instanceWrites (c : BitwiseCells) (start i : Nat) (inst : BitwiseInstance) :
    List Write :=
  match Bitwise.Witness.ofInstance inst c.dilution with
  | .error e => [.refuse (.builtin e)]
  | .ok w =>
    let base := i * c.height
    let row (k : Nat) : Nat :=
      if k < valueCount then c.values.row (valueCount * i + k) else c.disjunction.row i
    let values := [w.inst.x, w.inst.y, w.conjunction, w.exclusive, w.disjunction]
    c.strandWrites base w ++ c.trimWrites base w ++
    ((w.inst.addresses start).zip values).zipIdx.map fun ((address, v), k) =>
      .memory (row k) address (.ofNat v)

/-- The writes of all instances; a place without an instance has zero operands. -/
def writes (c : BitwiseCells) (start : Nat) (instances : List (Option BitwiseInstance)) :
    List Write :=
  instances.zipIdx.flatMap fun (inst?, i) =>
    c.instanceWrites start i (inst?.getD ⟨i, 0, 0⟩)

end BitwiseCells

end CairoTrace
