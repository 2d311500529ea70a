import CairoTrace.Component.Basic
import CairoTrace.Machine.Operands

/-!
# The processor

One instruction is decoded and executed in each cycle of sixteen rows. Its flags are in a column
of their own, as tails; its offsets are in the pool of range checked values; the instruction and
its operands are accesses to memory; registers and intermediate values have another column.
-/

namespace CairoTrace

namespace Cpu

/-- A cell of a cycle. -/
def cycleCell (column row : Nat) : VirtualColumn := ⟨column, cycleHeight, row⟩

/-! ## Cells -/

def pc : VirtualColumn := cycleCell Column.memoryPool 0
def instruction : VirtualColumn := cycleCell Column.memoryPool 1
def op0Address : VirtualColumn := cycleCell Column.memoryPool 4
def op0 : VirtualColumn := cycleCell Column.memoryPool 5
def dstAddress : VirtualColumn := cycleCell Column.memoryPool 8
def dst : VirtualColumn := cycleCell Column.memoryPool 9
def op1Address : VirtualColumn := cycleCell Column.memoryPool 12
def op1 : VirtualColumn := cycleCell Column.memoryPool 13

def dstOffset : VirtualColumn := cycleCell Column.rangeCheckPool 0
def op1Offset : VirtualColumn := cycleCell Column.rangeCheckPool 4
def op0Offset : VirtualColumn := cycleCell Column.rangeCheckPool 8

def ap : VirtualColumn := cycleCell Column.registers 0
def tmp0 : VirtualColumn := cycleCell Column.registers 2
def product : VirtualColumn := cycleCell Column.registers 4
def fp : VirtualColumn := cycleCell Column.registers 8
def tmp1 : VirtualColumn := cycleCell Column.registers 10
def res : VirtualColumn := cycleCell Column.registers 12

/-- The rows of a cycle at which the processor accesses memory. -/
def memoryRows : List Nat := [pc, op0Address, dstAddress, op1Address].map (·.offset)

/-- The rows of a cycle at which the processor range checks an offset. -/
def rangeCheckRows : List Nat := [dstOffset, op1Offset, op0Offset].map (·.offset)

/-- The tails of the flags, one on each row. -/
def flagTails : VirtualColumn := ⟨Column.flags, 1, 0⟩

/-- A flag of the current cycle: its tail less twice the next one. -/
def flag (f : Flag) : Term :=
  let cell (k : Nat) : Term := .leaf (.cell Column.flags k)
  cell f.position - (cell (f.position + 1) + cell (f.position + 1))

/-! ## Constraints -/

/-- One if the second operand is found through the first. -/
def op1FromOp0 : Term := 1 - (flag .op1Imm + flag .op1Ap + flag .op1Fp)

/-- One if the result is the second operand. The result of a conditional jump is another. -/
def resIsOp1 : Term := 1 - (flag .resAdd + flag .resMul + flag .pcJnz)

/-- One if the next instruction follows. -/
def pcIsRegular : Term := 1 - (flag .pcJumpAbs + flag .pcJumpRel + flag .pcJnz)

/-- One if the frame pointer stays. -/
def fpIsRegular : Term := 1 - (flag .opcodeCall + flag .opcodeRet)

/-- The address after the instruction. -/
def followingPc : Term := pc.current + flag .op1Imm + 1

/-- A flag as it is read row by row. -/
def rowFlag : Term := flagTails.current - flagTails.next * 2

def every : Rows := .every cycleHeight 0

def lastCycle : Rows := .fromEnd cycleHeight

/-- The row of a cycle above its flags. -/
def zeroRow : Rows := .every cycleHeight Flag.zero.position

open Term (pow2 booleanity)

/-- The flags are digits and the instruction is made of them and of its offsets. -/
def decodeConstraints : List Constraint := [
  { name := "cpu/decode/opcode_rc/bit", expr := booleanity rowFlag, domain := .all
    exclusions := [zeroRow] },
  { name := "cpu/decode/opcode_rc/zero", expr := flagTails.current, domain := zeroRow },
  { name := "cpu/decode/opcode_rc_input"
    expr := instruction.current -
      (((flagTails.current * pow2 16 + op1Offset.current) * pow2 16 + op0Offset.current) * pow2 16
        + dstOffset.current)
    domain := every },
  { name := "cpu/decode/flag_op1_base_op0_bit", expr := booleanity op1FromOp0, domain := every },
  { name := "cpu/decode/flag_res_op1_bit", expr := booleanity resIsOp1, domain := every },
  { name := "cpu/decode/flag_pc_update_regular_bit", expr := booleanity pcIsRegular
    domain := every },
  { name := "cpu/decode/fp_update_regular_bit", expr := booleanity fpIsRegular
    domain := every }]

/-- The operands are at their addresses, and the result is computed from them. -/
def operandConstraints : List Constraint := [
  { name := "cpu/operands/mem_dst_addr"
    expr := dstAddress.current + pow2 15 -
      (flag .dstReg * fp.current + (1 - flag .dstReg) * ap.current + dstOffset.current)
    domain := every },
  { name := "cpu/operands/mem0_addr"
    expr := op0Address.current + pow2 15 -
      (flag .op0Reg * fp.current + (1 - flag .op0Reg) * ap.current + op0Offset.current)
    domain := every },
  { name := "cpu/operands/mem1_addr"
    expr := op1Address.current + pow2 15 -
      (flag .op1Imm * pc.current + flag .op1Ap * ap.current + flag .op1Fp * fp.current +
        op1FromOp0 * op0.current + op1Offset.current)
    domain := every },
  { name := "cpu/operands/ops_mul", expr := product.current - op0.current * op1.current
    domain := every },
  { name := "cpu/operands/res"
    expr := (1 - flag .pcJnz) * res.current -
      (flag .resAdd * (op0.current + op1.current) + flag .resMul * product.current +
        resIsOp1 * op1.current)
    domain := every }]

/-- The registers of the next cycle follow from those of this one. A conditional jump is taken
when `tmp0`, the destination, is not zero; `tmp1` is then one. -/
def updateConstraints : List Constraint := [
  { name := "cpu/update_registers/update_pc/tmp0", expr := tmp0.current - flag .pcJnz * dst.current
    domain := every, exclusions := [lastCycle] },
  { name := "cpu/update_registers/update_pc/tmp1", expr := tmp1.current - tmp0.current * res.current
    domain := every, exclusions := [lastCycle] },
  { name := "cpu/update_registers/update_pc/pc_cond_negative"
    expr := (1 - flag .pcJnz) * pc.next + tmp0.current * (pc.next - (pc.current + op1.current)) -
      (pcIsRegular * followingPc + flag .pcJumpAbs * res.current +
        flag .pcJumpRel * (pc.current + res.current))
    domain := every, exclusions := [lastCycle] },
  { name := "cpu/update_registers/update_pc/pc_cond_positive"
    expr := (tmp1.current - flag .pcJnz) * (pc.next - followingPc)
    domain := every, exclusions := [lastCycle] },
  { name := "cpu/update_registers/update_ap/ap_update"
    expr := ap.next -
      (ap.current + flag .apAdd * res.current + flag .apAdd1 + flag .opcodeCall * 2)
    domain := every, exclusions := [lastCycle] },
  { name := "cpu/update_registers/update_fp/fp_update"
    expr := fp.next -
      (fpIsRegular * fp.current + flag .opcodeRet * dst.current +
        flag .opcodeCall * (ap.current + 2))
    domain := every, exclusions := [lastCycle] }]

/-- A call pushes the frame pointer and the address after it, a return undoes a call, and an
assertion compares the destination with the result. -/
def opcodeConstraints : List Constraint := [
  { name := "cpu/opcodes/call/push_fp", expr := flag .opcodeCall * (dst.current - fp.current)
    domain := every },
  { name := "cpu/opcodes/call/push_pc"
    expr := flag .opcodeCall * (op0.current - (pc.current + flag .op1Imm + 1)), domain := every },
  { name := "cpu/opcodes/call/off0", expr := flag .opcodeCall * (dstOffset.current - pow2 15)
    domain := every },
  { name := "cpu/opcodes/call/off1"
    expr := flag .opcodeCall * (op0Offset.current - (pow2 15 + 1)), domain := every },
  { name := "cpu/opcodes/call/flags"
    expr := flag .opcodeCall *
      (flag .opcodeCall + flag .opcodeCall + 1 + 1 - (flag .dstReg + flag .op0Reg + 4))
    domain := every },
  { name := "cpu/opcodes/ret/off0", expr := flag .opcodeRet * (dstOffset.current + 2 - pow2 15)
    domain := every },
  { name := "cpu/opcodes/ret/off2", expr := flag .opcodeRet * (op1Offset.current + 1 - pow2 15)
    domain := every },
  { name := "cpu/opcodes/ret/flags"
    expr := flag .opcodeRet *
      (flag .pcJumpAbs + flag .dstReg + flag .op1Fp + resIsOp1 - 4)
    domain := every },
  { name := "cpu/opcodes/assert_eq/assert_eq"
    expr := flag .opcodeAssertEq * (dst.current - res.current), domain := every }]

/-- The registers start and end as the public input says. -/
def boundaryConstraints : List Constraint := [
  { name := "initial_ap", expr := ap.current - Hint.initialAp.term, domain := .first 0 },
  { name := "initial_fp", expr := fp.current - Hint.initialAp.term, domain := .first 0 },
  { name := "initial_pc", expr := pc.current - Hint.initialPc.term, domain := .first 0 },
  { name := "final_ap", expr := ap.current - Hint.finalAp.term, domain := lastCycle },
  { name := "final_fp", expr := fp.current - Hint.initialAp.term, domain := lastCycle },
  { name := "final_pc", expr := pc.current - Hint.finalPc.term, domain := lastCycle }]

def constraints : List Constraint :=
  decodeConstraints ++ operandConstraints ++ updateConstraints ++ opcodeConstraints ++
    boundaryConstraints

/-! ## Filling -/

/-- The values of a cycle. -/
structure Step where
  word : Word
  pc : Nat
  op0Address : Nat
  op0 : Felt
  dstAddress : Nat
  dst : Felt
  op1Address : Nat
  op1 : Felt
  ap : Nat
  fp : Nat
  res : Felt
  tmp0 : Felt
  tmp1 : Felt
deriving DecidableEq

/-- An address of at most 32 digits. -/
def narrow (address : Nat) : Except LayoutError Nat :=
  if address < 1 <<< 32 then .ok address else .error (.invalidAddress address)

/-- The values of the cycle that starts with given registers. -/
def Step.ofRegisters (m : Memory) (r : Registers) : Except LayoutError Step := do
  let lift {α : Type} (x : Except InputError α) : Except LayoutError α := x.mapError .input
  let word ← lift (m.get r.pc)
  let i : Instruction := ⟨word, r⟩
  return {
    word
    pc := ← narrow r.pc
    op0Address := ← narrow (← lift i.op0Address)
    op0 := ← lift (i.op0 m)
    dstAddress := ← narrow (← lift i.dstAddress)
    dst := ← lift (i.dst m)
    op1Address := ← narrow (← lift (i.op1Address m))
    op1 := ← lift (i.op1 m)
    ap := ← narrow r.ap
    fp := ← narrow r.fp
    res := ← lift (i.res m)
    tmp0 := ← lift (i.tmp0 m)
    tmp1 := ← lift (i.tmp1 m) }

/-- The writes of cycle `i`. -/
def Step.writes (s : Step) (i : Nat) : List Write :=
  let memory (address : VirtualColumn) (a : Nat) (v : Felt) : Write := .memory (address.row i) a v
  let check (offset : VirtualColumn) (v : Nat) : Write := .rangeCheck (offset.row i) v
  Flag.all.map (fun f =>
    .cell Column.flags (i * cycleHeight + f.position) (.ofNat (s.word.flagTail f))) ++
  [memory Cpu.pc s.pc (.ofNat s.word),
    memory Cpu.op0Address s.op0Address s.op0,
    memory Cpu.dstAddress s.dstAddress s.dst,
    memory Cpu.op1Address s.op1Address s.op1,
    check dstOffset s.word.dstOffset,
    check op1Offset s.word.op1Offset,
    check op0Offset s.word.op0Offset,
    .at' Cpu.ap i (.ofNat s.ap),
    .at' Cpu.tmp0 i s.tmp0,
    .at' product i (s.op0 * s.op1),
    .at' Cpu.fp i (.ofNat s.fp),
    .at' Cpu.tmp1 i s.tmp1,
    .at' Cpu.res i s.res]

/-- The writes of an execution. All steps are executed before the first write. -/
def writes (m : Memory) (registers : List Registers) : List Write :=
  match registers.mapM (Step.ofRegisters m) with
  | .ok steps => steps.zipIdx.flatMap fun (s, i) => s.writes i
  | .error e => [.refuse e]

end Cpu

end CairoTrace
