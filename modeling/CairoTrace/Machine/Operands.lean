import CairoTrace.Machine.Memory

/-!
# Operands of an instruction

The addresses and values that an instruction works on: its destination, its two operands, its
result, and the two products that decide a conditional jump. The second operand may be found
through the first, and the result of a conditional jump is the inverse of the destination.
-/

namespace CairoTrace

structure Registers where
  ap : Nat
  fp : Nat
  pc : Nat
deriving DecidableEq, Repr

/-- What the operands of an instruction are computed from. -/
structure Instruction where
  word : Word
  registers : Registers

namespace Instruction

/-- The address at a biased offset from `base`. -/
def addressAt (i : Instruction) (base offset : Nat) : Except InputError Nat :=
  if offsetBias ≤ base + offset then .ok (base + offset - offsetBias)
  else .error (.addressOverflow i.registers.pc)

def dstAddress (i : Instruction) : Except InputError Nat :=
  i.addressAt (if i.word.flag .dstReg then i.registers.fp else i.registers.ap) i.word.dstOffset

def op0Address (i : Instruction) : Except InputError Nat :=
  i.addressAt (if i.word.flag .op0Reg then i.registers.fp else i.registers.ap) i.word.op0Offset

/-- What the second operand is addressed from: the first operand, `pc`, `fp` or `ap`. -/
def op1Base (i : Instruction) (m : Memory) : Except InputError Nat := do
  match i.word.group .op1Src with
  | 0 =>
    let op0 ← m.get (← i.op0Address)
    if op0 < 1 <<< 64 then return op0 else throw (.addressOverflow i.registers.pc)
  | 1 => return i.registers.pc
  | 2 => return i.registers.fp
  | 4 => return i.registers.ap
  | _ => throw (.invalidInstruction i.registers.pc .op1Src)

def op1Address (i : Instruction) (m : Memory) : Except InputError Nat := do
  i.addressAt (← i.op1Base m) i.word.op1Offset

def load (m : Memory) (address : Nat) : Except InputError Felt := return .ofNat (← m.get address)

def dst (i : Instruction) (m : Memory) : Except InputError Felt := do load m (← i.dstAddress)

def op0 (i : Instruction) (m : Memory) : Except InputError Felt := do load m (← i.op0Address)

def op1 (i : Instruction) (m : Memory) : Except InputError Felt := do load m (← i.op1Address m)

/-- The result. A conditional jump computes nothing from its operands, and its result is the
inverse of the destination, or zero. -/
def res (i : Instruction) (m : Memory) : Except InputError Felt := do
  let invalid (group : FlagGroup) : InputError := .invalidInstruction i.registers.pc group
  match i.word.group .pcUpdate with
  | 4 =>
    if i.word.group .resLogic = 0 ∧ i.word.group .opcode = 0 ∧ i.word.group .apUpdate ≠ 1 then
      return (← i.dst m)⁻¹
    else throw (invalid .pcUpdate)
  | 0 | 1 | 2 =>
    let op0 ← i.op0 m
    let op1 ← i.op1 m
    match i.word.group .resLogic with
    | 0 => return op1
    | 1 => return op0 + op1
    | 2 => return op0 * op1
    | _ => throw (invalid .resLogic)
  | _ => throw (invalid .pcUpdate)

/-- The destination of a conditional jump, and zero for any other instruction. -/
def tmp0 (i : Instruction) (m : Memory) : Except InputError Felt :=
  if i.word.flag .pcJnz then i.dst m else .ok 0

def tmp1 (i : Instruction) (m : Memory) : Except InputError Felt :=
  return (← i.tmp0 m) * (← i.res m)

end Instruction

end CairoTrace
