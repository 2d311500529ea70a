/-!
# Instruction words

An instruction is a word of 63 binary digits: three offsets of sixteen digits each, for the
destination and the two operands, and above them fifteen flags. Offsets are biased by `2^15`. The
flags fall into groups, and the value of a group is the number that its flags write, the first
flag being the lowest digit.

In a trace the flags of an instruction are held as *tails*: tail `k` is the number written by the
flags from `k` on, so that flag `k` is tail `k` less twice tail `k + 1`. The sixteenth tail is zero.
-/

namespace CairoTrace

/-- A number below `2 ^ 256`, as it is stored in memory. -/
abbrev Word := Nat

/-- A flag of an instruction; `zero` stands for the digit above all flags. -/
inductive Flag
  | dstReg | op0Reg
  | op1Imm | op1Fp | op1Ap
  | resAdd | resMul
  | pcJumpAbs | pcJumpRel | pcJnz
  | apAdd | apAdd1
  | opcodeCall | opcodeRet | opcodeAssertEq
  | zero
deriving DecidableEq, Repr

/-- Flags that decide one thing between them. -/
inductive FlagGroup
  | dstReg | op0Reg | op1Src | resLogic | pcUpdate | apUpdate | opcode
deriving DecidableEq, Repr

namespace Flag

/-- The flags from the lowest digit up. -/
def all : List Flag :=
  [dstReg, op0Reg, op1Imm, op1Fp, op1Ap, resAdd, resMul, pcJumpAbs, pcJumpRel, pcJnz, apAdd,
    apAdd1, opcodeCall, opcodeRet, opcodeAssertEq, zero]

def position : Flag → Nat
  | dstReg => 0
  | op0Reg => 1
  | op1Imm => 2
  | op1Fp => 3
  | op1Ap => 4
  | resAdd => 5
  | resMul => 6
  | pcJumpAbs => 7
  | pcJumpRel => 8
  | pcJnz => 9
  | apAdd => 10
  | apAdd1 => 11
  | opcodeCall => 12
  | opcodeRet => 13
  | opcodeAssertEq => 14
  | zero => 15

end Flag

namespace FlagGroup

/-- The flags of a group, the lowest digit first. -/
def flags : FlagGroup → List Flag
  | dstReg => [.dstReg]
  | op0Reg => [.op0Reg]
  | op1Src => [.op1Imm, .op1Fp, .op1Ap]
  | resLogic => [.resAdd, .resMul]
  | pcUpdate => [.pcJumpAbs, .pcJumpRel, .pcJnz]
  | apUpdate => [.apAdd, .apAdd1]
  | opcode => [.opcodeCall, .opcodeRet, .opcodeAssertEq]

def name : FlagGroup → String
  | dstReg => "DstReg"
  | op0Reg => "Op0Reg"
  | op1Src => "Op1Src"
  | resLogic => "ResLogic"
  | pcUpdate => "PcUpdate"
  | apUpdate => "ApUpdate"
  | opcode => "Opcode"

end FlagGroup

def offsetBits : Nat := 16

/-- What an offset is biased by. -/
def offsetBias : Nat := 1 <<< 15

def flagCount : Nat := 16

/-- The lowest digit of the flags in a word. -/
def flagsBit : Nat := 48

namespace Word

/-- The number that the flags of a word write from `f` on. -/
def flagTail (w : Word) (f : Flag) : Nat :=
  w >>> (flagsBit + f.position) % (1 <<< (15 - f.position))

def flag (w : Word) (f : Flag) : Bool := w.testBit (flagsBit + f.position)

def group (w : Word) (g : FlagGroup) : Nat :=
  g.flags.foldr (fun f higher => (w.flag f).toNat + 2 * higher) 0

def dstOffset (w : Word) : Nat := w % (1 <<< offsetBits)

def op0Offset (w : Word) : Nat := w >>> offsetBits % (1 <<< offsetBits)

def op1Offset (w : Word) : Nat := w >>> (2 * offsetBits) % (1 <<< offsetBits)

/-- The words that an instruction takes: an immediate operand follows it. -/
def size (w : Word) : Nat := if w.flag .op1Imm then 2 else 1

end Word

end CairoTrace
