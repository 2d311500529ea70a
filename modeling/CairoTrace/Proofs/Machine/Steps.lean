import CairoTrace.Component.Cpu
import CairoTrace.Proofs.Machine.Operands

/-!
# Steps of the processor

A step that is computed from registers starts with them and has the operands that its instruction
finds in memory (`Step.of_ofRegisters`). What these are in the field follows for each value that a
group of its flags may have (`Step.IsExecuted.exists_op1Base`, `Step.IsExecuted.res_cases`).
-/

namespace CairoTrace

namespace Cpu

open Result (bind_eq_ok_iff mapError_eq_ok_iff)

theorem narrow_eq_ok {address a : Nat} (h : narrow address = .ok a) : a = address := by
  rw [narrow] at h
  split at h
  case isTrue => exact (Except.ok.inj h).symm
  case isFalse => cases h

namespace Step

variable {m : Memory} {r : Registers}

/-- The registers that a step starts with. -/
def registers (s : Step) : Registers := ⟨s.ap, s.fp, s.pc⟩

def instruction (s : Step) : Instruction := ⟨s.word, s.registers⟩

/-- The next value of `pc`. A conditional jump is taken unless the destination is zero. -/
def nextPc (s : Step) : Felt :=
  match s.word.group .pcUpdate with
  | 1 => s.res
  | 2 => s.pc + s.res
  | 4 => if s.dst = 0 then s.pc + s.word.size else s.pc + s.op1
  | _ => s.pc + s.word.size

def nextAp (s : Step) : Felt :=
  s.ap + (if s.word.flag .apAdd then s.res else 0) + (if s.word.flag .apAdd1 then 1 else 0) +
    if s.word.flag .opcodeCall then .ofNat 2 else 0

def nextFp (s : Step) : Felt :=
  if s.word.flag .opcodeCall then s.ap + .ofNat 2
  else if s.word.flag .opcodeRet then s.dst
  else s.fp

/-- Whether a step has the operands that its instruction finds in memory. -/
structure IsExecuted (m : Memory) (s : Step) : Prop where
  op0Address : s.instruction.op0Address = .ok s.op0Address
  op0 : s.instruction.op0 m = .ok s.op0
  dstAddress : s.instruction.dstAddress = .ok s.dstAddress
  dst : s.instruction.dst m = .ok s.dst
  op1Address : s.instruction.op1Address m = .ok s.op1Address
  op1 : s.instruction.op1 m = .ok s.op1
  res : s.instruction.res m = .ok s.res
  tmp0 : s.instruction.tmp0 m = .ok s.tmp0
  tmp1 : s.instruction.tmp1 m = .ok s.tmp1

theorem of_ofRegisters {s : Step} (h : ofRegisters m r = .ok s) :
    s.registers = r ∧ s.IsExecuted m := by
  simp only [ofRegisters, bind_eq_ok_iff, mapError_eq_ok_iff] at h
  obtain ⟨word, hword, pc, hpc, _, hop0Address, op0Address, hn, op0, hop0, h⟩ := h
  obtain ⟨_, hdstAddress, dstAddress, hn', dst, hdst, h⟩ := h
  obtain ⟨_, hop1Address, op1Address, hn'', op1, hop1, ap, hap, fp, hfp, h⟩ := h
  obtain ⟨res, hres, tmp0, htmp0, tmp1, htmp1, h⟩ := h
  obtain rfl := Except.ok.inj h
  obtain rfl := narrow_eq_ok hpc
  obtain rfl := narrow_eq_ok hn
  obtain rfl := narrow_eq_ok hn'
  obtain rfl := narrow_eq_ok hn''
  obtain rfl := narrow_eq_ok hap
  obtain rfl := narrow_eq_ok hfp
  exact ⟨rfl, hop0Address, hop0, hdstAddress, hdst, hop1Address, hop1, hres, htmp0, htmp1⟩

namespace IsExecuted

variable {s : Step} (hs : s.IsExecuted m)
include hs

theorem natCast_dstAddress : (s.dstAddress : Felt) + 2 ^ 15 =
    (if s.word.flag .dstReg then s.fp else s.ap : Nat) + s.word.dstOffset :=
  Instruction.natCast_of_addressAt hs.dstAddress

theorem natCast_op0Address : (s.op0Address : Felt) + 2 ^ 15 =
    (if s.word.flag .op0Reg then s.fp else s.ap : Nat) + s.word.op0Offset :=
  Instruction.natCast_of_addressAt hs.op0Address

/-- The base of the second operand, by the value of its group of flags. -/
theorem exists_op1Base : ∃ base : Felt, s.op1Address + 2 ^ 15 = base + s.word.op1Offset ∧
    (s.word.group .op1Src = 0 ∧ base = s.op0 ∨ s.word.group .op1Src = 1 ∧ base = s.pc ∨
      s.word.group .op1Src = 2 ∧ base = s.fp ∨ s.word.group .op1Src = 4 ∧ base = s.ap) := by
  obtain ⟨base, hbase, haddress⟩ := bind_eq_ok_iff.mp hs.op1Address
  refine ⟨base, Instruction.natCast_of_addressAt haddress, ?_⟩
  rcases Instruction.op1Base_eq_ok hbase with ⟨hgroup, hop0⟩ | ⟨hgroup, rfl⟩ | ⟨hgroup, rfl⟩ |
    ⟨hgroup, rfl⟩
  · exact Or.inl ⟨hgroup, Except.ok.inj (hop0.symm.trans hs.op0)⟩
  · exact Or.inr (Or.inl ⟨hgroup, rfl⟩)
  · exact Or.inr (Or.inr (Or.inl ⟨hgroup, rfl⟩))
  · exact Or.inr (Or.inr (Or.inr ⟨hgroup, rfl⟩))

/-- The result, by the values of the groups that decide it. -/
theorem res_cases :
    s.word.group .pcUpdate = 4 ∧ s.word.group .resLogic = 0 ∧ s.res = s.dst⁻¹ ∨
    (s.word.group .pcUpdate = 0 ∨ s.word.group .pcUpdate = 1 ∨ s.word.group .pcUpdate = 2) ∧
      (s.word.group .resLogic = 0 ∧ s.res = s.op1 ∨
        s.word.group .resLogic = 1 ∧ s.res = s.op0 + s.op1 ∨
        s.word.group .resLogic = 2 ∧ s.res = s.op0 * s.op1) := by
  rcases Instruction.res_eq_ok hs.res with ⟨hgroup, hlogic, dst, hdst, hres⟩ |
    ⟨hgroup, op0, op1, hop0, hop1, hres⟩
  · obtain rfl := Except.ok.inj (hs.dst.symm.trans hdst)
    exact Or.inl ⟨hgroup, hlogic, hres⟩
  · obtain rfl := Except.ok.inj (hs.op0.symm.trans hop0)
    obtain rfl := Except.ok.inj (hs.op1.symm.trans hop1)
    exact Or.inr ⟨hgroup, hres⟩

theorem tmp0_eq : s.tmp0 = if s.word.flag .pcJnz then s.dst else 0 := by
  have htmp0 := hs.tmp0
  rw [Instruction.tmp0, hs.dst, ← apply_ite Except.ok] at htmp0
  exact (Except.ok.inj htmp0).symm

theorem tmp1_eq : s.tmp1 = s.tmp0 * s.res := by
  have htmp1 := hs.tmp1
  rw [Instruction.tmp1, hs.tmp0, hs.res] at htmp1
  exact (Except.ok.inj htmp1).symm

end IsExecuted

end Step

end Cpu

end CairoTrace
