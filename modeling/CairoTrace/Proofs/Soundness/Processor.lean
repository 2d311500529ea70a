import CairoTrace.Proofs.Component.CycleRows

/-!
# Soundness of a step of the processor

A cycle on which the processor's constraints hold executes an instruction, whatever its cells hold
(`executes_of_holdOnCycle`). Its flags are digits, and those of a group exclude each other
(`exclusive_of_sum`), so that a choice by the flags of a group is the sum that an equation has for
it (`Exclusive.ite_eq_add`). A conditional jump has two equations for its target: one forces the
jump unless the destination is zero, and the other one forces the next instruction if it is, as no
result is an inverse of it then.
-/

namespace CairoTrace

namespace Cpu

namespace Cycle

variable (c d : Cycle)

/-! ## The step function -/

def IsSet (f : Flag) : Prop := c.flag f = 1

instance (f : Flag) : Decidable (c.IsSet f) := inferInstanceAs (Decidable (_ = _))

def AtMostOne (fs : List Flag) : Prop := ∀ f ∈ fs, ∀ g ∈ fs, c.IsSet f → c.IsSet g → f = g

/-- The words that the instruction takes. -/
def size : Felt := 1 + c.flag .op1Imm

def dstBase : Felt := if c.IsSet .dstReg then c.fp else c.ap

def op0Base : Felt := if c.IsSet .op0Reg then c.fp else c.ap

def op1Base : Felt :=
  if c.IsSet .op1Imm then c.pc
  else if c.IsSet .op1Ap then c.ap
  else if c.IsSet .op1Fp then c.fp
  else c.op0

/-- What the instruction computes from its operands. -/
def result : Felt :=
  if c.IsSet .resAdd then c.op0 + c.op1
  else if c.IsSet .resMul then c.op0 * c.op1
  else c.op1

def nextPc : Felt :=
  if c.IsSet .pcJumpAbs then c.res
  else if c.IsSet .pcJumpRel then c.pc + c.res
  else if c.IsSet .pcJnz then if c.dst = 0 then c.pc + c.size else c.pc + c.op1
  else c.pc + c.size

def nextAp : Felt :=
  c.ap + (if c.IsSet .apAdd then c.res else 0) + (if c.IsSet .apAdd1 then 1 else 0) +
    if c.IsSet .opcodeCall then .ofNat 2 else 0

def nextFp : Felt :=
  if c.IsSet .opcodeCall then c.ap + .ofNat 2
  else if c.IsSet .opcodeRet then c.dst
  else c.fp

/-- Whether a cycle executes its instruction and `d` has the registers after it. -/
structure Executes : Prop where
  flag_bit : ∀ f, f ≠ .zero → c.flag f = 0 ∨ c.flag f = 1
  tail_zero : c.tail Flag.zero.position = 0
  op1Source : c.AtMostOne [.op1Imm, .op1Ap, .op1Fp]
  resLogic : c.AtMostOne [.resAdd, .resMul, .pcJnz]
  pcUpdate : c.AtMostOne [.pcJumpAbs, .pcJumpRel, .pcJnz]
  opcode : c.AtMostOne [.opcodeCall, .opcodeRet]
  dstAddress : c.dstAddress = c.dstBase + c.dstOffset - 2 ^ 15
  op0Address : c.op0Address = c.op0Base + c.op0Offset - 2 ^ 15
  op1Address : c.op1Address = c.op1Base + c.op1Offset - 2 ^ 15
  res : ¬ c.IsSet .pcJnz → c.res = c.result
  pc : d.pc = c.nextPc
  ap : d.ap = c.nextAp
  fp : d.fp = c.nextFp
  call : c.IsSet .opcodeCall → c.dst = c.fp ∧ c.op0 = c.pc + c.size
  assertEq : c.IsSet .opcodeAssertEq → c.dst = c.res

variable {c d}

/-! ## Flags -/

section Flags

variable {f g k : Flag} {x y z w : Felt}

theorem not_isSet_of_eq_zero (h : c.flag f = 0) : ¬ c.IsSet f := by
  unfold IsSet
  rw [h]
  exact zero_ne_one

theorem ite_of_eq_zero (h : c.flag f = 0) : (if c.IsSet f then x else y) = y :=
  if_neg (not_isSet_of_eq_zero h)

theorem ite_of_eq_one (h : c.flag f = 1) : (if c.IsSet f then x else y) = x := if_pos h

/-- A choice by a flag is a sum, in which the flag and its complement are the weights. -/
theorem ite_eq_add (h : c.flag f = 0 ∨ c.flag f = 1) :
    (if c.IsSet f then x else y) = c.flag f * x + (1 - c.flag f) * y := by
  rcases h with h | h
  · rw [ite_of_eq_zero h, h]
    ring
  · rw [ite_of_eq_one h, h]
    ring

theorem atMostOne_of_pairwise {fs : List Flag}
    (h : fs.Pairwise fun f g => c.IsSet f → ¬ c.IsSet g) : c.AtMostOne fs := by
  have hsymm : Std.Symm fun f g => c.IsSet f → ¬ c.IsSet g :=
    ⟨fun _ _ himp hset hset' => himp hset' hset⟩
  intro f hf g hg hfset hgset
  by_contra hne
  exact h.forall hf hg hne hfset hgset

/-- Whether three elements are zero, but for one of them at most, which is one. -/
def Exclusive (x y z : Felt) : Prop :=
  x = 0 ∧ y = 0 ∧ z = 0 ∨ x = 1 ∧ y = 0 ∧ z = 0 ∨ x = 0 ∧ y = 1 ∧ z = 0 ∨ x = 0 ∧ y = 0 ∧ z = 1

instance (x y z : Felt) : Decidable (Exclusive x y z) := inferInstanceAs (Decidable (_ ∨ _))

/-- Digits exclude each other if one less their sum is a digit, too. -/
theorem exclusive_of_sum (hx : x = 0 ∨ x = 1) (hy : y = 0 ∨ y = 1) (hz : z = 0 ∨ z = 1)
    (h : 1 - (x + y + z) = 0 ∨ 1 - (x + y + z) = 1) : Exclusive x y z := by
  rcases hx with rfl | rfl <;> rcases hy with rfl | rfl <;> rcases hz with rfl | rfl <;>
    revert h <;> decide

namespace Exclusive

theorem of_first (h : Exclusive x y z) (hx : x = 1) : y = 0 ∧ z = 0 := by
  rcases h with ⟨h, -⟩ | ⟨-, h⟩ | ⟨h, -⟩ | ⟨h, -⟩
  · exact absurd (h.symm.trans hx) zero_ne_one
  · exact h
  · exact absurd (h.symm.trans hx) zero_ne_one
  · exact absurd (h.symm.trans hx) zero_ne_one

theorem of_third (h : Exclusive x y z) (hz : z = 1) : x = 0 ∧ y = 0 := by
  rcases h with ⟨-, -, h⟩ | ⟨-, -, h⟩ | ⟨-, -, h⟩ | ⟨hx, hy, -⟩
  · exact absurd (h.symm.trans hz) zero_ne_one
  · exact absurd (h.symm.trans hz) zero_ne_one
  · exact absurd (h.symm.trans hz) zero_ne_one
  · exact ⟨hx, hy⟩

theorem atMostOne_pair (h : Exclusive (c.flag f) (c.flag g) z) : c.AtMostOne [f, g] := by
  apply atMostOne_of_pairwise
  rw [List.pairwise_pair]
  intro hf
  exact not_isSet_of_eq_zero (h.of_first hf).1

theorem atMostOne (h : Exclusive (c.flag f) (c.flag g) (c.flag k)) : c.AtMostOne [f, g, k] := by
  apply atMostOne_of_pairwise
  simp only [List.pairwise_cons, List.mem_cons, List.not_mem_nil, or_false, forall_eq_or_imp,
    forall_eq, false_implies, implies_true, List.Pairwise.nil, and_true]
  refine ⟨⟨?_, ?_⟩, ?_⟩
  · intro hf
    exact not_isSet_of_eq_zero (h.of_first hf).1
  · intro hf
    exact not_isSet_of_eq_zero (h.of_first hf).2
  · intro hg hk
    exact not_isSet_of_eq_zero (h.of_third hk).2 hg

/-- A choice by two flags that exclude each other is a sum, too. -/
theorem ite_pair_eq_add (h : Exclusive (c.flag f) (c.flag g) z) :
    (if c.IsSet f then x else if c.IsSet g then y else w) =
      c.flag f * x + c.flag g * y + (1 - (c.flag f + c.flag g)) * w := by
  rcases h with ⟨hf, hg, -⟩ | ⟨hf, hg, -⟩ | ⟨hf, hg, -⟩ | ⟨hf, hg, -⟩
  · rw [ite_of_eq_zero hf, ite_of_eq_zero hg, hf, hg]
    ring
  · rw [ite_of_eq_one hf, hf, hg]
    ring
  · rw [ite_of_eq_zero hf, ite_of_eq_one hg, hf, hg]
    ring
  · rw [ite_of_eq_zero hf, ite_of_eq_zero hg, hf, hg]
    ring

theorem ite_eq_add (h : Exclusive (c.flag f) (c.flag g) (c.flag k)) :
    (if c.IsSet f then x else if c.IsSet g then y else if c.IsSet k then z else w) =
      c.flag f * x + c.flag g * y + c.flag k * z +
        (1 - (c.flag f + c.flag g + c.flag k)) * w := by
  rw [h.ite_pair_eq_add]
  rcases h with ⟨hf, hg, hk⟩ | ⟨hf, hg, hk⟩ | ⟨hf, hg, hk⟩ | ⟨hf, hg, hk⟩
  · rw [ite_of_eq_zero hk, hf, hg, hk]
    ring
  · rw [hf, hg, hk]
    ring
  · rw [hf, hg, hk]
    ring
  · rw [ite_of_eq_one hk, hf, hg, hk]
    ring

end Exclusive

end Flags

namespace Decodes

variable (h : c.Decodes)
include h

theorem op1Source : Exclusive (c.flag .op1Imm) (c.flag .op1Ap) (c.flag .op1Fp) :=
  exclusive_of_sum (h.flag_bit .op1Imm nofun) (h.flag_bit .op1Ap nofun) (h.flag_bit .op1Fp nofun)
    h.op1FromOp0_bit

theorem resLogic : Exclusive (c.flag .resAdd) (c.flag .resMul) (c.flag .pcJnz) :=
  exclusive_of_sum (h.flag_bit .resAdd nofun) (h.flag_bit .resMul nofun) (h.flag_bit .pcJnz nofun)
    h.resIsOp1_bit

theorem pcUpdate : Exclusive (c.flag .pcJumpAbs) (c.flag .pcJumpRel) (c.flag .pcJnz) :=
  exclusive_of_sum (h.flag_bit .pcJumpAbs nofun) (h.flag_bit .pcJumpRel nofun)
    (h.flag_bit .pcJnz nofun) h.pcIsRegular_bit

theorem opcode : Exclusive (c.flag .opcodeCall) (c.flag .opcodeRet) 0 := by
  have hsum := h.fpIsRegular_bit
  unfold fpIsRegular at hsum
  rw [← add_zero (c.flag .opcodeCall + c.flag .opcodeRet)] at hsum
  exact exclusive_of_sum (h.flag_bit .opcodeCall nofun) (h.flag_bit .opcodeRet nofun)
    (Or.inl rfl) hsum

/-! ## Registers that an instruction leads to -/

theorem nextPc_of_jnz (hjnz : c.flag .pcJnz = 1) :
    c.nextPc = if c.dst = 0 then c.pc + c.size else c.pc + c.op1 := by
  obtain ⟨habs, hrel⟩ := h.pcUpdate.of_third hjnz
  rw [nextPc, ite_of_eq_zero habs, ite_of_eq_zero hrel, ite_of_eq_one hjnz]

theorem nextPc_of_not_jnz (hjnz : c.flag .pcJnz = 0) :
    c.nextPc = c.pcIsRegular * c.followingPc + c.flag .pcJumpAbs * c.res +
      c.flag .pcJumpRel * (c.pc + c.res) := by
  rw [nextPc, h.pcUpdate.ite_eq_add, pcIsRegular, followingPc, size, hjnz]
  ring

theorem nextAp_eq :
    c.nextAp = c.ap + c.flag .apAdd * c.res + c.flag .apAdd1 + c.flag .opcodeCall * 2 := by
  have htwo : (.ofNat 2 : Felt) = 2 := rfl
  rw [nextAp, htwo, ite_eq_add (h.flag_bit .apAdd nofun), ite_eq_add (h.flag_bit .apAdd1 nofun),
    ite_eq_add (h.flag_bit .opcodeCall nofun)]
  ring

theorem nextFp_eq : c.nextFp = c.fpIsRegular * c.fp + c.flag .opcodeRet * c.dst +
    c.flag .opcodeCall * (c.ap + 2) := by
  have htwo : (.ofNat 2 : Felt) = 2 := rfl
  rw [nextFp, htwo, h.opcode.ite_pair_eq_add, fpIsRegular]
  ring

end Decodes

/-! ## Operands -/

namespace Operates

variable (h : c.Operates) (hd : c.Decodes)
include h hd

theorem dstAddress_eq : c.dstAddress = c.dstBase + c.dstOffset - 2 ^ 15 := by
  rw [dstBase, ite_eq_add (hd.flag_bit .dstReg nofun), ← h.dstAddress, add_sub_cancel_right]

theorem op0Address_eq : c.op0Address = c.op0Base + c.op0Offset - 2 ^ 15 := by
  rw [op0Base, ite_eq_add (hd.flag_bit .op0Reg nofun), ← h.op0Address, add_sub_cancel_right]

theorem op1Address_eq : c.op1Address = c.op1Base + c.op1Offset - 2 ^ 15 := by
  have heq := h.op1Address
  unfold op1FromOp0 at heq
  rw [op1Base, hd.op1Source.ite_eq_add, ← heq, add_sub_cancel_right]

/-- A conditional jump has no result of its operands. -/
theorem res_eq (hjnz : ¬ c.IsSet .pcJnz) : c.res = c.result := by
  have hflag : c.flag .pcJnz = 0 := (hd.flag_bit .pcJnz nofun).resolve_right hjnz
  have heq := h.res
  unfold resIsOp1 at heq
  rw [h.product, hflag] at heq
  rw [result, hd.resLogic.ite_pair_eq_add]
  linear_combination heq

end Operates

/-! ## Registers -/

namespace Updates

variable (h : c.Updates d) (hd : c.Decodes)
include h hd

/-- The next instruction after one that does not jump on a condition. -/
theorem pc_eq_of_not_jnz (hjnz : c.flag .pcJnz = 0) : d.pc = c.nextPc := by
  have heq := h.pc_negative
  have htmp := h.tmp0
  rw [hjnz, zero_mul] at htmp
  rw [htmp, hjnz] at heq
  rw [hd.nextPc_of_not_jnz hjnz]
  linear_combination heq

/-- The next instruction after a conditional jump, whatever the cell of the result holds. -/
theorem pc_eq_of_jnz (hjnz : c.flag .pcJnz = 1) : d.pc = c.nextPc := by
  have hnegative := h.pc_negative
  have hpositive := h.pc_positive
  have htmp0 := h.tmp0
  have htmp1 := h.tmp1
  obtain ⟨habs, hrel⟩ := hd.pcUpdate.of_third hjnz
  unfold pcIsRegular followingPc at hnegative
  unfold followingPc at hpositive
  rw [hjnz, one_mul] at htmp0
  rw [hd.nextPc_of_jnz hjnz, size]
  by_cases hdst : c.dst = 0
  · -- the product with the result vanishes, which leaves the equation for the next instruction
    rw [if_pos hdst]
    rw [htmp0, hdst, zero_mul] at htmp1
    rw [htmp1, hjnz] at hpositive
    linear_combination -hpositive
  · rw [if_neg hdst]
    rw [htmp0, habs, hrel, hjnz] at hnegative
    have hzero : c.dst * (d.pc - (c.pc + c.op1)) = 0 := by linear_combination hnegative
    exact sub_eq_zero.mp ((mul_eq_zero.mp hzero).resolve_left hdst)

theorem pc_eq : d.pc = c.nextPc := by
  rcases hd.flag_bit .pcJnz nofun with hjnz | hjnz
  · exact h.pc_eq_of_not_jnz hd hjnz
  · exact h.pc_eq_of_jnz hd hjnz

theorem ap_eq : d.ap = c.nextAp := h.ap.trans hd.nextAp_eq.symm

theorem fp_eq : d.fp = c.nextFp := h.fp.trans hd.nextFp_eq.symm

end Updates

/-! ## Calls and assertions -/

theorem Obeys.call (h : c.Obeys) (hcall : c.IsSet .opcodeCall) :
    c.dst = c.fp ∧ c.op0 = c.pc + c.size := by
  have hfp := h.push_fp
  have hpc := h.push_pc
  unfold IsSet at hcall
  unfold followingPc at hpc
  rw [hcall] at hfp hpc
  unfold size
  constructor
  · linear_combination hfp
  · linear_combination hpc

theorem Obeys.assertEq (h : c.Obeys) (hset : c.IsSet .opcodeAssertEq) : c.dst = c.res := by
  have heq := h.assert_eq
  unfold IsSet at hset
  rw [hset] at heq
  linear_combination heq

end Cycle

variable {n i : Nat} {columns : List (Array Felt)} {periodic : List PeriodicColumn} {b : Bindings}

/-- A cycle other than the last one on which the constraints of the processor hold executes its
instruction. -/
theorem executes_of_holdOnCycle (hn : isPowerOfTwo n = true) (hi : cycleHeight * (i + 1) < n)
    (h : HoldOnCycle n columns periodic b i) :
    (cycleAt columns i).Executes (cycleAt columns (i + 1)) := by
  obtain ⟨hdecodes, hoperates, hupdates, hobeys⟩ := (holdOnCycle_iff hn hi).mp h
  exact {
    flag_bit := hdecodes.flag_bit
    tail_zero := hdecodes.tail_zero
    op1Source := hdecodes.op1Source.atMostOne
    resLogic := hdecodes.resLogic.atMostOne
    pcUpdate := hdecodes.pcUpdate.atMostOne
    opcode := hdecodes.opcode.atMostOne_pair
    dstAddress := hoperates.dstAddress_eq hdecodes
    op0Address := hoperates.op0Address_eq hdecodes
    op1Address := hoperates.op1Address_eq hdecodes
    res := hoperates.res_eq hdecodes
    pc := hupdates.pc_eq hdecodes
    ap := hupdates.ap_eq hdecodes
    fp := hupdates.fp_eq hdecodes
    call := hobeys.call
    assertEq := hobeys.assertEq }

/-- The columns of a small trace, whose first cycle is a conditional jump that is taken. -/
def sampleColumns : List (Array Felt) :=
  columnsOfNumbers [
    [32765, 0, 0, 0, 32769, 0, 0, 0, 32767, 0, 0, 0, 0, 0, 0, 0] ++ .replicate 16 0,
    [2567, 1283, 641, 320, 160, 80, 40, 20, 10, 5, 2, 1, 0, 0, 0, 0] ++ .replicate 16 0,
    .replicate 32 0,
    [1, 722687009147027453, 0, 0, 9, 5, 0, 0, 7, 1, 0, 0, 2, 6, 0, 0, 7] ++ .replicate 15 0,
    .replicate 32 0,
    [10, 0, 1, 0, 30, 0, 0, 0, 10, 0, 1, 0, 1, 0, 0, 0, 11, 0, 0, 0, 0, 0, 0, 0, 10] ++
      .replicate 7 0]

theorem sampleColumns_holdOnCycle : HoldOnCycle 32 sampleColumns [] ⟨[], [], 0⟩ 0 := by
  rw [holdOnCycle_iff (by decide) (by decide)]
  refine ⟨⟨?_, ?_, ?_, ?_, ?_, ?_, ?_⟩, ⟨?_, ?_, ?_, ?_, ?_⟩, ⟨?_, ?_, ?_, ?_, ?_, ?_⟩,
    ⟨?_, ?_, ?_, ?_, ?_, ?_, ?_, ?_, ?_⟩⟩
  · intro f hf
    cases f
    case zero => exact absurd rfl hf
    all_goals decide
  all_goals decide

theorem executes_sample : (cycleAt sampleColumns 0).Executes (cycleAt sampleColumns 1) :=
  executes_of_holdOnCycle (by decide) (by decide) sampleColumns_holdOnCycle

end Cpu

end CairoTrace
