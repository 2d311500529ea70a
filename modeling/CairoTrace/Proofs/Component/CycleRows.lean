import CairoTrace.Component.Cpu
import CairoTrace.Proofs.RowValue

/-!
# What the constraints of a cycle say

The processor's own constraints on the rows of one cycle are equations between the cells of this
cycle and the registers of the next one (`holdOnCycle_iff`). The other constraints of the processor
are about the first and the last cycle alone, and do not have its name.
-/

namespace CairoTrace

/-- Whether a constraint is zero on those rows of a cycle that it applies to. -/
def Constraint.HoldsOnCycle (n : Nat) (columns : List (Array Felt)) (periodic : List PeriodicColumn)
    (b : Bindings) (i : Nat) (c : Constraint) : Prop :=
  ∀ row ∈ c.appliedRows n, row / cycleHeight = i → c.expr.onRow n columns periodic b row = 0

namespace Cpu

/-- Whether the constraints with the name of the processor are zero on the rows of a cycle. -/
def HoldOnCycle (n : Nat) (columns : List (Array Felt)) (periodic : List PeriodicColumn)
    (b : Bindings) (i : Nat) : Prop :=
  ∀ c ∈ constraints, "cpu/".toList <+: c.name.toList → c.HoldsOnCycle n columns periodic b i

/-- The constraints that take an instruction apart. -/
def splitConstraints : List Constraint := decodeConstraints.take 3

/-- The constraints on the products that decide a conditional jump. -/
def productConstraints : List Constraint := updateConstraints.take 2

/-- The constraints on the registers of the next cycle. -/
def registerConstraints : List Constraint := updateConstraints.drop 2

/-! ## Cells -/

/-- The cells of a cycle. -/
structure Cycle where
  /-- The number that the flags from a position on write. -/
  tail : Nat → Felt
  pc : Felt
  instruction : Felt
  op0Address : Felt
  op0 : Felt
  dstAddress : Felt
  dst : Felt
  op1Address : Felt
  op1 : Felt
  dstOffset : Felt
  op1Offset : Felt
  op0Offset : Felt
  ap : Felt
  tmp0 : Felt
  product : Felt
  fp : Felt
  tmp1 : Felt
  res : Felt

@[simps]
def cycleAt (columns : List (Array Felt)) (i : Nat) : Cycle where
  tail k := traceCell columns Column.flags (cycleHeight * i + k)
  pc := Cpu.pc.cellAt columns i
  instruction := Cpu.instruction.cellAt columns i
  op0Address := Cpu.op0Address.cellAt columns i
  op0 := Cpu.op0.cellAt columns i
  dstAddress := Cpu.dstAddress.cellAt columns i
  dst := Cpu.dst.cellAt columns i
  op1Address := Cpu.op1Address.cellAt columns i
  op1 := Cpu.op1.cellAt columns i
  dstOffset := Cpu.dstOffset.cellAt columns i
  op1Offset := Cpu.op1Offset.cellAt columns i
  op0Offset := Cpu.op0Offset.cellAt columns i
  ap := Cpu.ap.cellAt columns i
  tmp0 := Cpu.tmp0.cellAt columns i
  product := Cpu.product.cellAt columns i
  fp := Cpu.fp.cellAt columns i
  tmp1 := Cpu.tmp1.cellAt columns i
  res := Cpu.res.cellAt columns i

namespace Cycle

variable (c d : Cycle)

/-- A flag: its tail less twice the next one. -/
def flag (f : Flag) : Felt := c.tail f.position - 2 * c.tail (f.position + 1)

def op1FromOp0 : Felt := 1 - (c.flag .op1Imm + c.flag .op1Ap + c.flag .op1Fp)

def resIsOp1 : Felt := 1 - (c.flag .resAdd + c.flag .resMul + c.flag .pcJnz)

def pcIsRegular : Felt := 1 - (c.flag .pcJumpAbs + c.flag .pcJumpRel + c.flag .pcJnz)

def fpIsRegular : Felt := 1 - (c.flag .opcodeCall + c.flag .opcodeRet)

/-- The address after the instruction. -/
def followingPc : Felt := c.pc + c.flag .op1Imm + 1

/-- The flags are digits, and the instruction is made of them and of its offsets. -/
@[mk_iff]
structure Splits : Prop where
  flag_bit : ∀ f, f ≠ .zero → c.flag f = 0 ∨ c.flag f = 1
  tail_zero : c.tail Flag.zero.position = 0
  instruction : c.instruction =
    ((c.tail 0 * 2 ^ 16 + c.op1Offset) * 2 ^ 16 + c.op0Offset) * 2 ^ 16 + c.dstOffset

/-- The flags are digits, at most one of a group, and the instruction is made of them. -/
@[mk_iff]
structure Decodes : Prop where
  flag_bit : ∀ f, f ≠ .zero → c.flag f = 0 ∨ c.flag f = 1
  tail_zero : c.tail Flag.zero.position = 0
  instruction : c.instruction =
    ((c.tail 0 * 2 ^ 16 + c.op1Offset) * 2 ^ 16 + c.op0Offset) * 2 ^ 16 + c.dstOffset
  op1FromOp0_bit : c.op1FromOp0 = 0 ∨ c.op1FromOp0 = 1
  resIsOp1_bit : c.resIsOp1 = 0 ∨ c.resIsOp1 = 1
  pcIsRegular_bit : c.pcIsRegular = 0 ∨ c.pcIsRegular = 1
  fpIsRegular_bit : c.fpIsRegular = 0 ∨ c.fpIsRegular = 1

/-- The operands are at their addresses, and the result is computed from them. -/
@[mk_iff]
structure Operates : Prop where
  dstAddress : c.dstAddress + 2 ^ 15 =
    c.flag .dstReg * c.fp + (1 - c.flag .dstReg) * c.ap + c.dstOffset
  op0Address : c.op0Address + 2 ^ 15 =
    c.flag .op0Reg * c.fp + (1 - c.flag .op0Reg) * c.ap + c.op0Offset
  op1Address : c.op1Address + 2 ^ 15 = c.flag .op1Imm * c.pc + c.flag .op1Ap * c.ap +
    c.flag .op1Fp * c.fp + c.op1FromOp0 * c.op0 + c.op1Offset
  product : c.product = c.op0 * c.op1
  res : (1 - c.flag .pcJnz) * c.res =
    c.flag .resAdd * (c.op0 + c.op1) + c.flag .resMul * c.product + c.resIsOp1 * c.op1

/-- The registers of the next cycle follow from those of this one. -/
@[mk_iff]
structure Updates : Prop where
  tmp0 : c.tmp0 = c.flag .pcJnz * c.dst
  tmp1 : c.tmp1 = c.tmp0 * c.res
  pc_negative : (1 - c.flag .pcJnz) * d.pc + c.tmp0 * (d.pc - (c.pc + c.op1)) =
    c.pcIsRegular * c.followingPc + c.flag .pcJumpAbs * c.res + c.flag .pcJumpRel * (c.pc + c.res)
  pc_positive : (c.tmp1 - c.flag .pcJnz) * (d.pc - c.followingPc) = 0
  ap : d.ap = c.ap + c.flag .apAdd * c.res + c.flag .apAdd1 + c.flag .opcodeCall * 2
  fp : d.fp = c.fpIsRegular * c.fp + c.flag .opcodeRet * c.dst + c.flag .opcodeCall * (c.ap + 2)

/-- What calls, returns and assertions do besides. -/
@[mk_iff]
structure Obeys : Prop where
  push_fp : c.flag .opcodeCall * (c.dst - c.fp) = 0
  push_pc : c.flag .opcodeCall * (c.op0 - c.followingPc) = 0
  call_dstOffset : c.flag .opcodeCall * (c.dstOffset - 2 ^ 15) = 0
  call_op0Offset : c.flag .opcodeCall * (c.op0Offset - (2 ^ 15 + 1)) = 0
  call_flags : c.flag .opcodeCall *
    (c.flag .opcodeCall + c.flag .opcodeCall + 1 + 1 - (c.flag .dstReg + c.flag .op0Reg + 4)) = 0
  ret_dstOffset : c.flag .opcodeRet * (c.dstOffset + 2 - 2 ^ 15) = 0
  ret_op1Offset : c.flag .opcodeRet * (c.op1Offset + 1 - 2 ^ 15) = 0
  ret_flags : c.flag .opcodeRet *
    (c.flag .pcJumpAbs + c.flag .dstReg + c.flag .op1Fp + c.resIsOp1 - 4) = 0
  assert_eq : c.flag .opcodeAssertEq * (c.dst - c.res) = 0

end Cycle

variable {n i : Nat} {columns : List (Array Felt)} {periodic : List PeriodicColumn} {b : Bindings}
  {name : String} {e : Term}

/-! ## Rows of a cycle -/

section Rows

variable (hn : isPowerOfTwo n = true) (hi : cycleHeight * (i + 1) ≤ n)
include hi

theorem cycleHeight_le : cycleHeight ≤ n := by
  rw [mul_add, mul_one] at hi
  omega

/-- The rows of a cycle are in the trace. -/
theorem cycle_row_lt {k : Nat} (hk : k < cycleHeight) : cycleHeight * i + k < n := by
  rw [mul_add, mul_one] at hi
  omega

include hn

theorem lt_div_cycleHeight : i < n / cycleHeight := by
  rw [Nat.lt_div_iff_mul_lt' (dvd_of_isPowerOfTwo (by decide) hn (cycleHeight_le hi))]
  exact cycle_row_lt hi (k := 0) (by decide)

theorem holdsOnCycle_every_iff :
    (⟨name, e, every, []⟩ : Constraint).HoldsOnCycle n columns periodic b i ↔
      e.onRow n columns periodic b (cycleHeight * i) = 0 := by
  simp only [Constraint.HoldsOnCycle, every,
    Constraint.mem_appliedRows_every_iff (show 0 < cycleHeight by decide)
      (dvd_of_isPowerOfTwo (by decide) hn (cycleHeight_le hi))]
  constructor
  · intro h
    exact h _ ⟨i, lt_div_cycleHeight hn hi, rfl⟩ (Nat.mul_div_cancel_left i (by decide))
  · rintro h _ ⟨j, -, rfl⟩ hj
    rw [Nat.mul_div_cancel_left j (by decide)] at hj
    rwa [hj]

theorem holdsOnCycle_zeroRow_iff :
    (⟨name, e, zeroRow, []⟩ : Constraint).HoldsOnCycle n columns periodic b i ↔
      e.onRow n columns periodic b (cycleHeight * i + 15) = 0 := by
  have hfits : zeroRow.fits n = true :=
    Rows.fits_every (by decide) (cycleHeight_le hi) (by decide)
  have hrow (row : Nat) : row ∈ (⟨name, e, zeroRow, []⟩ : Constraint).appliedRows n ∧
      row / cycleHeight = i ↔ row = cycleHeight * i + 15 := by
    have hlt : 16 * i + 15 < n := cycle_row_lt hi (by decide)
    rw [Constraint.mem_appliedRows_of_nil (Rows.isResidueClass_of_fits hn hfits),
      Rows.contains_iff]
    change (row < n ∧ row % 16 = 15) ∧ row / 16 = i ↔ row = 16 * i + 15
    omega
  simp only [Constraint.HoldsOnCycle, ← and_imp, hrow, forall_eq]

theorem holdsOnCycle_all_except_zeroRow_iff :
    (⟨name, e, .all, [zeroRow]⟩ : Constraint).HoldsOnCycle n columns periodic b i ↔
      ∀ k < 15, e.onRow n columns periodic b (cycleHeight * i + k) = 0 := by
  have hfits : Rows.all.fits n = true :=
    Rows.fits_every (by decide) (pos_of_isPowerOfTwo hn) one_pos
  have hrow (row : Nat) : row ∈ (⟨name, e, .all, [zeroRow]⟩ : Constraint).appliedRows n ∧
      row / cycleHeight = i ↔ ∃ k < 15, row = cycleHeight * i + k := by
    have hlt : 16 * i + 15 < n := cycle_row_lt hi (by decide)
    rw [Constraint.mem_appliedRows_iff (Rows.isResidueClass_of_fits hn hfits)]
    simp only [List.mem_singleton, exists_eq_left, Rows.contains_iff]
    change ((row < n ∧ row % 1 = 0) ∧ ¬ (row < n ∧ row % 16 = 15)) ∧ row / 16 = i ↔
      ∃ k < 15, row = 16 * i + k
    constructor
    · intro h
      exact ⟨row % 16, by omega, by omega⟩
    · rintro ⟨k, hk, rfl⟩
      omega
  simp only [Constraint.HoldsOnCycle, ← and_imp, hrow]
  constructor
  · intro h k hk
    exact h _ ⟨k, hk, rfl⟩
  · rintro h _ ⟨k, hk, rfl⟩
    exact h k hk

theorem onRow_current {c : VirtualColumn} (hc : c.step = cycleHeight ∧ c.offset < cycleHeight) :
    c.current.onRow n columns periodic b (cycleHeight * i) = c.cellAt columns i :=
  Term.onRow_current_of_step hc (by decide)
    (dvd_of_isPowerOfTwo (by decide) hn (cycleHeight_le hi)) (lt_div_cycleHeight hn hi)

/-! ## Decoding -/

omit hn in
theorem onRow_flagTails {k : Nat} (hk : k < cycleHeight) :
    flagTails.current.onRow n columns periodic b (cycleHeight * i + k) =
      (cycleAt columns i).tail k := by
  have h : flagTails.current.onRow n columns periodic b (1 * (cycleHeight * i + k)) =
      (cycleAt columns i).tail k := Term.onRow_current_column (cycle_row_lt hi hk)
  rwa [one_mul] at h

omit hn in
theorem onRow_rowFlag {k : Nat} (hk : k + 1 < cycleHeight) :
    rowFlag.onRow n columns periodic b (cycleHeight * i + k) =
      (cycleAt columns i).tail k - 2 * (cycleAt columns i).tail (k + 1) := by
  have h : flagTails.next.onRow n columns periodic b (1 * (cycleHeight * i + k)) =
      (cycleAt columns i).tail (k + 1) := Term.onRow_next_column (cycle_row_lt hi hk)
  rw [one_mul] at h
  rw [rowFlag, Term.onRow_sub, Term.onRow_mul, onRow_flagTails hi (by omega), h, Term.onRow_ofNat,
    mul_comm]

omit hn hi in
/-- The flags are read row by row. -/
theorem forall_bit_iff {c : Cycle} :
    (∀ k < 15, c.tail k - 2 * c.tail (k + 1) = 0 ∨ c.tail k - 2 * c.tail (k + 1) = 1) ↔
      ∀ f, f ≠ .zero → c.flag f = 0 ∨ c.flag f = 1 := by
  constructor
  · intro h f hf
    have hlt : f.position < 15 := by
      cases f
      case zero => exact absurd rfl hf
      all_goals decide
    exact h f.position hlt
  · intro h k hk
    have hposition : ∀ k : Fin 15, ∃ f ∈ Flag.all, f ≠ .zero ∧ f.position = k := by decide
    obtain ⟨f, -, hf, rfl⟩ := hposition ⟨k, hk⟩
    exact h f hf

/-- The constraints that take an instruction apart hold on every cycle, the last one included. -/
theorem splits_iff : (∀ c ∈ splitConstraints, c.HoldsOnCycle n columns periodic b i) ↔
    (cycleAt columns i).Splits := by
  have hbits : (∀ k < 15, rowFlag.onRow n columns periodic b (cycleHeight * i + k) = 0 ∨
        rowFlag.onRow n columns periodic b (cycleHeight * i + k) = 1) ↔
      ∀ f, f ≠ .zero → (cycleAt columns i).flag f = 0 ∨ (cycleAt columns i).flag f = 1 := by
    rw [← forall_bit_iff]
    refine forall₂_congr fun k hk => ?_
    rw [onRow_rowFlag hi (Nat.succ_lt_succ hk)]
  have hfirst : flagTails.current.onRow n columns periodic b (cycleHeight * i) =
      (cycleAt columns i).tail 0 := onRow_flagTails (k := 0) hi (by decide)
  have hzero : flagTails.current.onRow n columns periodic b (cycleHeight * i + 15) =
      (cycleAt columns i).tail Flag.zero.position := onRow_flagTails hi (by decide)
  simp (disch := decide) only [Cycle.splits_iff, splitConstraints, decodeConstraints,
    List.take_succ_cons, List.take_zero, List.forall_mem_cons, List.not_mem_nil, false_implies,
    implies_true, and_true, holdsOnCycle_all_except_zeroRow_iff hn hi,
    Term.onRow_booleanity_eq_zero_iff, hbits, holdsOnCycle_zeroRow_iff hn hi, hzero,
    holdsOnCycle_every_iff hn hi, hfirst, Term.onRow_add, Term.onRow_sub, Term.onRow_mul,
    Term.onRow_pow2, sub_eq_zero, onRow_current hn hi, cycleAt_instruction, cycleAt_dstOffset,
    cycleAt_op0Offset, cycleAt_op1Offset]

/-! ## Groups of constraints -/

omit hn in
/-- A flag reads two rows of its cycle. -/
theorem onRow_flag {f : Flag} (hf : f ≠ .zero) :
    (flag f).onRow n columns periodic b (cycleHeight * i) = (cycleAt columns i).flag f := by
  let cell (k : Nat) : Felt :=
    Term.onRow n columns periodic b (cycleHeight * i) (.leaf (.cell Column.flags k))
  have htail {k : Nat} (hk : k < cycleHeight) : cell k = (cycleAt columns i).tail k :=
    Term.onRow_cell (cycle_row_lt hi hk)
  have hposition : f.position + 1 < cycleHeight := by
    cases f
    case zero => exact absurd rfl hf
    all_goals decide
  calc (flag f).onRow n columns periodic b (cycleHeight * i)
      = cell f.position + -(cell (f.position + 1) + cell (f.position + 1)) := rfl
    _ = (cycleAt columns i).flag f := by
      rw [htail (Nat.lt_of_succ_lt hposition), htail hposition, Cycle.flag]
      ring

theorem decodes_iff : (∀ c ∈ decodeConstraints, c.HoldsOnCycle n columns periodic b i) ↔
    (cycleAt columns i).Decodes := by
  have hsplit : decodeConstraints = splitConstraints ++ decodeConstraints.drop 3 := rfl
  rw [hsplit, List.forall_mem_append, splits_iff hn hi]
  simp (disch := decide) only [Cycle.decodes_iff, Cycle.splits_iff, decodeConstraints,
    List.drop_succ_cons, List.drop_zero, List.forall_mem_cons, List.not_mem_nil, false_implies,
    implies_true, and_true, and_assoc, holdsOnCycle_every_iff hn hi,
    Term.onRow_booleanity_eq_zero_iff, op1FromOp0, resIsOp1, pcIsRegular, fpIsRegular,
    Cycle.op1FromOp0, Cycle.resIsOp1, Cycle.pcIsRegular, Cycle.fpIsRegular, Term.onRow_add,
    Term.onRow_sub, Term.onRow_one, onRow_flag hi]

theorem operates_iff : (∀ c ∈ operandConstraints, c.HoldsOnCycle n columns periodic b i) ↔
    (cycleAt columns i).Operates := by
  simp (disch := decide) only [Cycle.operates_iff, operandConstraints, List.forall_mem_cons,
    List.not_mem_nil, false_implies, implies_true, and_true, holdsOnCycle_every_iff hn hi,
    op1FromOp0, resIsOp1, Cycle.op1FromOp0, Cycle.resIsOp1, Term.onRow_add, Term.onRow_sub,
    Term.onRow_mul, Term.onRow_one, Term.onRow_pow2, sub_eq_zero, onRow_flag hi,
    onRow_current hn hi, cycleAt_pc, cycleAt_op0Address, cycleAt_op0, cycleAt_dstAddress,
    cycleAt_op1Address, cycleAt_op1, cycleAt_dstOffset, cycleAt_op0Offset, cycleAt_op1Offset,
    cycleAt_ap, cycleAt_fp, cycleAt_res, cycleAt_product]

theorem obeys_iff : (∀ c ∈ opcodeConstraints, c.HoldsOnCycle n columns periodic b i) ↔
    (cycleAt columns i).Obeys := by
  simp (disch := decide) only [Cycle.obeys_iff, opcodeConstraints, List.forall_mem_cons,
    List.not_mem_nil, false_implies, implies_true, and_true, holdsOnCycle_every_iff hn hi,
    resIsOp1, Cycle.resIsOp1, Cycle.followingPc, Term.onRow_add, Term.onRow_sub, Term.onRow_mul,
    Term.onRow_one, Term.onRow_ofNat, Term.onRow_pow2, onRow_flag hi, onRow_current hn hi,
    cycleAt_pc, cycleAt_op0, cycleAt_dst, cycleAt_dstOffset, cycleAt_op0Offset, cycleAt_op1Offset,
    cycleAt_fp, cycleAt_res]

/-- The products that decide a conditional jump are in place, on the last cycle as well. -/
theorem products_iff :
    (∀ c ∈ productConstraints, c.expr.onRow n columns periodic b (cycleHeight * i) = 0) ↔
      (cycleAt columns i).tmp0 = (cycleAt columns i).flag .pcJnz * (cycleAt columns i).dst ∧
        (cycleAt columns i).tmp1 = (cycleAt columns i).tmp0 * (cycleAt columns i).res := by
  simp (disch := decide) only [productConstraints, updateConstraints, List.take_succ_cons,
    List.take_zero, List.forall_mem_cons, List.not_mem_nil, false_implies, implies_true, and_true,
    Term.onRow_sub, Term.onRow_mul, sub_eq_zero, onRow_flag hi, onRow_current hn hi, cycleAt_dst,
    cycleAt_res, cycleAt_tmp0, cycleAt_tmp1]

end Rows

/-! ## Rows of a cycle before another one -/

section Steps

variable (hn : isPowerOfTwo n = true) (hi : cycleHeight * (i + 1) < n)
include hn hi

theorem succ_lt_div_cycleHeight : i + 1 < n / cycleHeight := by
  rwa [Nat.lt_div_iff_mul_lt' (dvd_of_isPowerOfTwo (by decide) hn (cycleHeight_le hi.le))]

theorem holdsOnCycle_every_except_last_iff :
    (⟨name, e, every, [lastCycle]⟩ : Constraint).HoldsOnCycle n columns periodic b i ↔
      e.onRow n columns periodic b (cycleHeight * i) = 0 := by
  simp only [Constraint.HoldsOnCycle, every, lastCycle,
    Constraint.mem_appliedRows_every_except_last_iff (pos_of_isPowerOfTwo hn)
      (show 0 < cycleHeight by decide) (dvd_of_isPowerOfTwo (by decide) hn (cycleHeight_le hi.le))]
  constructor
  · intro h
    exact h _ ⟨i, succ_lt_div_cycleHeight hn hi, rfl⟩ (Nat.mul_div_cancel_left i (by decide))
  · rintro h _ ⟨j, -, rfl⟩ hj
    rw [Nat.mul_div_cancel_left j (by decide)] at hj
    rwa [hj]

theorem onRow_next {c : VirtualColumn} (hc : c.step = cycleHeight ∧ c.offset < cycleHeight) :
    c.next.onRow n columns periodic b (cycleHeight * i) = c.cellAt columns (i + 1) :=
  Term.onRow_next_of_step hc (by decide)
    (dvd_of_isPowerOfTwo (by decide) hn (cycleHeight_le hi.le)) (succ_lt_div_cycleHeight hn hi)

theorem updates_iff : (∀ c ∈ updateConstraints, c.HoldsOnCycle n columns periodic b i) ↔
    (cycleAt columns i).Updates (cycleAt columns (i + 1)) := by
  simp (disch := decide) only [Cycle.updates_iff, updateConstraints, List.forall_mem_cons,
    List.not_mem_nil, false_implies, implies_true, and_true,
    holdsOnCycle_every_except_last_iff hn hi, pcIsRegular, fpIsRegular, followingPc,
    Cycle.pcIsRegular, Cycle.fpIsRegular, Cycle.followingPc, Term.onRow_add, Term.onRow_sub,
    Term.onRow_mul, Term.onRow_one, Term.onRow_ofNat, sub_eq_zero, onRow_flag hi.le,
    onRow_current hn hi.le, onRow_next hn hi, cycleAt_pc, cycleAt_op1, cycleAt_dst, cycleAt_ap,
    cycleAt_fp, cycleAt_res, cycleAt_tmp0, cycleAt_tmp1]

/-- The constraints on the next registers say what all of the update does, once the products are in
place. -/
theorem registers_iff
    (h : ∀ c ∈ productConstraints, c.expr.onRow n columns periodic b (cycleHeight * i) = 0) :
    (∀ c ∈ registerConstraints, c.HoldsOnCycle n columns periodic b i) ↔
      (cycleAt columns i).Updates (cycleAt columns (i + 1)) := by
  have hsplit : updateConstraints = productConstraints ++ registerConstraints := rfl
  have hproducts : ∀ c ∈ productConstraints, c.HoldsOnCycle n columns periodic b i := by
    simp only [productConstraints, updateConstraints, List.take_succ_cons, List.take_zero,
      List.forall_mem_cons, List.not_mem_nil, false_implies, implies_true, and_true,
      holdsOnCycle_every_except_last_iff hn hi] at h ⊢
    exact h
  rw [← updates_iff hn hi, hsplit, List.forall_mem_append, and_iff_right hproducts]

/-- The constraints of a cycle, which are those with the name of the processor. -/
theorem holdOnCycle_iff : HoldOnCycle n columns periodic b i ↔
    (cycleAt columns i).Decodes ∧ (cycleAt columns i).Operates ∧
      (cycleAt columns i).Updates (cycleAt columns (i + 1)) ∧ (cycleAt columns i).Obeys := by
  have hnamed : ∀ c ∈ decodeConstraints ++ operandConstraints ++ updateConstraints ++
      opcodeConstraints, "cpu/".toList <+: c.name.toList := by decide +kernel
  have hother : ∀ c ∈ boundaryConstraints, ¬ "cpu/".toList <+: c.name.toList := by decide +kernel
  have hmem (c : Constraint) : c ∈ constraints ∧ "cpu/".toList <+: c.name.toList ↔
      c ∈ decodeConstraints ++ operandConstraints ++ updateConstraints ++ opcodeConstraints := by
    rw [constraints, List.mem_append]
    constructor
    · rintro ⟨hc | hc, hname⟩
      · exact hc
      · exact absurd hname (hother c hc)
    · intro hc
      exact ⟨Or.inl hc, hnamed c hc⟩
  simp only [HoldOnCycle, ← and_imp, hmem, List.forall_mem_append, decodes_iff hn hi.le,
    operates_iff hn hi.le, updates_iff hn hi, obeys_iff hn hi.le, and_assoc]

end Steps

end Cpu

end CairoTrace
