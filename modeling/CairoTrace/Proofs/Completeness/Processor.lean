import CairoTrace.Proofs.Machine.Steps
import CairoTrace.Proofs.Soundness.Decoding
import CairoTrace.Proofs.Soundness.Processor
import CairoTrace.Proofs.Trace.Writes

/-!
# Completeness of the processor

A step that is computed from the memory and written to a cycle meets the constraints on its flags,
its operands and its products (`Cycle.HoldsStep.decodes`, `Cycle.HoldsStep.operates`), as each group
of flags has one of the values that a step can be computed for. The constraints on the registers of
the next cycle then hold exactly if these are the ones that the instruction leads to
(`Cycle.updates_iff_next`): the result of a conditional jump is the inverse of its destination, so
that `tmp1` is one if the jump is taken. Both are stated for all the steps that are written
(`cycles_of_writes`), no two of which write to one cell (`nodup_places_writes`).
-/

namespace CairoTrace

namespace Cpu

/-! ## Cells of a step -/

namespace Cycle

/-- Whether the cells of a cycle hold a step. -/
structure HoldsStep (c : Cycle) (s : Step) : Prop extends c.HoldsParts s.word where
  pc : c.pc = s.pc
  instruction : c.instruction = s.word
  op0Address : c.op0Address = s.op0Address
  op0 : c.op0 = s.op0
  dstAddress : c.dstAddress = s.dstAddress
  dst : c.dst = s.dst
  op1Address : c.op1Address = s.op1Address
  op1 : c.op1 = s.op1
  ap : c.ap = s.ap
  tmp0 : c.tmp0 = s.tmp0
  product : c.product = s.op0 * s.op1
  fp : c.fp = s.fp
  tmp1 : c.tmp1 = s.tmp1
  res : c.res = s.res

variable {c d : Cycle} {w : Word} {s : Step} {m : Memory}

/-! ## Flags -/

/-- The flags of a group are the digits of its value. -/
theorem HoldsParts.flag_eq_testBit (h : c.HoldsParts w) {g : FlagGroup} {k : Nat} {f : Flag}
    (hf : g.flags[k]? = some f) : c.flag f = (((Word.group w g).testBit k).toNat : Felt) := by
  have hne : f ≠ .zero := by
    rintro rfl
    have hzero : ∀ g : FlagGroup, .zero ∉ g.flags := by
      intro g
      cases g <;> decide
    exact hzero g (List.mem_of_getElem? hf)
  rw [h.flag_eq hne, Word.flag_eq_testBit_group hf]

theorem natCast_toNat_eq_one_iff {b : Bool} : (b.toNat : Felt) = 1 ↔ b = true := by
  cases b with
  | false => simp
  | true => simp

theorem HoldsParts.isSet_iff (h : c.HoldsParts w) {f : Flag} (hf : f ≠ .zero) :
    c.IsSet f ↔ Word.flag w f = true := by
  rw [IsSet, h.flag_eq hf, natCast_toNat_eq_one_iff]

theorem HoldsParts.isSet_iff_testBit (h : c.HoldsParts w) {g : FlagGroup} {k : Nat} {f : Flag}
    (hf : g.flags[k]? = some f) : c.IsSet f ↔ (Word.group w g).testBit k = true := by
  rw [IsSet, h.flag_eq_testBit hf, natCast_toNat_eq_one_iff]

/-- One less the sum of digits that exclude each other is a digit. -/
theorem Exclusive.sum_bit {x y z : Felt} (h : Exclusive x y z) :
    1 - (x + y + z) = 0 ∨ 1 - (x + y + z) = 1 := by
  rcases h with ⟨rfl, rfl, rfl⟩ | ⟨rfl, rfl, rfl⟩ | ⟨rfl, rfl, rfl⟩ | ⟨rfl, rfl, rfl⟩ <;>
    decide

/-! ## Constraints from what an instruction does -/

/-- The constraint on the result says nothing about a conditional jump. -/
theorem Decodes.res_eq (hd : c.Decodes) (hproduct : c.product = c.op0 * c.op1)
    (hres : ¬ c.IsSet .pcJnz → c.res = c.result) :
    (1 - c.flag .pcJnz) * c.res =
      c.flag .resAdd * (c.op0 + c.op1) + c.flag .resMul * c.product + c.resIsOp1 * c.op1 := by
  unfold resIsOp1
  rcases hd.flag_bit .pcJnz (by decide) with hjnz | hjnz
  · have heq := hres (not_isSet_of_eq_zero hjnz)
    rw [result, hd.resLogic.ite_pair_eq_add] at heq
    rw [hjnz, hproduct]
    linear_combination heq
  · obtain ⟨hadd, hmul⟩ := hd.resLogic.of_third hjnz
    rw [hjnz, hadd, hmul]
    ring

/-- A jump is forced unless its destination is zero. -/
theorem Decodes.pc_negative_of_next (hd : c.Decodes) (htmp0 : c.tmp0 = c.flag .pcJnz * c.dst)
    (hpc : d.pc = c.nextPc) :
    (1 - c.flag .pcJnz) * d.pc + c.tmp0 * (d.pc - (c.pc + c.op1)) =
      c.pcIsRegular * c.followingPc + c.flag .pcJumpAbs * c.res +
        c.flag .pcJumpRel * (c.pc + c.res) := by
  rw [htmp0]
  rcases hd.flag_bit .pcJnz (by decide) with hjnz | hjnz
  · rw [← hd.nextPc_of_not_jnz hjnz, hpc, hjnz]
    ring
  · obtain ⟨habs, hrel⟩ := hd.pcUpdate.of_third hjnz
    rw [hd.nextPc_of_jnz hjnz] at hpc
    unfold pcIsRegular
    rw [hjnz, habs, hrel]
    by_cases hdst : c.dst = 0
    · rw [hdst]
      ring
    · rw [if_neg hdst] at hpc
      rw [hpc]
      ring

/-- The next instruction is forced if the destination is zero; otherwise `tmp1` is one. -/
theorem Decodes.pc_positive_of_next (hd : c.Decodes) (htmp0 : c.tmp0 = c.flag .pcJnz * c.dst)
    (htmp1 : c.tmp1 = c.tmp0 * c.res) (hres : c.IsSet .pcJnz → c.res = c.dst⁻¹)
    (hpc : d.pc = c.nextPc) : (c.tmp1 - c.flag .pcJnz) * (d.pc - c.followingPc) = 0 := by
  rw [htmp1, htmp0]
  rcases hd.flag_bit .pcJnz (by decide) with hjnz | hjnz
  · rw [hjnz]
    ring
  · rw [hd.nextPc_of_jnz hjnz] at hpc
    rw [hjnz, hres hjnz]
    by_cases hdst : c.dst = 0
    · rw [if_pos hdst] at hpc
      rw [hpc, size, followingPc]
      ring
    · rw [one_mul, mul_inv_cancel₀ hdst, sub_self, zero_mul]

/-- If the result of a conditional jump is the inverse of its destination, the constraints on the
next registers hold for those that the instruction leads to, and for no others. -/
theorem updates_iff_next (hd : c.Decodes) (htmp0 : c.tmp0 = c.flag .pcJnz * c.dst)
    (htmp1 : c.tmp1 = c.tmp0 * c.res) (hres : c.IsSet .pcJnz → c.res = c.dst⁻¹) :
    c.Updates d ↔ d.pc = c.nextPc ∧ d.ap = c.nextAp ∧ d.fp = c.nextFp := by
  constructor
  · intro h
    exact ⟨h.pc_eq hd, h.ap_eq hd, h.fp_eq hd⟩
  · rintro ⟨hpc, hap, hfp⟩
    exact ⟨htmp0, htmp1, hd.pc_negative_of_next htmp0 hpc,
      hd.pc_positive_of_next htmp0 htmp1 hres hpc, hap.trans hd.nextAp_eq, hfp.trans hd.nextFp_eq⟩

namespace HoldsStep

variable (h : c.HoldsStep s) (hs : s.IsExecuted m)
include h hs

/-! ## Decoding -/

theorem op1Source : Exclusive (c.flag .op1Imm) (c.flag .op1Ap) (c.flag .op1Fp) := by
  rw [h.flag_eq_testBit (g := .op1Src) (k := 0) rfl, h.flag_eq_testBit (g := .op1Src) (k := 2) rfl,
    h.flag_eq_testBit (g := .op1Src) (k := 1) rfl]
  obtain ⟨base, -, hbase⟩ := hs.exists_op1Base
  rcases hbase with ⟨hgroup, -⟩ | ⟨hgroup, -⟩ | ⟨hgroup, -⟩ | ⟨hgroup, -⟩ <;>
    rw [hgroup] <;> decide

theorem resLogic : Exclusive (c.flag .resAdd) (c.flag .resMul) (c.flag .pcJnz) := by
  rw [h.flag_eq_testBit (g := .resLogic) (k := 0) rfl,
    h.flag_eq_testBit (g := .resLogic) (k := 1) rfl,
    h.flag_eq_testBit (g := .pcUpdate) (k := 2) rfl]
  rcases hs.res_cases with ⟨hpc, hlogic, -⟩ |
    ⟨hpc | hpc | hpc, ⟨hlogic, -⟩ | ⟨hlogic, -⟩ | ⟨hlogic, -⟩⟩ <;>
    rw [hpc, hlogic] <;> decide

theorem pcUpdate : Exclusive (c.flag .pcJumpAbs) (c.flag .pcJumpRel) (c.flag .pcJnz) := by
  rw [h.flag_eq_testBit (g := .pcUpdate) (k := 0) rfl,
    h.flag_eq_testBit (g := .pcUpdate) (k := 1) rfl,
    h.flag_eq_testBit (g := .pcUpdate) (k := 2) rfl]
  rcases hs.res_cases with ⟨hpc, -⟩ | ⟨hpc | hpc | hpc, -⟩ <;> rw [hpc] <;> decide

/-- The constraints of decoding hold for words of 63 digits that are not a call and a return at
once. -/
theorem decodes (hlt : s.word < 2 ^ 63)
    (hopcode : ¬ (s.word.flag .opcodeCall = true ∧ s.word.flag .opcodeRet = true)) :
    c.Decodes := by
  have hprime : 2 ^ 63 < starkPrime := by decide
  have hval : c.instruction.val = s.word := by
    rw [h.instruction, Felt.val_natCast_of_lt (hlt.trans hprime)]
  have hsplits : c.Splits :=
    splits_of_holdsParts (hval.trans_lt hlt) (hval.symm ▸ h.toHoldsParts)
  have hopcode : c.fpIsRegular = 0 ∨ c.fpIsRegular = 1 := by
    rw [fpIsRegular, h.flag_eq (f := .opcodeCall) (by decide),
      h.flag_eq (f := .opcodeRet) (by decide)]
    cases hcall : s.word.flag .opcodeCall <;> cases hret : s.word.flag .opcodeRet
    case true.true => exact absurd ⟨hcall, hret⟩ hopcode
    all_goals decide
  exact ⟨hsplits.flag_bit, hsplits.tail_zero, hsplits.instruction, (h.op1Source hs).sum_bit,
    (h.resLogic hs).sum_bit, (h.pcUpdate hs).sum_bit, hopcode⟩

/-! ## Operands -/

omit hs in
theorem natCast_ite {f : Flag} (hf : f ≠ .zero) (x y : Nat) :
    ((if s.word.flag f then x else y : Nat) : Felt) =
      c.flag f * x + (1 - c.flag f) * y := by
  have hiff : c.IsSet f ↔ s.word.flag f = true := h.isSet_iff hf
  rw [Nat.cast_ite, ← if_congr hiff rfl rfl]
  apply ite_eq_add
  rw [h.flag_eq hf]
  cases s.word.flag f <;> simp

omit hs in
theorem op1Base_eq {base : Felt}
    (hbase : s.word.group .op1Src = 0 ∧ base = s.op0 ∨ s.word.group .op1Src = 1 ∧ base = s.pc ∨
      s.word.group .op1Src = 2 ∧ base = s.fp ∨ s.word.group .op1Src = 4 ∧ base = s.ap) :
    c.op1Base = base := by
  have himm := h.isSet_iff_testBit (g := .op1Src) (k := 0) rfl
  have hfp := h.isSet_iff_testBit (g := .op1Src) (k := 1) rfl
  have hap := h.isSet_iff_testBit (g := .op1Src) (k := 2) rfl
  simp only [op1Base, himm, hap, hfp]
  rcases hbase with ⟨hgroup, rfl⟩ | ⟨hgroup, rfl⟩ | ⟨hgroup, rfl⟩ | ⟨hgroup, rfl⟩ <;>
    rw [hgroup]
  · exact h.op0
  · exact h.pc
  · exact h.fp
  · exact h.ap

theorem res_eq_result (hjnz : ¬ c.IsSet .pcJnz) : c.res = c.result := by
  rw [h.isSet_iff_testBit (g := .pcUpdate) (k := 2) rfl] at hjnz
  have hadd := h.isSet_iff_testBit (g := .resLogic) (k := 0) rfl
  have hmul := h.isSet_iff_testBit (g := .resLogic) (k := 1) rfl
  simp only [result, hadd, hmul, h.res, h.op0, h.op1]
  rcases hs.res_cases with ⟨hpc, -⟩ | ⟨-, ⟨hlogic, hres⟩ | ⟨hlogic, hres⟩ | ⟨hlogic, hres⟩⟩
  · rw [hpc] at hjnz
    exact absurd rfl hjnz
  all_goals
    rw [hlogic]
    exact hres

/-- A conditional jump has the inverse of its destination for a result. -/
theorem res_eq_inv (hjnz : c.IsSet .pcJnz) : c.res = c.dst⁻¹ := by
  rw [h.isSet_iff_testBit (g := .pcUpdate) (k := 2) rfl] at hjnz
  rcases hs.res_cases with ⟨-, -, hres⟩ | ⟨hpc | hpc | hpc, -⟩
  · rw [h.res, h.dst, hres]
  all_goals
    rw [hpc] at hjnz
    cases hjnz

theorem tmp0_eq : c.tmp0 = c.flag .pcJnz * c.dst := by
  rw [h.tmp0, hs.tmp0_eq, h.flag_eq (f := .pcJnz) (by decide), h.dst]
  cases s.word.flag .pcJnz <;> simp

theorem tmp1_eq : c.tmp1 = c.tmp0 * c.res := by
  rw [h.tmp1, hs.tmp1_eq, h.tmp0, h.res]

theorem operates (hd : c.Decodes) : c.Operates := by
  have hproduct : c.product = c.op0 * c.op1 := by rw [h.product, h.op0, h.op1]
  refine ⟨?dst, ?op0, ?op1, hproduct, hd.res_eq hproduct (h.res_eq_result hs)⟩
  case dst =>
    rw [h.dstAddress, hs.natCast_dstAddress, h.natCast_ite (f := .dstReg) (by decide), h.fp, h.ap,
      h.dstOffset]
  case op0 =>
    rw [h.op0Address, hs.natCast_op0Address, h.natCast_ite (f := .op0Reg) (by decide), h.fp, h.ap,
      h.op0Offset]
  case op1 =>
    obtain ⟨base, haddress, hbase⟩ := hs.exists_op1Base
    rw [h.op1Address, haddress, ← h.op1Base_eq hbase, op1Base, hd.op1Source.ite_eq_add,
      h.op1Offset]
    rfl

/-! ## Registers -/

omit hs in
theorem size_eq : c.size = s.word.size := by
  rw [size, h.flag_eq (f := .op1Imm) (by decide), Word.size]
  cases s.word.flag .op1Imm <;> decide

theorem nextPc_eq : c.nextPc = s.nextPc := by
  have habs := h.isSet_iff_testBit (g := .pcUpdate) (k := 0) rfl
  have hrel := h.isSet_iff_testBit (g := .pcUpdate) (k := 1) rfl
  have hjnz := h.isSet_iff_testBit (g := .pcUpdate) (k := 2) rfl
  simp only [Cycle.nextPc, Step.nextPc, habs, hrel, hjnz, h.size_eq, h.pc, h.res, h.dst, h.op1]
  rcases hs.res_cases with ⟨hpc, -⟩ | ⟨hpc | hpc | hpc, -⟩ <;> rw [hpc] <;> rfl

omit hs in
theorem nextAp_eq : c.nextAp = s.nextAp := by
  have hadd : c.IsSet .apAdd ↔ s.word.flag .apAdd = true := h.isSet_iff (by decide)
  have hadd1 : c.IsSet .apAdd1 ↔ s.word.flag .apAdd1 = true := h.isSet_iff (by decide)
  have hcall : c.IsSet .opcodeCall ↔ s.word.flag .opcodeCall = true := h.isSet_iff (by decide)
  simp only [Cycle.nextAp, Step.nextAp, hadd, hadd1, hcall, h.ap, h.res]

omit hs in
theorem nextFp_eq : c.nextFp = s.nextFp := by
  have hcall : c.IsSet .opcodeCall ↔ s.word.flag .opcodeCall = true := h.isSet_iff (by decide)
  have hret : c.IsSet .opcodeRet ↔ s.word.flag .opcodeRet = true := h.isSet_iff (by decide)
  simp only [Cycle.nextFp, Step.nextFp, hcall, hret, h.ap, h.dst, h.fp]

end HoldsStep

end Cycle

/-! ## Cells that are written -/

variable {n i : Nat} {check : Option DilutedCheck} {columns : List (Array Felt)} {s : Step}
  {m : Memory} {registers : List Registers} {steps : List Step}

theorem length_eq_of_mapM (hsteps : registers.mapM (Step.ofRegisters m) = .ok steps) :
    registers.length = steps.length :=
  (Result.mapM_eq_ok_iff.mp hsteps).length_eq

/-- The steps of an execution start with its registers. -/
theorem getElem?_registers (hsteps : registers.mapM (Step.ofRegisters m) = .ok steps)
    (hs : steps[i]? = some s) : registers[i]? = some s.registers ∧ s.IsExecuted m := by
  obtain ⟨hi, rfl⟩ := List.getElem?_eq_some_iff.mp hs
  have hlt : i < registers.length := length_eq_of_mapM hsteps ▸ hi
  obtain ⟨hregisters, hexecuted⟩ :=
    Step.of_ofRegisters ((Result.mapM_eq_ok_iff.mp hsteps).get hlt hi)
  rw [List.get_eq_getElem, List.get_eq_getElem] at hregisters
  exact ⟨hregisters ▸ List.getElem?_eq_getElem hlt, hexecuted⟩

/-- A cycle holds the step that is written to it. -/
theorem holdsStep_of_areHeld (h : Write.AreHeld check columns (s.writes i)) :
    (cycleAt columns i).HoldsStep s := by
  have hnext (c : VirtualColumn) : c.row i + 1 = (c.shifted 1).row i := Nat.add_right_comm _ _ _
  simp only [Write.AreHeld, Step.writes, List.forall_mem_append, List.forall_mem_map,
    List.forall_mem_cons, List.not_mem_nil, false_implies, implies_true, and_true, Write.cells,
    Write.at', hnext] at h
  obtain ⟨hflags, ⟨hpc, hinstruction⟩, ⟨hop0Address, hop0⟩, ⟨hdstAddress, hdst⟩,
    ⟨hop1Address, hop1⟩, hdstOffset, hop1Offset, hop0Offset, hap, htmp0, hproduct, hfp, htmp1,
    hres⟩ := h
  refine ⟨⟨fun f => ?_, hdstOffset, hop0Offset, hop1Offset⟩, hpc, hinstruction, hop0Address, hop0,
    hdstAddress, hdst, hop1Address, hop1, hap, htmp0, hproduct, hfp, htmp1, hres⟩
  rw [cycleAt_tail, mul_comm]
  exact hflags f (by cases f <;> decide)

theorem holdsStep_of_areHeld_writes (hsteps : registers.mapM (Step.ofRegisters m) = .ok steps)
    (h : Write.AreHeld check columns (writes m registers)) (hs : steps[i]? = some s) :
    (cycleAt columns i).HoldsStep s := by
  rw [writes, hsteps] at h
  exact holdsStep_of_areHeld (h.of_getElem? hs)

/-- The places of a cycle that are written, by their column and their row in the cycle. -/
def cyclePlaces : List (Nat × Nat) :=
  Flag.all.map (fun f => (Column.flags, f.position)) ++
    [pc, instruction, op0Address, op0, dstAddress, dst, op1Address, op1, dstOffset, op1Offset,
      op0Offset, ap, tmp0, product, fp, tmp1, res].map fun c => (c.column, c.offset)

theorem places_step (s : Step) (i : Nat) : ((s.writes i).flatMap (Write.cells check)).map (·.1) =
    cyclePlaces.map fun p => (p.1, cycleHeight * i + p.2) := by
  have hrow (column k : Nat) : (cycleCell column k).row i = cycleHeight * i + k := Nat.add_comm _ _
  simp only [Step.writes, cyclePlaces, List.flatMap_append, List.flatMap_map, List.flatMap_cons,
    List.flatMap_nil, List.map_append, List.map_flatMap, List.map_map, List.map_cons, List.map_nil,
    Write.cells, Write.at', pc, instruction, op0Address, op0, dstAddress, dst, op1Address, op1,
    dstOffset, op1Offset, op0Offset, ap, tmp0, product, fp, tmp1, res, hrow, Nat.mul_comm i]
  rfl

theorem places_writes (hsteps : registers.mapM (Step.ofRegisters m) = .ok steps) :
    ((writes m registers).flatMap (Write.cells check)).map (·.1) =
      (List.range steps.length ×ˢ cyclePlaces).map
        fun q => (q.2.1, cycleHeight * q.1 + q.2.2) := by
  have hwrites : writes m registers = steps.zipIdx.flatMap fun q => q.1.writes q.2 := by
    rw [writes, hsteps]
  have hindices : steps.zipIdx.map (·.2) = List.range steps.length := by
    rw [List.zipIdx_map_snd, List.range_eq_range']
  rw [hwrites, List.flatMap_assoc, List.map_flatMap, ← hindices, SProd.sprod, List.instSProd]
  simp only [places_step]
  simp only [List.product, List.flatMap_map, List.map_flatMap, List.map_map]
  rfl

/-- No cell is written twice. -/
theorem nodup_places_writes (hsteps : registers.mapM (Step.ofRegisters m) = .ok steps) :
    (((writes m registers).flatMap (Write.cells check)).map (·.1)).Nodup := by
  rw [places_writes hsteps]
  have hplaces : cyclePlaces.Nodup := by decide
  have hlt : ∀ p ∈ cyclePlaces, p.2 < cycleHeight := by decide
  refine List.Nodup.map_on ?_ (List.nodup_range.product hplaces)
  rintro ⟨j, column, k⟩ hq ⟨j', column', k'⟩ hq' heq
  have hk : k < 16 := hlt _ (List.mem_product.mp hq).2
  have hk' : k' < 16 := hlt _ (List.mem_product.mp hq').2
  obtain ⟨rfl, hrow⟩ := Prod.mk.inj heq
  change 16 * j + k = 16 * j' + k' at hrow
  obtain rfl : j = j' := by omega
  obtain rfl : k = k' := by omega
  rfl

/-- Columns of enough rows can hold all that is written. -/
theorem exists_columns_areHeld (hsteps : registers.mapM (Step.ofRegisters m) = .ok steps)
    (hlength : cycleHeight * registers.length ≤ n) {width : Nat}
    (hwidth : Column.registers < width) :
    ∃ columns : List (Array Felt), columns.length = width ∧
      (∀ column ∈ columns, column.size = n) ∧ Write.AreHeld check columns (writes m registers) := by
  have hin : ∀ e ∈ (writes m registers).flatMap (Write.cells check),
      e.1.1 < width ∧ e.1.2 < n := by
    intro e he
    have hmem : e.1 ∈ ((writes m registers).flatMap (Write.cells check)).map (·.1) :=
      List.mem_map_of_mem he
    rw [places_writes hsteps] at hmem
    obtain ⟨⟨j, column, k⟩, hq, hplace⟩ := List.mem_map.mp hmem
    obtain ⟨hj, hk⟩ := List.mem_product.mp hq
    have hplaces : ∀ p ∈ cyclePlaces, p.1 ≤ Column.registers ∧ p.2 < cycleHeight := by decide
    obtain ⟨hcolumn, hk⟩ := hplaces _ hk
    rw [← hplace]
    refine ⟨hcolumn.trans_lt hwidth, cycle_row_lt (le_trans ?_ hlength) hk⟩
    rw [length_eq_of_mapM hsteps]
    exact Nat.mul_le_mul_left _ (List.mem_range.mp hj)
  obtain ⟨columns, hcolumns, hsizes, hcells⟩ :=
    exists_columns_of_nodup hin (nodup_places_writes hsteps)
  exact ⟨columns, hcolumns, hsizes, fun w hw e he => hcells e (List.mem_flatMap.mpr ⟨w, hw, he⟩)⟩

/-! ## Runs -/

/-- The steps that are written meet the constraints of decoding and of the operands on every cycle,
and their products are in place. The registers after a step meet the constraints on them exactly if
they are those that its instruction leads to. -/
theorem cycles_of_writes (hn : isPowerOfTwo n = true)
    (hsteps : registers.mapM (Step.ofRegisters m) = .ok steps)
    (hlength : cycleHeight * registers.length ≤ n)
    (hwords : ∀ s ∈ steps, s.word < 2 ^ 63 ∧
      ¬ (s.word.flag .opcodeCall = true ∧ s.word.flag .opcodeRet = true))
    (check : Option DilutedCheck) :
    (∀ width, Column.registers < width → ∃ columns : List (Array Felt), columns.length = width ∧
      (∀ column ∈ columns, column.size = n) ∧ Write.AreHeld check columns (writes m registers)) ∧
    ∀ columns : List (Array Felt), Write.AreHeld check columns (writes m registers) →
      ∀ (periodic : List PeriodicColumn) (b : Bindings) (i : Nat) (s : Step),
        steps[i]? = some s →
        (∀ c ∈ decodeConstraints ++ operandConstraints, c.HoldsOnCycle n columns periodic b i) ∧
        (∀ c ∈ productConstraints, c.expr.onRow n columns periodic b (cycleHeight * i) = 0) ∧
        ∀ r, registers[i + 1]? = some r →
          ((∀ c ∈ registerConstraints, c.HoldsOnCycle n columns periodic b i) ↔
            (r.pc : Felt) = s.nextPc ∧ (r.ap : Felt) = s.nextAp ∧ (r.fp : Felt) = s.nextFp) := by
  refine ⟨fun width hwidth => exists_columns_areHeld hsteps hlength hwidth,
    fun columns hheld periodic b i s hs => ?_⟩
  obtain ⟨hr, hsexec⟩ := getElem?_registers hsteps hs
  have hi : cycleHeight * (i + 1) ≤ n :=
    le_trans (Nat.mul_le_mul_left _ (List.getElem?_eq_some_iff.mp hr).1) hlength
  have hcycle := holdsStep_of_areHeld_writes hsteps hheld hs
  obtain ⟨hlt, hopcode⟩ := hwords s (List.mem_of_getElem? hs)
  have hdecodes := hcycle.decodes hsexec hlt hopcode
  have hproducts : ∀ c ∈ productConstraints,
      c.expr.onRow n columns periodic b (cycleHeight * i) = 0 :=
    (products_iff hn hi).mpr ⟨hcycle.tmp0_eq hsexec, hcycle.tmp1_eq hsexec⟩
  refine ⟨List.forall_mem_append.mpr ⟨(decodes_iff hn hi).mpr hdecodes,
    (operates_iff hn hi).mpr (hcycle.operates hsexec hdecodes)⟩, hproducts, fun r hnext => ?_⟩
  have hlt : i + 1 < registers.length := (List.getElem?_eq_some_iff.mp hnext).1
  have hi' : cycleHeight * (i + 1) < n :=
    lt_of_lt_of_le (Nat.mul_lt_mul_of_pos_left hlt (by decide)) hlength
  obtain ⟨t, ht⟩ : ∃ t, steps[i + 1]? = some t := by
    rw [length_eq_of_mapM hsteps] at hlt
    exact ⟨_, List.getElem?_eq_getElem hlt⟩
  obtain rfl : r = t.registers :=
    Option.some.inj (hnext.symm.trans (getElem?_registers hsteps ht).1)
  have hd := holdsStep_of_areHeld_writes hsteps hheld ht
  rw [registers_iff hn hi' hproducts, Cycle.updates_iff_next hdecodes (hcycle.tmp0_eq hsexec)
    (hcycle.tmp1_eq hsexec) (hcycle.res_eq_inv hsexec), hcycle.nextPc_eq hsexec, hcycle.nextAp_eq,
    hcycle.nextFp_eq, hd.pc, hd.ap, hd.fp]
  rfl

/-- A conditional jump by the word after it, which adds one to `ap`. -/
def jumpWord : Word := 722687009147027453

theorem jumpWord_flags : jumpWord.flag .dstReg = true ∧ jumpWord.flag .op0Reg = true ∧
    jumpWord.flag .pcJnz = true := by decide

theorem jumpWord_groups : jumpWord.group .op1Src = 1 ∧ jumpWord.group .pcUpdate = 4 ∧
    jumpWord.group .resLogic = 0 ∧ jumpWord.group .opcode = 0 ∧
    jumpWord.group .apUpdate = 2 := by decide

theorem jumpWord_offsets : jumpWord.dstOffset = 32765 ∧ jumpWord.op0Offset = 32767 ∧
    jumpWord.op1Offset = 32769 := by decide

/-- A program of two jumps that are taken. -/
def jumpMemory : Memory :=
  .ofList [(1, jumpWord), (2, 6), (7, jumpWord), (8, 6), (10, 1), (12, 5)]

def jumpStep (pc ap : Nat) : Step := ⟨jumpWord, pc, 12, 5, 10, 1, pc + 1, 6, ap, 13, 1, 1, 1⟩

theorem ofRegisters_jumpMemory :
    [⟨10, 13, 1⟩, ⟨11, 13, 7⟩].mapM (Step.ofRegisters jumpMemory) =
      .ok [jumpStep 1 10, jumpStep 7 11] := by
  have hget : jumpMemory.get 1 = .ok jumpWord ∧ jumpMemory.get 2 = .ok 6 ∧
      jumpMemory.get 7 = .ok jumpWord ∧ jumpMemory.get 8 = .ok 6 ∧ jumpMemory.get 10 = .ok 1 ∧
      jumpMemory.get 12 = .ok 5 := by
    simp [Memory.get, jumpMemory, Memory.ofList, Memory.get?_insert]
  have hvalues : (.ofNat 1 : Felt) = 1 ∧ (.ofNat 5 : Felt) = 5 ∧ (.ofNat 6 : Felt) = 6 := by decide
  simp [Step.ofRegisters, jumpStep, hget, jumpWord_flags, jumpWord_groups, jumpWord_offsets,
    hvalues, Except.mapError, bind, Except.bind, pure, Except.pure, narrow, offsetBias,
    Instruction.addressAt, Instruction.op0Address, Instruction.dstAddress, Instruction.op1Address,
    Instruction.op1Base, Instruction.load, Instruction.op0, Instruction.dst, Instruction.op1,
    Instruction.res, Instruction.tmp0, Instruction.tmp1]

theorem cycles_of_writes_sample : ∃ columns : List (Array Felt),
    Write.AreHeld none columns (writes jumpMemory [⟨10, 13, 1⟩, ⟨11, 13, 7⟩]) ∧
      (∀ c ∈ decodeConstraints ++ operandConstraints,
        c.HoldsOnCycle 32 columns [] ⟨[], [], 0⟩ 0) ∧
      ∀ c ∈ registerConstraints, c.HoldsOnCycle 32 columns [] ⟨[], [], 0⟩ 0 := by
  obtain ⟨hexists, hall⟩ := cycles_of_writes (n := 32) (by decide) ofRegisters_jumpMemory
    (by decide) (by decide) none
  obtain ⟨columns, -, -, hheld⟩ := hexists 6 (by decide)
  obtain ⟨hcycle, -, hnext⟩ := hall columns hheld [] ⟨[], [], 0⟩ 0 (jumpStep 1 10) rfl
  exact ⟨columns, hheld, hcycle, (hnext ⟨11, 13, 7⟩ rfl).mpr (by decide)⟩

end Cpu

end CairoTrace
