import CairoTrace.Proofs.Component.CycleRows
import CairoTrace.Proofs.Word

/-!
# Decoding an instruction

The constraints that take an instruction apart can be met by the cells of its cycle exactly when the
instruction is a word of 63 digits, and by one choice of them only, which is the one of the decoder
(`exists_decoding_iff_and_eq_ofWord`). A tail is twice the next one and a digit, so it has as many
digits as there are flags from it on (`Cycle.Splits.val_tail_lt`); the instruction is then a sum of
numbers below the Stark prime, and its parts are found by division (`Cycle.Splits.val_instruction`).
-/

namespace CairoTrace

namespace Cpu

namespace Cycle

variable {c : Cycle}

/-- The offsets of a cycle have at most sixteen digits. -/
structure HasShortOffsets (c : Cycle) : Prop where
  dstOffset : c.dstOffset.val < 2 ^ 16
  op0Offset : c.op0Offset.val < 2 ^ 16
  op1Offset : c.op1Offset.val < 2 ^ 16

/-- The flag cells and the offset cells of a cycle hold the parts of a word. -/
structure HoldsParts (c : Cycle) (w : Word) : Prop where
  tail : ∀ f : Flag, c.tail f.position = (w.flagTail f : Felt)
  dstOffset : c.dstOffset = (w.dstOffset : Felt)
  op0Offset : c.op0Offset = (w.op0Offset : Felt)
  op1Offset : c.op1Offset = (w.op1Offset : Felt)

/-- Each row of a cycle has a flag. -/
theorem forall_tail_iff {p : Nat → Felt → Prop} :
    (∀ f : Flag, p f.position (c.tail f.position)) ↔ ∀ k ≤ 15, p k (c.tail k) := by
  constructor
  · intro h k hk
    have hposition : ∀ k : Fin 16, ∃ f ∈ Flag.all, f.position = k := by decide
    obtain ⟨f, -, rfl⟩ := hposition ⟨k, by omega⟩
    exact h f
  · intro h f
    apply h
    cases f <;> decide

theorem natCast_recombine (tail op1 op0 dst : Nat) :
    (Word.recombine tail op1 op0 dst : Felt) =
      (((tail : Felt) * 2 ^ 16 + op1) * 2 ^ 16 + op0) * 2 ^ 16 + dst := by
  simp only [Word.recombine, Nat.cast_add, Nat.cast_mul, Nat.cast_pow, Nat.cast_ofNat]

/-! ## From the cells to the word -/

namespace Splits

variable (h : c.Splits)
include h

theorem val_tail_eq {k : Nat} (hk : k < 15) (hlt : (c.tail (k + 1)).val < 2 ^ 15) :
    ∃ bit : Bool, (c.tail k).val = bit.toNat + 2 * (c.tail (k + 1)).val := by
  have hcast (bit : Bool) (hbit : c.tail k - 2 * c.tail (k + 1) = (bit.toNat : Felt)) :
      (c.tail k).val = bit.toNat + 2 * (c.tail (k + 1)).val := by
    have hsum : c.tail k = ((bit.toNat + 2 * (c.tail (k + 1)).val : Nat) : Felt) := by
      push_cast
      rw [Felt.natCast_val, ← hbit, sub_add_cancel]
    have hle := bit.toNat_le
    have hprime : 2 ^ 17 < starkPrime := by decide
    rw [hsum, Felt.val_natCast_of_lt (by omega)]
  rcases forall_bit_iff.mpr h.flag_bit k hk with hbit | hbit
  · exact ⟨false, hcast false (hbit.trans Nat.cast_zero.symm)⟩
  · exact ⟨true, hcast true (hbit.trans Nat.cast_one.symm)⟩

/-- A tail has as many digits as there are flags from it on. -/
theorem val_tail_lt {j k : Nat} (hk : k + j = 15) : (c.tail k).val < 2 ^ j := by
  induction j generalizing k with
  | zero =>
    have hzero : c.tail k = 0 := by
      rw [show k = Flag.zero.position from hk]
      exact h.tail_zero
    rw [hzero]
    decide
  | succ j ih =>
    have hnext : (c.tail (k + 1)).val < 2 ^ j := ih (by omega)
    have hpow : 2 ^ j ≤ 2 ^ 15 := Nat.pow_le_pow_right (by decide) (by omega)
    obtain ⟨bit, heq⟩ := h.val_tail_eq (by omega) (hnext.trans_le hpow)
    have hle := bit.toNat_le
    rw [heq, Nat.pow_succ]
    omega

/-- The tails are the first one without its lowest digits. -/
theorem val_tail_eq_div {k : Nat} (hk : k ≤ 15) :
    (c.tail k).val = (c.tail 0).val / 2 ^ k := by
  induction k with
  | zero => rw [Nat.pow_zero, Nat.div_one]
  | succ k ih =>
    have hnext : (c.tail (k + 1)).val < 2 ^ (14 - k) := h.val_tail_lt (by omega)
    have hpow : 2 ^ (14 - k) ≤ 2 ^ 15 := Nat.pow_le_pow_right (by decide) (by omega)
    obtain ⟨bit, heq⟩ := h.val_tail_eq (by omega) (hnext.trans_le hpow)
    have hle := bit.toNat_le
    rw [Nat.pow_succ, ← Nat.div_div_eq_div_mul, ← ih (by omega), heq]
    omega

theorem val_instruction (hoffsets : c.HasShortOffsets) :
    c.instruction.val =
      Word.recombine (c.tail 0).val c.op1Offset.val c.op0Offset.val c.dstOffset.val := by
  have hlt := Word.recombine_lt (h.val_tail_lt (k := 0) rfl) hoffsets.op1Offset
    hoffsets.op0Offset hoffsets.dstOffset
  have hprime : 2 ^ 63 < starkPrime := by decide
  rw [h.instruction, ← Felt.val_natCast_of_lt (hlt.trans hprime), natCast_recombine]
  simp only [Felt.natCast_val]

theorem instruction_lt (hoffsets : c.HasShortOffsets) : c.instruction.val < 2 ^ 63 := by
  have htail : (c.tail 0).val < 2 ^ 15 := h.val_tail_lt rfl
  rw [h.val_instruction hoffsets]
  exact Word.recombine_lt htail hoffsets.op1Offset hoffsets.op0Offset
    hoffsets.dstOffset

theorem holdsParts (hoffsets : c.HasShortOffsets) : c.HoldsParts c.instruction.val := by
  have htail : (c.tail 0).val < 2 ^ 15 := h.val_tail_lt rfl
  obtain ⟨hdst, hop0, hop1⟩ := hoffsets
  have hfirst : Word.tail c.instruction.val 0 = (c.tail 0).val := by
    rw [h.val_instruction ⟨hdst, hop0, hop1⟩, Word.tail_recombine htail hop1 hop0 hdst]
  constructor
  · simp only [Word.flagTail_eq_tail]
    rw [forall_tail_iff (p := fun k t => t = (Word.tail c.instruction.val k : Felt))]
    intro k hk
    rw [Word.tail_eq_div _ hk, hfirst, ← h.val_tail_eq_div hk, Felt.natCast_val]
  · rw [h.val_instruction ⟨hdst, hop0, hop1⟩, Word.dstOffset_recombine hdst, Felt.natCast_val]
  · rw [h.val_instruction ⟨hdst, hop0, hop1⟩, Word.op0Offset_recombine hop0 hdst,
      Felt.natCast_val]
  · rw [h.val_instruction ⟨hdst, hop0, hop1⟩, Word.op1Offset_recombine hop1 hop0 hdst,
      Felt.natCast_val]

end Splits

/-! ## From the word to the cells -/

namespace HoldsParts

variable {w : Word} (h : c.HoldsParts w)
include h

theorem tail_eq {k : Nat} (hk : k ≤ 15) : c.tail k = (w.tail k : Felt) := by
  have htail := h.tail
  simp only [Word.flagTail_eq_tail] at htail
  exact (forall_tail_iff (p := fun k t => t = (w.tail k : Felt))).mp htail k hk

theorem flag_eq {f : Flag} (hf : f ≠ .zero) : c.flag f = ((w.flag f).toNat : Felt) := by
  have hlt : f.position < 15 := by
    cases f
    case zero => exact absurd rfl hf
    all_goals decide
  rw [flag, h.tail_eq hlt.le, h.tail_eq hlt, Word.tail_eq w hlt]
  push_cast
  rw [add_sub_cancel_right, Word.flag]

theorem hasShortOffsets : c.HasShortOffsets := by
  have hprime : 2 ^ 16 < starkPrime := by decide
  have hval {k : Nat} (hk : k < 2 ^ 16) : (k : Felt).val < 2 ^ 16 := by
    rwa [Felt.val_natCast_of_lt (hk.trans hprime)]
  constructor
  · rw [h.dstOffset]
    exact hval w.dstOffset_lt
  · rw [h.op0Offset]
    exact hval w.op0Offset_lt
  · rw [h.op1Offset]
    exact hval w.op1Offset_lt

end HoldsParts

theorem splits_of_holdsParts (hlt : c.instruction.val < 2 ^ 63)
    (h : c.HoldsParts c.instruction.val) : c.Splits := by
  constructor
  · intro f hf
    rw [h.flag_eq hf]
    cases Word.flag c.instruction.val f with
    | false => exact Or.inl Nat.cast_zero
    | true => exact Or.inr Nat.cast_one
  · rw [h.tail, Word.flagTail_eq_tail]
    have hzero : Word.tail c.instruction.val Flag.zero.position = 0 := Nat.mod_one _
    rw [hzero, Nat.cast_zero]
  · have hsum := natCast_recombine (Word.tail c.instruction.val 0)
      (Word.op1Offset c.instruction.val) (Word.op0Offset c.instruction.val)
      (Word.dstOffset c.instruction.val)
    rw [Word.recombine_eq hlt, Felt.natCast_val] at hsum
    rwa [h.tail_eq (Nat.zero_le 15), h.op1Offset, h.op0Offset, h.dstOffset]

end Cycle

/-! ## Decodings -/

/-- The names of the constraints that take an instruction apart. -/
def splitNames : List String :=
  ["cpu/decode/opcode_rc/bit", "cpu/decode/opcode_rc/zero", "cpu/decode/opcode_rc_input"]

/-- Values for the cells of a cycle that its instruction is taken apart into. -/
@[ext]
structure Decoding where
  tail : Flag → Felt
  dstOffset : Felt
  op0Offset : Felt
  op1Offset : Felt

namespace Decoding

/-- The parts of a word as a decoder finds them. -/
@[simps]
def ofWord (w : Word) : Decoding where
  tail f := w.flagTail f
  dstOffset := w.dstOffset
  op0Offset := w.op0Offset
  op1Offset := w.op1Offset

variable (d : Decoding) (columns : List (Array Felt)) (i : Nat)

/-- The value that a decoding has for a cell of a cycle, if any. -/
def cell? (column k : Nat) : Option Felt :=
  if column = Column.flags then Flag.all[k]?.map d.tail
  else if column = Column.rangeCheckPool then
    [(Cpu.dstOffset.offset, d.dstOffset), (Cpu.op0Offset.offset, d.op0Offset),
      (Cpu.op1Offset.offset, d.op1Offset)].lookup k
  else none

/-- The trace with a decoding in the cells of a cycle. -/
def fill : List (Array Felt) :=
  columns.mapIdx fun column values => values.mapIdx fun row value =>
    if row / cycleHeight = i then (d.cell? column (row % cycleHeight)).getD value else value

/-- Whether the constraints that take an instruction apart hold once a decoding is in the cells of a
cycle, the offsets having at most sixteen digits. -/
structure IsAccepted (n : Nat) (periodic : List PeriodicColumn) (b : Bindings) : Prop where
  dstOffset_lt : d.dstOffset.val < 2 ^ 16
  op0Offset_lt : d.op0Offset.val < 2 ^ 16
  op1Offset_lt : d.op1Offset.val < 2 ^ 16
  holds : ∀ c ∈ constraints, c.name ∈ splitNames →
    c.HoldsOnCycle n (d.fill columns i) periodic b i

end Decoding

section Trace

variable {d : Decoding} {n i : Nat} {columns : List (Array Felt)} {periodic : List PeriodicColumn}
  {b : Bindings} (hi : cycleHeight * (i + 1) ≤ n) (hsize : ∀ values ∈ columns, values.size = n)
  (hcolumns : Column.memoryPool < columns.length)

namespace Decoding

include hi hsize

theorem traceCell_fill {column k : Nat} (hcolumn : column < columns.length)
    (hk : k < cycleHeight) :
    traceCell (d.fill columns i) column (cycleHeight * i + k) =
      (d.cell? column k).getD (traceCell columns column (cycleHeight * i + k)) := by
  have hvalues : columns[column]? = some columns[column] := List.getElem?_eq_getElem hcolumn
  have hlt : cycleHeight * i + k < columns[column].size := by
    rw [hsize _ (List.getElem_mem hcolumn)]
    exact cycle_row_lt hi hk
  have hdiv : (cycleHeight * i + k) / cycleHeight = i := by
    rw [Nat.mul_add_div (by decide), Nat.div_eq_of_lt hk, add_zero]
  have hmod : (cycleHeight * i + k) % cycleHeight = k := by
    rw [Nat.mul_add_mod, Nat.mod_eq_of_lt hk]
  simp only [traceCell, fill, List.getElem?_mapIdx, hvalues, Option.map_some, Option.getD_some,
    Array.getElem?_mapIdx, Array.getElem?_eq_getElem hlt, hdiv, hmod, if_true]

include hcolumns

theorem tail_fill (f : Flag) : (cycleAt (d.fill columns i) i).tail f.position = d.tail f := by
  have hposition : f.position < cycleHeight := by cases f <;> decide
  have hflag : Flag.all[f.position]? = some f := by cases f <;> rfl
  have hlt : Column.flags < columns.length := by
    unfold Column.memoryPool at hcolumns
    unfold Column.flags
    omega
  rw [cycleAt_tail, traceCell_fill hi hsize hlt hposition, cell?, if_pos rfl, hflag,
    Option.map_some, Option.getD_some]

theorem cellAt_fill {c : VirtualColumn} (hc : c.step = cycleHeight ∧ c.offset < cycleHeight)
    (hcolumn : c.column ≤ Column.memoryPool) :
    c.cellAt (d.fill columns i) i =
      (d.cell? c.column c.offset).getD (c.cellAt columns i) := by
  rw [VirtualColumn.cellAt, VirtualColumn.cellAt, VirtualColumn.row, hc.1, add_comm]
  exact traceCell_fill hi hsize (hcolumn.trans_lt hcolumns) hc.2

theorem dstOffset_fill : (cycleAt (d.fill columns i) i).dstOffset = d.dstOffset :=
  cellAt_fill hi hsize hcolumns (by decide) (by decide)

theorem op0Offset_fill : (cycleAt (d.fill columns i) i).op0Offset = d.op0Offset :=
  cellAt_fill hi hsize hcolumns (by decide) (by decide)

theorem op1Offset_fill : (cycleAt (d.fill columns i) i).op1Offset = d.op1Offset :=
  cellAt_fill hi hsize hcolumns (by decide) (by decide)

theorem instruction_fill :
    (cycleAt (d.fill columns i) i).instruction = Cpu.instruction.cellAt columns i :=
  cellAt_fill hi hsize hcolumns (by decide) (by decide)

/-- A decoding is found in the cells that it is written to. -/
theorem holdsParts_fill_iff {w : Word} :
    (cycleAt (d.fill columns i) i).HoldsParts w ↔ d = ofWord w := by
  constructor
  · intro h
    ext f
    · rw [← tail_fill hi hsize hcolumns, h.tail, ofWord_tail]
    · rw [← dstOffset_fill hi hsize hcolumns, h.dstOffset, ofWord_dstOffset]
    · rw [← op0Offset_fill hi hsize hcolumns, h.op0Offset, ofWord_op0Offset]
    · rw [← op1Offset_fill hi hsize hcolumns, h.op1Offset, ofWord_op1Offset]
  · rintro rfl
    constructor
    · intro f
      rw [tail_fill hi hsize hcolumns, ofWord_tail]
    · rw [dstOffset_fill hi hsize hcolumns, ofWord_dstOffset]
    · rw [op0Offset_fill hi hsize hcolumns, ofWord_op0Offset]
    · rw [op1Offset_fill hi hsize hcolumns, ofWord_op1Offset]

theorem isAccepted_iff (hn : isPowerOfTwo n = true) :
    d.IsAccepted columns i n periodic b ↔
      (cycleAt (d.fill columns i) i).HasShortOffsets ∧ (cycleAt (d.fill columns i) i).Splits := by
  have hnamed : ∀ c ∈ splitConstraints, c.name ∈ splitNames := by decide
  have hother : ∀ c ∈ constraints.drop 3, c.name ∉ splitNames := by decide
  have happend : constraints = splitConstraints ++ constraints.drop 3 := rfl
  have hmem (c : Constraint) : c ∈ constraints ∧ c.name ∈ splitNames ↔ c ∈ splitConstraints := by
    rw [happend, List.mem_append]
    constructor
    · rintro ⟨hc | hc, hname⟩
      · exact hc
      · exact absurd hname (hother c hc)
    · intro hc
      exact ⟨Or.inl hc, hnamed c hc⟩
  have hsplits : (∀ c ∈ splitConstraints,
      c.HoldsOnCycle n (d.fill columns i) periodic b i) ↔ _ := splits_iff hn hi
  rw [← hsplits]
  constructor
  · rintro ⟨hdst, hop0, hop1, hholds⟩
    refine ⟨⟨?_, ?_, ?_⟩, fun c hc => ?_⟩
    · rwa [dstOffset_fill hi hsize hcolumns]
    · rwa [op0Offset_fill hi hsize hcolumns]
    · rwa [op1Offset_fill hi hsize hcolumns]
    · obtain ⟨hc, hname⟩ := (hmem c).mpr hc
      exact hholds c hc hname
  · rintro ⟨⟨hdst, hop0, hop1⟩, hholds⟩
    rw [dstOffset_fill hi hsize hcolumns] at hdst
    rw [op0Offset_fill hi hsize hcolumns] at hop0
    rw [op1Offset_fill hi hsize hcolumns] at hop1
    exact ⟨hdst, hop0, hop1, fun c hc hname => hholds c ((hmem c).mp ⟨hc, hname⟩)⟩

end Decoding

include hi hsize hcolumns

/-- A cycle can be decoded exactly if its instruction is a word of 63 digits, and its flags and
offsets are those that a decoder finds in the word. -/
theorem exists_decoding_iff_and_eq_ofWord (hn : isPowerOfTwo n = true) :
    ((∃ d : Decoding, d.IsAccepted columns i n periodic b) ↔
      (instruction.cellAt columns i).val < 2 ^ 63) ∧
    ∀ d : Decoding, d.IsAccepted columns i n periodic b →
      d = .ofWord (instruction.cellAt columns i).val ∧
      ∀ f, f ≠ .zero → (cycleAt (d.fill columns i) i).flag f =
        ((Word.flag (instruction.cellAt columns i).val f).toNat : Felt) := by
  have hparts {d : Decoding} (h : d.IsAccepted columns i n periodic b) :
      (cycleAt (d.fill columns i) i).HoldsParts (instruction.cellAt columns i).val := by
    obtain ⟨hoffsets, hsplits⟩ := (Decoding.isAccepted_iff hi hsize hcolumns hn).mp h
    rw [← Decoding.instruction_fill hi hsize hcolumns (d := d)]
    exact hsplits.holdsParts hoffsets
  refine ⟨⟨?_, ?_⟩, ?_⟩
  · rintro ⟨d, h⟩
    obtain ⟨hoffsets, hsplits⟩ := (Decoding.isAccepted_iff hi hsize hcolumns hn).mp h
    rw [← Decoding.instruction_fill hi hsize hcolumns (d := d)]
    exact hsplits.instruction_lt hoffsets
  · intro hlt
    have h := (Decoding.holdsParts_fill_iff hi hsize hcolumns).mpr
      (rfl : _ = Decoding.ofWord (instruction.cellAt columns i).val)
    refine ⟨.ofWord (instruction.cellAt columns i).val, ?_⟩
    rw [Decoding.isAccepted_iff hi hsize hcolumns hn]
    refine ⟨h.hasShortOffsets, Cycle.splits_of_holdsParts ?_ ?_⟩
    · rwa [Decoding.instruction_fill hi hsize hcolumns]
    · rwa [Decoding.instruction_fill hi hsize hcolumns]
  · intro d h
    exact ⟨(Decoding.holdsParts_fill_iff hi hsize hcolumns).mp (hparts h),
      fun f hf => (hparts h).flag_eq hf⟩

end Trace

/-- The columns of a single cycle with an instruction that asserts an equality. -/
def assertionColumns : List (Array Felt) :=
  columnsOfNumbers
    (List.replicate 3 (.replicate 16 0) ++ [[0, 4613515612218425344] ++ .replicate 14 0])

theorem decoding_assertion : ∃ d : Decoding, d.IsAccepted assertionColumns 0 16 [] ⟨[], [], 0⟩ ∧
    d = .ofWord 4613515612218425344 := by
  have hiff : ((∃ d : Decoding, d.IsAccepted assertionColumns 0 16 [] ⟨[], [], 0⟩) ↔
      (instruction.cellAt assertionColumns 0).val < 2 ^ 63) ∧ _ :=
    exists_decoding_iff_and_eq_ofWord (by decide) (by decide) (by decide) (by decide)
  obtain ⟨d, hd⟩ := hiff.1.mpr (by decide)
  exact ⟨d, hd, (hiff.2 d hd).1⟩

end Cpu

end CairoTrace
