import CairoTrace.Machine.Instruction
import Mathlib.Tactic

/-!
# Digits of instruction words

The tails of the flags of a word lose one digit from a flag to the next (`Word.tail_eq`), down to
the last one, which is zero. A word of 63 digits is made of the first tail and of its offsets
(`Word.recombine_eq`), and of no other numbers of as many digits (`Word.tail_recombine` and the
lemmas beside it).
-/

namespace CairoTrace

namespace Word

/-- The number that the flags of a word write from a position on. -/
def tail (w : Word) (k : Nat) : Nat := w / 2 ^ (flagsBit + k) % 2 ^ (15 - k)

theorem flagTail_eq_tail (w : Word) (f : Flag) : w.flagTail f = w.tail f.position := by
  rw [flagTail, tail, Nat.shiftRight_eq_div_pow, Nat.one_shiftLeft]

/-- A flag is the lowest digit of its tail. -/
theorem tail_eq (w : Word) {k : Nat} (hk : k < 15) :
    w.tail k = (w.testBit (flagsBit + k)).toNat + 2 * w.tail (k + 1) := by
  have hbit : (w.testBit (flagsBit + k)).toNat = w / 2 ^ (flagsBit + k) % 2 := by
    rw [Nat.toNat_testBit]
  have hpow : 2 ^ (15 - k) = 2 * 2 ^ (15 - (k + 1)) := by
    rw [← Nat.pow_succ']
    congr 1
    omega
  rw [tail, tail, hpow, Nat.mod_mul, hbit, Nat.div_div_eq_div_mul, ← Nat.pow_succ]
  rfl

/-- The tails of a word are the first one without its lowest digits. -/
theorem tail_eq_div (w : Word) {k : Nat} (hk : k ≤ 15) : w.tail k = w.tail 0 / 2 ^ k := by
  have hpow : 2 ^ (15 - 0) = 2 ^ k * 2 ^ (15 - k) := by
    rw [← Nat.pow_add]
    congr 1
    omega
  rw [tail, tail, hpow, Nat.mod_mul_right_div_self, Nat.div_div_eq_div_mul, ← Nat.pow_add]
  rfl

/-! ## Offsets -/

/-- The number with given flags and offsets. -/
def recombine (tail op1 op0 dst : Nat) : Nat :=
  ((tail * 2 ^ 16 + op1) * 2 ^ 16 + op0) * 2 ^ 16 + dst

theorem dstOffset_lt (w : Word) : w.dstOffset < 2 ^ 16 := Nat.mod_lt _ (by decide)

theorem op0Offset_lt (w : Word) : w.op0Offset < 2 ^ 16 := Nat.mod_lt _ (by decide)

theorem op1Offset_lt (w : Word) : w.op1Offset < 2 ^ 16 := Nat.mod_lt _ (by decide)

theorem dstOffset_eq (w : Word) : w.dstOffset = w % 65536 := rfl

theorem op0Offset_eq (w : Word) : w.op0Offset = w / 65536 % 65536 := by
  rw [op0Offset, Nat.shiftRight_eq_div_pow]
  rfl

theorem op1Offset_eq (w : Word) : w.op1Offset = w / 4294967296 % 65536 := by
  rw [op1Offset, Nat.shiftRight_eq_div_pow]
  rfl

theorem tail_zero_eq (w : Word) : w.tail 0 = w / 281474976710656 % 32768 := rfl

/-- A word of 63 digits is made of its flags and of its offsets. -/
theorem recombine_eq {w : Nat} (hw : w < 2 ^ 63) :
    recombine (tail w 0) (op1Offset w) (op0Offset w) (dstOffset w) = w := by
  rw [recombine, tail_zero_eq, dstOffset_eq, op0Offset_eq, op1Offset_eq]
  omega

section Recombine

variable {tail op1 op0 dst : Nat} (htail : tail < 2 ^ 15) (hop1 : op1 < 2 ^ 16)
  (hop0 : op0 < 2 ^ 16) (hdst : dst < 2 ^ 16)
include htail hop1 hop0 hdst

theorem recombine_lt : recombine tail op1 op0 dst < 2 ^ 63 := by
  rw [recombine]
  omega

theorem tail_recombine : Word.tail (recombine tail op1 op0 dst) 0 = tail := by
  rw [tail_zero_eq, recombine]
  omega

omit htail in
theorem op1Offset_recombine : op1Offset (recombine tail op1 op0 dst) = op1 := by
  rw [op1Offset_eq, recombine]
  omega

omit htail hop1 in
theorem op0Offset_recombine : op0Offset (recombine tail op1 op0 dst) = op0 := by
  rw [op0Offset_eq, recombine]
  omega

omit htail hop1 hop0 in
theorem dstOffset_recombine : dstOffset (recombine tail op1 op0 dst) = dst := by
  rw [dstOffset_eq, recombine]
  omega

end Recombine

end Word

end CairoTrace
