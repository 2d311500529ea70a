import CairoTrace.Proofs.Layout.Config
import CairoTrace.Proofs.Strands

/-!
# The strands of a word

Strand `k` of a word is the dilution of the digits that the word has at the places of the strand
(`Dilution.IsSpread.strand_eq`), and the strands make up the word
(`Dilution.IsSpread.joined_digits`). Operations on words are operations on the digits of their
strands, so that the strands of two words add up to those of the exclusive disjunction and twice
those of the conjunction (`Dilution.IsSpread.diluted_digits_add`). Strands of the last chunk have no
digits above the word (`Dilution.IsSpread.digits_top_lt`), and fit into a strand when they are moved
to its upper end (`Dilution.IsSpread.diluted_trimValue`).
-/

namespace CairoTrace

open Finset

namespace Dilution

variable {d : Dilution} {w x y : Word} {k j t : Nat}

/-! ## Digits of a strand -/

/-- The digits of strand `k` of a word, next to each other. -/
def digits (d : Dilution) (w : Word) (k : Nat) : Nat :=
  ∑ t ∈ range d.bits, (w.testBit (d.place k t)).toNat * 2 ^ t

theorem testBit_digits :
    (d.digits w k).testBit t = (decide (t < d.bits) && w.testBit (d.place k t)) :=
  testBit_sum_two_pow (fun t => w.testBit (d.place k t)) d.bits t

theorem testBit_digits_of_lt (ht : t < d.bits) :
    (d.digits w k).testBit t = w.testBit (d.place k t) := by
  rw [testBit_digits, decide_eq_true ht, Bool.true_and]

theorem digits_lt : d.digits w k < 2 ^ d.bits :=
  sum_digits_lt_pow fun _ _ => Bool.toNat_lt _

/-- The digits of a disjunction are those of the conjunction and of the exclusive disjunction. -/
theorem digits_and_or_digits_xor :
    d.digits (x &&& y) k ||| d.digits (x ^^^ y) k = d.digits (x ||| y) k := by
  apply Nat.eq_of_testBit_eq
  intro t
  simp only [Nat.testBit_or, testBit_digits, Nat.testBit_and, Nat.testBit_xor]
  cases decide (t < d.bits) <;> cases x.testBit (d.place k t) <;> cases y.testBit (d.place k t) <;>
    rfl

theorem getElem?_partition (hk : k < d.strands) : (d.partition w)[k]? = some (d.strand w k) := by
  rw [partition, List.getElem?_map, List.getElem?_range hk, Option.map_some]

/-- What is chosen of a dilution: its digits are places of a word of 256 digits. -/
structure IsSpread (d : Dilution) : Prop where
  spacing_pos : 0 < d.spacing
  bits_pos : 0 < d.bits
  places_le : d.bits * d.spacing ≤ 256
  totalBits_pos : 0 < d.totalBits
  totalBits_le : d.totalBits ≤ 251

theorem isSpread_of_isUsable (h : LayoutConfig.isUsable d = true) : d.IsSpread := by
  obtain ⟨hspacing, hbits, -, hchunk, htotal, hword⟩ := LayoutConfig.isUsable_iff.mp h
  rw [chunkBits, mul_comm] at hchunk
  exact ⟨hspacing, hbits, hchunk, htotal, Nat.le_of_lt_succ hword⟩

namespace IsSpread

variable (h : d.IsSpread)
include h

/-- Filling in the digits of a strand one by one dilutes them. -/
theorem foldl_eq_dilute (hw : w < 2 ^ 256) {count : Nat} (hcount : count ≤ d.bits) :
    (List.range count).foldl (fun s t =>
      let place := d.strandShift k + d.spacing * t
      if place < 256 then setBit s (d.spacing * t) (w.testBit place) else s) 0 =
      dilute (d.digits w k) d.spacing count := by
  induction count with
  | zero => rfl
  | succ count ih =>
    have hplaces : (count + 1) * d.spacing ≤ 256 :=
      (Nat.mul_le_mul_right _ hcount).trans h.places_le
    rw [Nat.succ_mul] at hplaces
    have hplace : count * d.spacing < 256 := by
      have hspacing := h.spacing_pos
      omega
    rw [List.range_succ, List.foldl_append, List.foldl_cons, List.foldl_nil,
      ih (Nat.le_of_succ_le hcount), dilute, testBit_digits_of_lt hcount, place,
      mul_comm d.spacing]
    by_cases hlt : d.strandShift k + count * d.spacing < 256
    · exact if_pos hlt
    · -- above the word there are no digits to set
      have hzero : w.testBit (d.strandShift k + count * d.spacing) = false :=
        Nat.testBit_lt_two_pow (hw.trans_le (Nat.pow_le_pow_right two_pos (not_lt.mp hlt)))
      have hlow := dilute_lt (w := d.digits w k) h.spacing_pos hplace.le
      rw [hzero, setBit_of_lt hplace hlow, if_neg Bool.false_ne_true, add_zero]
      exact if_neg hlt

theorem lt_two_pow_256 (hw : w < 2 ^ d.totalBits) : w < 2 ^ 256 :=
  hw.trans_le (Nat.pow_le_pow_right two_pos (h.totalBits_le.trans (by decide)))

theorem strand_eq (hw : w < 2 ^ d.totalBits) : d.strand w k = d.diluted (d.digits w k) :=
  h.foldl_eq_dilute (h.lt_two_pow_256 hw) le_rfl

/-! ## Words -/

theorem totalBits_le_chunks : d.totalBits ≤ d.chunks * d.chunkBits := by
  have hpos : 0 < d.chunkBits := Nat.mul_pos h.spacing_pos h.bits_pos
  have hlt := Nat.lt_div_mul_add (a := d.totalBits + d.chunkBits - 1) hpos
  rw [← chunks] at hlt
  omega

/-- Each digit of a word is in one of its strands. -/
theorem joined_digits (hw : w < 2 ^ d.totalBits) : d.joined (d.digits w) = w := by
  apply Nat.eq_of_testBit_eq
  intro q
  rw [testBit_joined h.spacing_pos h.bits_pos h.places_le,
    testBit_digits_of_lt (digitOf_lt h.spacing_pos h.bits_pos q), place_strandOf h.spacing_pos]
  by_cases hq : q < d.chunks * d.chunkBits
  · rw [decide_eq_true hq, Bool.true_and]
  · have hle : d.totalBits ≤ q := h.totalBits_le_chunks.trans (not_lt.mp hq)
    rw [decide_eq_false hq, Bool.false_and,
      Nat.testBit_lt_two_pow (hw.trans_le (Nat.pow_le_pow_right two_pos hle))]

theorem diluted_digits_add : d.diluted (d.digits x k) + d.diluted (d.digits y k) =
    d.diluted (d.digits (x ^^^ y) k) + 2 * d.diluted (d.digits (x &&& y) k) := by
  refine dilute_add_dilute h.spacing_pos h.places_le fun t ht => ?_
  simp only [testBit_digits_of_lt ht, Nat.testBit_xor, Nat.testBit_and]
  cases x.testBit (d.place k t) <;> cases y.testBit (d.place k t) <;> rfl

/-- The conjunction and the exclusive disjunction have no digit in common. -/
theorem diluted_digits_or :
    d.diluted (d.digits (x &&& y) k) + d.diluted (d.digits (x ^^^ y) k) =
      d.diluted (d.digits (x ||| y) k) := by
  have hsum := dilute_add_dilute (x := d.digits (x &&& y) k) (y := d.digits (x ^^^ y) k)
    (r := d.digits (x ||| y) k) (a := 0) (k := 0) h.spacing_pos h.places_le fun t ht => by
      simp only [testBit_digits_of_lt ht, Nat.testBit_xor, Nat.testBit_and, Nat.testBit_or,
        zero_mul, add_zero]
      cases x.testBit (d.place k t) <;> cases y.testBit (d.place k t) <;> rfl
  rwa [zero_mul, add_zero] at hsum

/-! ## The last chunk -/

/-- The digits that strand `j` of the last chunk does not use are above the word. -/
theorem testBit_digits_top (hw : w < 2 ^ d.totalBits) (hj : j < d.spacing)
    (ht : d.topStrandBits j ≤ t) :
    (d.digits w ((d.chunks - 1) * d.spacing + j)).testBit t = false := by
  by_cases hlt : t < d.bits
  · have hplace : d.totalBits ≤ d.place ((d.chunks - 1) * d.spacing + j) t := by
      rw [← not_lt, ← lt_topStrandBits_iff h.spacing_pos hj hlt]
      exact not_lt.mpr ht
    rw [testBit_digits_of_lt hlt,
      Nat.testBit_lt_two_pow (hw.trans_le (Nat.pow_le_pow_right two_pos hplace))]
  · rw [testBit_digits, decide_eq_false hlt, Bool.false_and]

theorem digits_top_lt (hw : w < 2 ^ d.totalBits) (hj : j < d.spacing) :
    d.digits w ((d.chunks - 1) * d.spacing + j) < 2 ^ d.topStrandBits j :=
  Nat.lt_pow_two_of_testBit _ fun _ ht => h.testBit_digits_top hw hj ht

end IsSpread

/-- The digits of strand `j` of the last chunk, moved to the upper end of a strand. -/
def trimValue (d : Dilution) (w : Word) (j : Nat) : Nat :=
  d.digits w ((d.chunks - 1) * d.spacing + j) <<< (d.bits - d.topStrandBits j)

namespace IsSpread

variable (h : d.IsSpread)
include h

/-- Digits that are moved past those that a strand does not use still fit into it. -/
theorem trimValue_lt (hw : w < 2 ^ d.totalBits) (hj : j < d.spacing) :
    d.trimValue w j < 2 ^ d.bits := by
  have hle : d.topStrandBits j ≤ d.bits := Nat.min_le_left _ _
  have hlt := Nat.mul_lt_mul_of_pos_right (h.digits_top_lt hw hj)
    (Nat.two_pow_pos (d.bits - d.topStrandBits j))
  rwa [← Nat.shiftLeft_eq, ← pow_add, Nat.add_sub_cancel' hle] at hlt

theorem diluted_trimValue (hw : w < 2 ^ d.totalBits) (hj : j < d.spacing) :
    d.diluted (d.trimValue w j) =
      d.diluted (d.digits w ((d.chunks - 1) * d.spacing + j)) *
        2 ^ (d.spacing * (d.bits - d.topStrandBits j)) := by
  have hbits : d.bits - d.topStrandBits j + d.topStrandBits j = d.bits :=
    Nat.sub_add_cancel (Nat.min_le_left _ _)
  have hshift := dilute_shiftLeft (d.bits - d.topStrandBits j) h.spacing_pos
    (hbits.symm ▸ h.places_le) (h.digits_top_lt hw hj)
  rwa [hbits] at hshift

end IsSpread

end Dilution

end CairoTrace
