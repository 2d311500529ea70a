import CairoTrace.Proofs.Dilution

/-!
# Numbers in strands

Diluted numbers have room for a carry if their digits are at least two places apart: when two of
them are the sum of a third and of twice a fourth, the digits of the third are the exclusive
disjunctions of theirs, and those of the fourth the conjunctions (`testBit_of_dilute_add`). A word
whose strands are given has each digit of a strand at a place of its own
(`Dilution.testBit_joined`), and is below the power of two of its size if the strands of the last
chunk have no digits above it (`Dilution.joined_lt`).
-/

namespace CairoTrace

open Finset

/-! ## Digits -/

section Digits

variable {m count : Nat} {c : Nat → Nat}

theorem sum_digits_lt_pow (hc : ∀ t < count, c t < m) :
    ∑ t ∈ range count, c t * m ^ t < m ^ count := by
  induction count with
  | zero => simp
  | succ count ih =>
    have hlow := ih fun t ht => hc t (by omega)
    have hdigit : c count + 1 ≤ m := hc count (Nat.lt_succ_self count)
    calc ∑ t ∈ range (count + 1), c t * m ^ t
        < m ^ count + c count * m ^ count := by
          rw [sum_range_succ]
          omega
      _ = (c count + 1) * m ^ count := by ring
      _ ≤ m * m ^ count := Nat.mul_le_mul_right _ hdigit
      _ = m ^ (count + 1) := (pow_succ' m count).symm

/-- Digits below the base are found by division. -/
theorem digit_of_sum (hc : ∀ t < count, c t < m) {k : Nat} (hk : k < count) :
    (∑ t ∈ range count, c t * m ^ t) / m ^ k % m = c k := by
  have hpos : 0 < m := Nat.zero_lt_of_lt (hc k hk)
  have hlow := sum_digits_lt_pow fun t ht => hc t (ht.trans hk)
  obtain ⟨j, rfl⟩ := Nat.exists_eq_add_of_lt hk
  have hsplit : ∑ t ∈ range (k + j + 1), c t * m ^ t = ∑ t ∈ range k, c t * m ^ t +
      m ^ k * (m * ∑ t ∈ range j, c (k + (t + 1)) * m ^ t + c k) := by
    rw [add_assoc, sum_range_add, sum_range_succ', add_zero, mul_add, mul_sum, mul_sum]
    congr 2
    · apply sum_congr rfl
      intro t _
      ring
    · ring
  rw [hsplit, Nat.add_mul_div_left _ _ (pow_pos hpos k), Nat.div_eq_of_lt hlow, zero_add,
    Nat.mul_add_mod, Nat.mod_eq_of_lt (hc k hk)]

theorem testBit_sum_two_pow (f : Nat → Bool) (count q : Nat) :
    (∑ t ∈ range count, (f t).toNat * 2 ^ t).testBit q = (decide (q < count) && f q) := by
  have hdigits (t : Nat) (_ : t < count) : (f t).toNat < 2 := (f t).toNat_lt
  by_cases hq : q < count
  · rw [Nat.testBit_eq_decide_div_mod_eq, digit_of_sum hdigits hq, decide_eq_true hq,
      Bool.true_and]
    cases f q <;> rfl
  · rw [Nat.testBit_lt_two_pow ((sum_digits_lt_pow hdigits).trans_le
      (Nat.pow_le_pow_right (by decide) (not_lt.mp hq))), decide_eq_false hq, Bool.false_and]

theorem sum_testBit {x : Nat} (hx : x < 2 ^ count) :
    ∑ t ∈ range count, (x.testBit t).toNat * 2 ^ t = x := by
  apply Nat.eq_of_testBit_eq
  intro q
  rw [testBit_sum_two_pow fun q => x.testBit q]
  by_cases hq : q < count
  · rw [decide_eq_true hq, Bool.true_and]
  · rw [decide_eq_false hq, Bool.false_and, Nat.testBit_lt_two_pow
      (hx.trans_le (Nat.pow_le_pow_right (by decide) (not_lt.mp hq)))]

/-- The digits of a conjunction and of an exclusive disjunction are never both set. -/
theorem and_add_xor {x y : Nat} (hx : x < 2 ^ count) (hy : y < 2 ^ count) :
    (x &&& y) + (x ^^^ y) = x ||| y := by
  rw [← sum_testBit (Nat.and_lt_two_pow x hy), ← sum_testBit (Nat.xor_lt_two_pow hx hy),
    ← sum_testBit (Nat.or_lt_two_pow hx hy), ← sum_add_distrib]
  apply sum_congr rfl
  intro t _
  rw [← add_mul, Nat.testBit_and, Nat.testBit_xor, Nat.testBit_or]
  cases x.testBit t <;> cases y.testBit t <;> rfl

end Digits

/-! ## Diluted numbers -/

section Diluted

variable {spacing bits : Nat}

theorem dilute_eq_sum_digits {w : Word} (hspacing : 0 < spacing) (hplaces : bits * spacing ≤ 256) :
    dilute w spacing bits = ∑ t ∈ range bits, (w.testBit t).toNat * (2 ^ spacing) ^ t := by
  rw [dilute_eq_sum hspacing hplaces]
  apply sum_congr rfl
  intro t _
  rw [← pow_mul, mul_comm spacing]
  cases w.testBit t <;> simp

theorem dilute_lt {w : Word} (hspacing : 0 < spacing) (hplaces : bits * spacing ≤ 256) :
    dilute w spacing bits < 2 ^ (bits * spacing) := by
  rw [dilute_eq_sum hspacing hplaces]
  exact sum_digits_lt hspacing w bits

/-- There is room for a digit that is one, two or three. -/
theorem digit_of_dilute_add {u v : Word} {k : Nat} (hk : k ≤ 2) (hspacing : 2 ≤ spacing)
    (hplaces : bits * spacing ≤ 256) {t : Nat} (ht : t < bits) :
    (dilute u spacing bits + k * dilute v spacing bits) / (2 ^ spacing) ^ t % 2 ^ spacing =
      (u.testBit t).toNat + k * (v.testBit t).toNat := by
  have hpos : 0 < spacing := by omega
  have hbase : 4 ≤ 2 ^ spacing := Nat.pow_le_pow_right (by decide : 0 < 2) hspacing
  have hdigits (t : Nat) (_ : t < bits) :
      (u.testBit t).toNat + k * (v.testBit t).toNat < 2 ^ spacing := by
    have hu := (u.testBit t).toNat_le
    have hv := Nat.mul_le_mul hk (v.testBit t).toNat_le
    omega
  have hsum : dilute u spacing bits + k * dilute v spacing bits =
      ∑ t ∈ range bits, ((u.testBit t).toNat + k * (v.testBit t).toNat) * (2 ^ spacing) ^ t := by
    rw [dilute_eq_sum_digits hpos hplaces, dilute_eq_sum_digits hpos hplaces, mul_sum,
      ← sum_add_distrib]
    apply sum_congr rfl
    intro t _
    ring
  rw [hsum, digit_of_sum hdigits ht]

/-- The carry of a digit has a place of its own. -/
theorem testBit_of_dilute_add {x y a r : Word} (hspacing : 2 ≤ spacing)
    (hplaces : bits * spacing ≤ 256)
    (h : dilute x spacing bits + dilute y spacing bits =
      dilute r spacing bits + 2 * dilute a spacing bits) {t : Nat} (ht : t < bits) :
    a.testBit t = (x.testBit t && y.testBit t) ∧ r.testBit t = (x.testBit t ^^ y.testBit t) := by
  have hleft := digit_of_dilute_add (u := x) (v := y) one_le_two hspacing hplaces ht
  have hright := digit_of_dilute_add (u := r) (v := a) le_rfl hspacing hplaces ht
  rw [one_mul, one_mul, h, hright] at hleft
  revert hleft
  cases x.testBit t <;> cases y.testBit t <;> cases a.testBit t <;> cases r.testBit t <;> decide

/-- A diluted number below the place of a digit has neither this digit nor any after it. -/
theorem testBit_of_dilute_lt {w : Word} (hspacing : 0 < spacing) (hplaces : bits * spacing ≤ 256)
    {least t : Nat} (h : dilute w spacing bits < 2 ^ (spacing * least)) (hleast : least ≤ t)
    (ht : t < bits) : w.testBit t = false := by
  have hplace : (2 ^ spacing) ^ least ≤ (2 ^ spacing) ^ t :=
    Nat.pow_le_pow_right (Nat.two_pow_pos spacing) hleast
  have hdigits (t : Nat) (_ : t < bits) : (w.testBit t).toNat < 2 ^ spacing :=
    (w.testBit t).toNat_lt.trans_le (Nat.pow_le_pow_right (by decide : 0 < 2) hspacing)
  have hdigit := digit_of_sum hdigits ht
  rw [← dilute_eq_sum_digits hspacing hplaces, Nat.div_eq_of_lt, Nat.zero_mod] at hdigit
  · exact Bool.toNat_eq_zero.mp hdigit.symm
  · rw [pow_mul] at h
    exact h.trans_le hplace

theorem testBit_dilute {w : Word} (hspacing : 0 < spacing) (hplaces : bits * spacing ≤ 256)
    {t : Nat} (ht : t < bits) : (dilute w spacing bits).testBit (spacing * t) = w.testBit t := by
  have hdigits (t : Nat) (_ : t < bits) : (w.testBit t).toNat < 2 ^ spacing :=
    (w.testBit t).toNat_lt.trans_le (Nat.pow_le_pow_right (by decide : 0 < 2) hspacing)
  have hdigit := digit_of_sum hdigits ht
  have htwo : 2 ∣ 2 ^ spacing := dvd_pow_self 2 hspacing.ne'
  rw [Nat.testBit_eq_decide_div_mod_eq, pow_mul, dilute_eq_sum_digits hspacing hplaces,
    ← Nat.mod_mod_of_dvd _ htwo, hdigit]
  cases w.testBit t <;> rfl

/-- An equation between digits is one between diluted numbers. -/
theorem dilute_add_dilute {x y r a : Word} {k : Nat} (hspacing : 0 < spacing)
    (hplaces : bits * spacing ≤ 256) (h : ∀ t < bits, (x.testBit t).toNat + (y.testBit t).toNat =
      (r.testBit t).toNat + k * (a.testBit t).toNat) :
    dilute x spacing bits + dilute y spacing bits =
      dilute r spacing bits + k * dilute a spacing bits := by
  simp only [dilute_eq_sum_digits hspacing hplaces, mul_sum, ← sum_add_distrib]
  refine sum_congr rfl fun t ht => ?_
  rw [← add_mul, h t (mem_range.mp ht), add_mul, mul_assoc]

/-- Moving the digits of a number moves those of its dilution `spacing` times as far. -/
theorem dilute_shiftLeft {v low : Nat} (shift : Nat) (hspacing : 0 < spacing)
    (hplaces : (shift + low) * spacing ≤ 256) (hv : v < 2 ^ low) :
    dilute (v <<< shift) spacing (shift + low) =
      dilute v spacing (shift + low) * 2 ^ (spacing * shift) := by
  have hhigh : ∑ t ∈ range shift, (v.testBit (low + t)).toNat * (2 ^ spacing) ^ (low + t) = 0 := by
    refine sum_eq_zero fun t _ => ?_
    have hlt : v < 2 ^ (low + t) :=
      hv.trans_le (Nat.pow_le_pow_right two_pos (Nat.le_add_right low t))
    rw [Nat.testBit_lt_two_pow hlt, Bool.toNat_false, zero_mul]
  have hlow : ∑ t ∈ range shift, ((v <<< shift).testBit t).toNat * (2 ^ spacing) ^ t = 0 := by
    refine sum_eq_zero fun t ht => ?_
    rw [Nat.testBit_shiftLeft, decide_eq_false (not_le.mpr (mem_range.mp ht)), Bool.false_and,
      Bool.toNat_false, zero_mul]
  rw [dilute_eq_sum_digits hspacing hplaces, dilute_eq_sum_digits hspacing hplaces, sum_range_add,
    hlow, zero_add, add_comm shift low, sum_range_add, hhigh, add_zero, sum_mul]
  refine sum_congr rfl fun t _ => ?_
  rw [Nat.testBit_shiftLeft, decide_eq_true (Nat.le_add_right shift t), Bool.true_and,
    Nat.add_sub_cancel_left, pow_mul, pow_add, mul_assoc, mul_comm ((2 ^ spacing) ^ shift)]

end Diluted

/-! ## Strands -/

/-- The numbers below a product by their quotients and remainders. -/
theorem sum_range_mul {count width : Nat} (f : Nat → Nat) :
    ∑ i ∈ range (count * width), f i = ∑ c ∈ range count, ∑ j ∈ range width, f (c * width + j) := by
  induction count with
  | zero => simp
  | succ count ih => rw [Nat.succ_mul, sum_range_add, ih, sum_range_succ]

namespace Dilution

variable {d : Dilution}

/-- The number that a strand is, from its digits. -/
def diluted (d : Dilution) (v : Nat) : Nat := dilute v d.spacing d.bits

/-- The word with given strands. -/
def joined (d : Dilution) (strand : Nat → Nat) : Nat :=
  ∑ k ∈ range d.strands, d.diluted (strand k) * 2 ^ d.strandShift k

/-- The strand that a digit of a word is in. -/
def strandOf (d : Dilution) (q : Nat) : Nat := q / d.chunkBits * d.spacing + q % d.spacing

/-- The digit of its strand that a digit of a word is. -/
def digitOf (d : Dilution) (q : Nat) : Nat := q % d.chunkBits / d.spacing

/-- The place in a word of digit `t` of strand `k`. -/
def place (d : Dilution) (k t : Nat) : Nat := d.strandShift k + d.spacing * t

section Places

variable (hspacing : 0 < d.spacing) (hbits : 0 < d.bits)
include hspacing

theorem strandShift_eq {c j : Nat} (hj : j < d.spacing) :
    d.strandShift (c * d.spacing + j) = c * d.chunkBits + j := by
  rw [strandShift, mul_comm c, Nat.mul_add_div hspacing, Nat.div_eq_of_lt hj, add_zero,
    Nat.mul_add_mod, Nat.mod_eq_of_lt hj]

theorem place_strandOf (q : Nat) : d.place (d.strandOf q) (d.digitOf q) = q := by
  have hmod : q % d.chunkBits % d.spacing = q % d.spacing :=
    Nat.mod_mod_of_dvd q (Nat.dvd_mul_right _ _)
  have hdigit := Nat.div_add_mod (q % d.chunkBits) d.spacing
  have hquotient := Nat.div_add_mod q d.chunkBits
  rw [hmod] at hdigit
  rw [mul_comm] at hquotient
  rw [place, strandOf, strandShift_eq hspacing (Nat.mod_lt q hspacing), digitOf]
  omega

/-- The digits of the last chunk that are used are those whose place is in a word. -/
theorem lt_topStrandBits_iff {j t : Nat} (hj : j < d.spacing) (ht : t < d.bits) :
    t < d.topStrandBits j ↔ d.place ((d.chunks - 1) * d.spacing + j) t < d.totalBits := by
  rw [place, strandShift_eq hspacing hj, topStrandBits, lt_min_iff, and_iff_right ht,
    ← Nat.succ_le_iff, Nat.le_div_iff_mul_le hspacing, Nat.succ_mul, mul_comm t]
  omega

include hbits

theorem place_of_digit {c j t : Nat} (hj : j < d.spacing) (ht : t < d.bits) :
    d.strandOf (c * d.chunkBits + (t * d.spacing + j)) = c * d.spacing + j ∧
      d.digitOf (c * d.chunkBits + (t * d.spacing + j)) = t := by
  have hpos : 0 < d.chunkBits := Nat.mul_pos hspacing hbits
  have hlt : t * d.spacing + j < d.chunkBits := by
    calc t * d.spacing + j < (t + 1) * d.spacing := by
          rw [Nat.succ_mul]
          omega
      _ ≤ d.bits * d.spacing := Nat.mul_le_mul_right _ ht
      _ = d.chunkBits := mul_comm _ _
  have hmod : (c * d.chunkBits + (t * d.spacing + j)) % d.spacing = j := by
    rw [chunkBits, mul_left_comm, Nat.mul_add_mod, mul_comm t, Nat.mul_add_mod, Nat.mod_eq_of_lt hj]
  constructor
  · rw [strandOf, hmod, mul_comm c, Nat.mul_add_div hpos, Nat.div_eq_of_lt hlt, add_zero]
  · rw [digitOf, mul_comm c, Nat.mul_add_mod, Nat.mod_eq_of_lt hlt, mul_comm t,
      Nat.mul_add_div hspacing, Nat.div_eq_of_lt hj, add_zero]

end Places

/-- Each digit of a strand has a place of its own. -/
theorem joined_eq_sum (hspacing : 0 < d.spacing) (hbits : 0 < d.bits)
    (hplaces : d.bits * d.spacing ≤ 256) (strand : Nat → Nat) :
    d.joined strand = ∑ q ∈ range (d.chunks * d.chunkBits),
      ((strand (d.strandOf q)).testBit (d.digitOf q)).toNat * 2 ^ q := by
  have hchunk : d.chunkBits = d.bits * d.spacing := mul_comm _ _
  have hright (c : Nat) : ∑ q ∈ range d.chunkBits,
      ((strand (d.strandOf (c * d.chunkBits + q))).testBit
        (d.digitOf (c * d.chunkBits + q))).toNat * 2 ^ (c * d.chunkBits + q) =
      ∑ t ∈ range d.bits, ∑ j ∈ range d.spacing, ((strand (c * d.spacing + j)).testBit t).toNat *
        2 ^ (c * d.chunkBits + (t * d.spacing + j)) := by
    conv_lhs => rw [hchunk, sum_range_mul, ← hchunk]
    apply sum_congr rfl
    intro t ht
    apply sum_congr rfl
    intro j hj
    obtain ⟨hstrand, hdigit⟩ := place_of_digit hspacing hbits (c := c) (mem_range.mp hj)
      (mem_range.mp ht)
    rw [hstrand, hdigit]
  rw [joined, strands, sum_range_mul, sum_range_mul]
  apply sum_congr rfl
  intro c _
  rw [hright, sum_comm]
  apply sum_congr rfl
  intro j hj
  rw [strandShift_eq hspacing (mem_range.mp hj), diluted, dilute_eq_sum_digits hspacing hplaces,
    sum_mul]
  apply sum_congr rfl
  intro t _
  rw [mul_assoc, ← pow_mul, ← pow_add, mul_comm d.spacing]
  congr 2
  ring

/-! ## Words -/

section Words

variable (hspacing : 0 < d.spacing) (hbits : 0 < d.bits) (hplaces : d.bits * d.spacing ≤ 256)
include hspacing

theorem strandOf_lt {q : Nat} (hq : q < d.chunks * d.chunkBits) : d.strandOf q < d.strands := by
  have hchunk : q / d.chunkBits + 1 ≤ d.chunks :=
    Nat.div_lt_of_lt_mul (by rwa [mul_comm])
  calc d.strandOf q < q / d.chunkBits * d.spacing + d.spacing :=
        Nat.add_lt_add_left (Nat.mod_lt q hspacing) _
    _ = (q / d.chunkBits + 1) * d.spacing := (Nat.succ_mul _ _).symm
    _ ≤ d.strands := Nat.mul_le_mul_right _ hchunk

include hbits

theorem digitOf_lt (q : Nat) : d.digitOf q < d.bits :=
  Nat.div_lt_of_lt_mul (Nat.mod_lt q (Nat.mul_pos hspacing hbits))

/-- The last chunk has strands for every place up to the spacing. -/
theorem topStrand_lt (htotal : 0 < d.totalBits) {j : Nat} (hj : j < d.spacing) :
    (d.chunks - 1) * d.spacing + j < d.strands := by
  have hchunks : 0 < d.chunks := Nat.div_pos (by omega) (Nat.mul_pos hspacing hbits)
  obtain ⟨chunks, hchunks⟩ := Nat.exists_eq_succ_of_ne_zero hchunks.ne'
  rw [strands, hchunks, Nat.succ_sub_one, Nat.succ_mul]
  omega

include hplaces

theorem testBit_joined (strand : Nat → Nat) (q : Nat) : (d.joined strand).testBit q =
    (decide (q < d.chunks * d.chunkBits) && (strand (d.strandOf q)).testBit (d.digitOf q)) := by
  rw [joined_eq_sum hspacing hbits hplaces,
    testBit_sum_two_pow fun q => (strand (d.strandOf q)).testBit (d.digitOf q)]

/-- An operation on the digits of the strands is the operation on the digits of the words. -/
theorem testBit_joined_eq {x y z : Nat → Nat} {f : Bool → Bool → Bool}
    (hf : f false false = false) (h : ∀ k < d.strands, ∀ t < d.bits,
      (z k).testBit t = f ((x k).testBit t) ((y k).testBit t)) (q : Nat) :
    (d.joined z).testBit q = f ((d.joined x).testBit q) ((d.joined y).testBit q) := by
  simp only [testBit_joined hspacing hbits hplaces]
  by_cases hq : q < d.chunks * d.chunkBits
  · simp only [decide_eq_true hq, Bool.true_and]
    exact h _ (strandOf_lt hspacing hq) _ (digitOf_lt hspacing hbits q)
  · simp only [decide_eq_false hq, Bool.false_and, hf]

/-- Only strands of the last chunk have digits above a word, and not below a known one. -/
theorem joined_lt (htotal : 0 < d.totalBits) {strand : Nat → Nat}
    (h : ∀ j < d.spacing, ∀ t < d.bits, d.topStrandBits j ≤ t →
      (strand ((d.chunks - 1) * d.spacing + j)).testBit t = false) :
    d.joined strand < 2 ^ d.totalBits := by
  have hpos : 0 < d.chunkBits := Nat.mul_pos hspacing hbits
  apply Nat.lt_pow_two_of_testBit
  intro q hq
  rw [testBit_joined hspacing hbits hplaces]
  by_cases hlt : q < d.chunks * d.chunkBits
  · have hceil : d.chunks * d.chunkBits ≤ d.totalBits + d.chunkBits - 1 := Nat.div_mul_le_self _ _
    have hchunk : q / d.chunkBits = d.chunks - 1 := by
      have hupper : q / d.chunkBits < d.chunks := Nat.div_lt_of_lt_mul (by rwa [mul_comm])
      have hlower : d.chunks - 1 ≤ q / d.chunkBits := by
        rw [Nat.le_div_iff_mul_le hpos, Nat.sub_mul, one_mul]
        omega
      omega
    have hstrand : d.strandOf q = (d.chunks - 1) * d.spacing + q % d.spacing := by
      rw [strandOf, hchunk]
    have hmod : q % d.spacing < d.spacing := Nat.mod_lt q hspacing
    have hdigit : d.digitOf q < d.bits := digitOf_lt hspacing hbits q
    have htop : d.topStrandBits (q % d.spacing) ≤ d.digitOf q := by
      rw [← not_lt, lt_topStrandBits_iff hspacing hmod hdigit, ← hstrand, place_strandOf hspacing]
      exact not_lt.mpr hq
    rw [hstrand, h _ hmod _ hdigit htop, Bool.and_false]
  · rw [decide_eq_false hlt, Bool.false_and]

end Words

/-- Words whose strands add up to those of two others and to twice those of a third, which have no
digits above a word. -/
theorem joined_of_dilute_add {x y a r : Nat → Nat} (hspacing : 2 ≤ d.spacing) (hbits : 0 < d.bits)
    (hplaces : d.bits * d.spacing ≤ 256) (htotal : 0 < d.totalBits)
    (hadd : ∀ k < d.strands,
      d.diluted (x k) + d.diluted (y k) = d.diluted (r k) + 2 * d.diluted (a k))
    (htop : ∀ j < d.spacing, d.topStrandBits j < d.bits →
      d.diluted (a ((d.chunks - 1) * d.spacing + j)) +
        d.diluted (r ((d.chunks - 1) * d.spacing + j)) < 2 ^ (d.spacing * d.topStrandBits j)) :
    (d.joined x < 2 ^ d.totalBits ∧ d.joined y < 2 ^ d.totalBits) ∧
      d.joined a = d.joined x &&& d.joined y ∧ d.joined r = d.joined x ^^^ d.joined y := by
  have hpos : 0 < d.spacing := by omega
  have hdigit {k : Nat} (hk : k < d.strands) {t : Nat} (ht : t < d.bits) :=
    testBit_of_dilute_add hspacing hplaces (hadd k hk) ht
  have hzero : ∀ j < d.spacing, ∀ t < d.bits, d.topStrandBits j ≤ t →
      (x ((d.chunks - 1) * d.spacing + j)).testBit t = false ∧
        (y ((d.chunks - 1) * d.spacing + j)).testBit t = false := by
    intro j hj t ht hle
    have hsum := htop j hj (by omega)
    obtain ⟨hand, hxor⟩ := hdigit (topStrand_lt hpos hbits htotal hj) ht
    rw [testBit_of_dilute_lt hpos hplaces ((Nat.le_add_right _ _).trans_lt hsum) hle ht] at hand
    rw [testBit_of_dilute_lt hpos hplaces ((Nat.le_add_left _ _).trans_lt hsum) hle ht] at hxor
    revert hand hxor
    generalize (x _).testBit t = u
    generalize (y _).testBit t = v
    revert u v
    decide
  refine ⟨⟨?_, ?_⟩, ?_, ?_⟩
  · exact joined_lt hpos hbits hplaces htotal fun j hj t ht hle => (hzero j hj t ht hle).1
  · exact joined_lt hpos hbits hplaces htotal fun j hj t ht hle => (hzero j hj t ht hle).2
  · apply Nat.eq_of_testBit_eq
    intro q
    rw [Nat.testBit_and]
    exact testBit_joined_eq hpos hbits hplaces rfl (fun k hk t ht => (hdigit hk ht).1) q
  · apply Nat.eq_of_testBit_eq
    intro q
    rw [Nat.testBit_xor]
    exact testBit_joined_eq (f := Bool.xor) hpos hbits hplaces rfl
      (fun k hk t ht => (hdigit hk ht).2) q

end Dilution

end CairoTrace
