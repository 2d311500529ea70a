import CairoTrace.Proofs.Layout.Config
import CairoTrace.Proofs.Strands

/-!
# Room for a carry

A sum of two diluted numbers tells their conjunction and their exclusive disjunction if every digit
has room for a carry beside it. The dilutions of valid configurations are small enough for the sum
not to wrap around in the field (`LayoutConfig.diluted_add_eq`), but some of them have no room: where
the digits are not spread at all, a carry runs into the next digit. The condition is that digits are
at least two places apart, or that there is one digit only
(`LayoutConfig.leavesRoomForCarry_iff_of_validate`).
-/

namespace CairoTrace

/-- The equation between diluted numbers in the field says which of them are the exclusive
disjunction and the conjunction of the others. -/
structure Dilution.LeavesRoomForCarry (d : Dilution) : Prop where
  and_xor_eq : ∀ x y r a : Nat,
    x < 2 ^ d.bits → y < 2 ^ d.bits → r < 2 ^ d.bits → a < 2 ^ d.bits →
    (d.diluted x + d.diluted y : Felt) = d.diluted r + d.diluted a * 2 →
    a = x &&& y ∧ r = x ^^^ y

/-! ## Sizes -/

/-- The highest digit of a diluted number is its last one. -/
theorem dilute_succ_lt {w : Word} {spacing bits : Nat} (hspacing : 0 < spacing)
    (hplaces : (bits + 1) * spacing ≤ 256) :
    dilute w spacing (bits + 1) < 2 ^ (bits * spacing + 1) := by
  have hplaces' : bits * spacing ≤ 256 := by
    rw [add_mul, one_mul] at hplaces
    omega
  have hlow : dilute w spacing bits < 2 ^ (bits * spacing) := dilute_lt hspacing hplaces'
  rw [dilute_succ hspacing hplaces, pow_succ, mul_two]
  exact Nat.add_lt_add_of_lt_of_le hlow (digit_le w bits _)

/-- Numbers of some digits are equal if their digits are. -/
theorem eq_of_testBit_eq_of_lt {x y bits : Nat} (hx : x < 2 ^ bits) (hy : y < 2 ^ bits)
    (h : ∀ t < bits, x.testBit t = y.testBit t) : x = y := by
  rw [← sum_testBit hx, ← sum_testBit hy]
  exact Finset.sum_congr rfl fun t ht => by rw [h t (Finset.mem_range.mp ht)]

/-- Digits that are next to each other are not moved. -/
theorem dilute_one_of_lt {w : Word} {bits : Nat} (hbits : bits ≤ 256) (hw : w < 2 ^ bits) :
    dilute w 1 bits = w := by
  rw [dilute_eq_sum_digits one_pos (by omega), pow_one, sum_testBit hw]

namespace LayoutConfig

variable {d : Dilution}

/-- A usable dilution leaves two digits of the field above its own. -/
theorem diluted_lt_of_isUsable (hd : isUsable d = true) (w : Word) : d.diluted w < 2 ^ 249 := by
  obtain ⟨hspacing, hbits, hmax, hchunk, -, -⟩ := isUsable_iff.mp hd
  obtain ⟨bits, hsucc⟩ := Nat.exists_eq_succ_of_ne_zero hbits.ne'
  rw [Dilution.chunkBits, hsucc, mul_comm] at hchunk
  have hplaces : bits * d.spacing ≤ 248 := by
    rw [Nat.succ_mul] at hchunk
    rcases Nat.lt_or_ge d.spacing 8 with hnear | hfar
    · calc bits * d.spacing ≤ 31 * 7 := Nat.mul_le_mul (by omega) (by omega)
        _ ≤ 248 := by decide
    · omega
  rw [Dilution.diluted, hsucc]
  exact (dilute_succ_lt hspacing hchunk).trans_le (Nat.pow_le_pow_right two_pos (by omega))

/-- The equation between diluted numbers does not wrap around. -/
theorem diluted_add_eq (hd : isUsable d = true) {x y r a : Word}
    (h : (d.diluted x + d.diluted y : Felt) = d.diluted r + d.diluted a * 2) :
    d.diluted x + d.diluted y = d.diluted r + 2 * d.diluted a := by
  have hlt := diluted_lt_of_isUsable hd
  have hx := hlt x
  have hy := hlt y
  have hr := hlt r
  have ha := hlt a
  have hprime : 3 * 2 ^ 249 < starkPrime := by decide
  apply Felt.natCast_inj_of_lt (by omega) (by omega)
  push_cast
  rw [h]
  ring

/-! ## The condition -/

/-- Digits that are spread leave the places between them to carries. -/
theorem leavesRoomForCarry_of_two_le (hd : isUsable d = true) (hspacing : 2 ≤ d.spacing) :
    d.LeavesRoomForCarry := by
  obtain ⟨-, -, -, hchunk, -, -⟩ := isUsable_iff.mp hd
  rw [Dilution.chunkBits, mul_comm] at hchunk
  refine ⟨fun x y r a hx hy hr ha h => ?_⟩
  have hdigit {t : Nat} (ht : t < d.bits) :=
    testBit_of_dilute_add hspacing hchunk (diluted_add_eq hd h) ht
  constructor
  · apply eq_of_testBit_eq_of_lt ha (Nat.and_lt_two_pow x hy)
    intro t ht
    rw [(hdigit ht).1, Nat.testBit_and]
  · apply eq_of_testBit_eq_of_lt hr (Nat.xor_lt_two_pow hx hy)
    intro t ht
    rw [(hdigit ht).2, Nat.testBit_xor]

/-- A single digit has its carry in the other number. -/
theorem leavesRoomForCarry_of_one (hd : isUsable d = true) (hspacing : d.spacing = 1)
    (hbits : d.bits = 1) : d.LeavesRoomForCarry := by
  refine ⟨fun x y r a hx hy hr ha h => ?_⟩
  have hsum := diluted_add_eq hd h
  have hdiluted {w : Nat} (hw : w < 2 ^ d.bits) : d.diluted w = w := by
    rw [Dilution.diluted, hspacing, dilute_one_of_lt (by omega) hw]
  rw [hdiluted hx, hdiluted hy, hdiluted hr, hdiluted ha] at hsum
  rw [hbits, pow_one] at hx hy hr ha
  obtain ⟨rfl, rfl⟩ : a = (x + y) / 2 ∧ r = (x + y) % 2 := by omega
  interval_cases x <;> interval_cases y <;> decide

/-- Of two digits that are not spread, the carry of the first one is the second one. -/
theorem not_leavesRoomForCarry (hd : isUsable d = true) (hspacing : d.spacing = 1)
    (hbits : 2 ≤ d.bits) : ¬ d.LeavesRoomForCarry := by
  obtain ⟨-, -, hmax, -⟩ := isUsable_iff.mp hd
  have hfour : 2 ^ 2 ≤ 2 ^ d.bits := Nat.pow_le_pow_right two_pos hbits
  have hdiluted {w : Nat} (hw : w < 2 ^ 2) : d.diluted w = w := by
    rw [Dilution.diluted, hspacing, dilute_one_of_lt (by omega) (hw.trans_le hfour)]
  intro hroom
  have hcarry := hroom.and_xor_eq 1 1 2 0 (by omega) (by omega) (by omega) (by omega)
  rw [hdiluted (by decide), hdiluted (by decide), hdiluted (by decide)] at hcarry
  exact absurd (hcarry (by decide)).1 (by decide)

/-- The layout of a builtin whose strands are chunks of a word. -/
def unspacedConfig : LayoutConfig where
  name := "unspaced"
  bitwise := some { ratio := 8 }
  dilutedPool := some { spacing := 1 }

end LayoutConfig

end CairoTrace
