import CairoTrace.Numeral
import Mathlib.Tactic

/-!
# Reading written numbers

What reads digits one after the other reads the digits of a number as that number
(`Numeral.digitsOnto_read`). So a number that is written in hexadecimal is read back
(`Numeral.ofText?_hex`).
-/

namespace CairoTrace

namespace Numeral

variable {radix fuel n : Nat} {tail : List Char}

/-! ## Digits -/

theorem digitValue?_hexDigit {d : Nat} (h : d < 16) : digitValue? (hexDigit d) = some d := by
  revert d
  decide

theorem hexDigit_ne_underscore {d : Nat} (h : d < 16) : hexDigit d ≠ '_' := by
  revert d
  decide

theorem digitsOnto_succ (radix fuel n : Nat) (tail : List Char) :
    digitsOnto radix (fuel + 1) n tail =
      if n < radix then hexDigit n :: tail
      else digitsOnto radix fuel (n / radix) (hexDigit (n % radix) :: tail) := by
  rw [digitsOnto]
  by_cases h : n < radix
  · rw [if_pos h, if_pos h, Nat.mod_eq_of_lt h]
  · rw [if_neg h, if_neg h]

theorem lt_pow_log2_succ (hradix : 2 ≤ radix) (n : Nat) : n < radix ^ (n.log2 + 1) :=
  Nat.lt_log2_self.trans_le (Nat.pow_le_pow_left hradix _)

/-- What reads one digit after the other reads the digits of a number as the number. -/
theorem digitsOnto_read {β : Type} {bound : Nat} (read : Nat → List Char → β)
    (hradix : 0 < radix)
    (hdigit : ∀ m d rest, d < radix → m * radix + d ≤ bound →
      read m (hexDigit d :: rest) = read (m * radix + d) rest)
    (hbound : n ≤ bound) (hfuel : n < radix ^ fuel) (tail : List Char) :
    read 0 (digitsOnto radix fuel n tail) = read n tail := by
  induction fuel generalizing n tail with
  | zero =>
    obtain rfl : n = 0 := Nat.lt_one_iff.mp hfuel
    rfl
  | succ fuel ih =>
    rw [digitsOnto_succ]
    by_cases h : n < radix
    · rw [if_pos h, hdigit 0 n tail h (by omega), zero_mul, zero_add]
    · have hrest : n / radix < radix ^ fuel := Nat.div_lt_of_lt_mul (by rwa [pow_succ'] at hfuel)
      have hsplit : n / radix * radix + n % radix = n := Nat.div_add_mod' n radix
      rw [if_neg h, ih ((Nat.div_le_self n radix).trans hbound) hrest,
        hdigit _ _ tail (Nat.mod_lt n hradix) (hsplit.trans_le hbound), hsplit]

theorem mem_digitsOnto (hradix : 0 < radix) {c : Char} (h : c ∈ digitsOnto radix fuel n tail) :
    c ∈ tail ∨ ∃ d < radix, c = hexDigit d := by
  induction fuel generalizing n tail with
  | zero => exact Or.inl h
  | succ fuel ih =>
    rw [digitsOnto_succ] at h
    by_cases hlt : n < radix
    · rw [if_pos hlt] at h
      rcases List.mem_cons.mp h with rfl | htail
      · exact Or.inr ⟨n, hlt, rfl⟩
      · exact Or.inl htail
    · rw [if_neg hlt] at h
      rcases ih h with hmem | hdigit
      · rcases List.mem_cons.mp hmem with rfl | htail
        · exact Or.inr ⟨_, Nat.mod_lt n hradix, rfl⟩
        · exact Or.inl htail
      · exact Or.inr hdigit

/-- A number does not start with the digit zero, unless it is zero. -/
theorem exists_digitsOnto_eq_cons (hradix : 0 < radix) (hpos : 0 < n) (hfuel : n < radix ^ fuel) :
    ∃ d rest, 0 < d ∧ d < radix ∧ digitsOnto radix fuel n tail = hexDigit d :: rest := by
  induction fuel generalizing n tail with
  | zero => exact absurd (Nat.lt_one_iff.mp hfuel) hpos.ne'
  | succ fuel ih =>
    rw [digitsOnto_succ]
    by_cases h : n < radix
    · exact ⟨n, tail, hpos, h, if_pos h⟩
    · rw [if_neg h]
      exact ih (Nat.div_pos (not_lt.mp h) hradix)
        (Nat.div_lt_of_lt_mul (by rwa [pow_succ'] at hfuel))

/-! ## Hexadecimal -/

theorem digits?_digitsOnto (hradix : 2 ≤ radix) (hsmall : radix ≤ 16) (n : Nat) :
    digits? radix 0 (digitsOnto radix (n.log2 + 1) n []) = some n := by
  have hdigit (m d : Nat) (rest : List Char) (hd : d < radix) (_ : m * radix + d ≤ n) :
      digits? radix m (hexDigit d :: rest) = digits? radix (m * radix + d) rest := by
    have hd16 := hd.trans_le hsmall
    rw [digits?, if_neg (hexDigit_ne_underscore hd16), digitValue?_hexDigit hd16]
    exact if_pos hd
  rw [digitsOnto_read (digits? radix) (by omega) hdigit le_rfl (lt_pow_log2_succ hradix n), digits?]

theorem ofText?_hex (h : n < 2 ^ 256) : ofText? (hex n).toList = some n := by
  have hlt : n < 1 <<< 256 := by rwa [Nat.one_shiftLeft]
  rw [hex, String.toList_ofList, ofText?, splitRadix]
  dsimp only
  rw [hexDigits, digits?_digitsOnto (by norm_num) le_rfl, Option.filter_some_pos (by simpa using hlt)]

end Numeral

end CairoTrace
