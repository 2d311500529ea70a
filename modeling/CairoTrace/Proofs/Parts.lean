import CairoTrace.Builtin.RangeCheck
import CairoTrace.Proofs.Result
import CairoTrace.Proofs.StarkField
import Mathlib.Data.Nat.Digits.Lemmas

/-!
# Words by their parts

A word has parts of sixteen digits for a number of them if and only if it has no more digits than
they have (`RangeCheck.exists_parts_iff`). Its parts are then the only list of that many numbers of
sixteen digits that makes it up (`RangeCheck.parts_eq_ok_iff`), and it is the word that they are
joined to (`RangeCheck.IsPartsOf.join_eq`).
-/

namespace CairoTrace

theorem checkBits_eq_ok_iff {w : Word} {bits : Nat} : checkBits w bits = .ok () ↔ w < 2 ^ bits := by
  unfold checkBits
  split
  · next hlarge => exact iff_of_false nofun (Felt.lt_bitLength_iff.mp hlarge)
  · next hsmall => exact iff_of_true rfl (not_not.mp (Felt.lt_bitLength_iff.not.mp hsmall))

namespace RangeCheck

variable {w : Word} {count : Nat} {ps : List Nat}

/-- Whether a list has the parts of a word, the highest first. -/
structure IsPartsOf (ps : List Nat) (count : Nat) (w : Word) : Prop where
  length_eq : ps.length = count
  lt : ∀ p ∈ ps, p < 2 ^ partBits
  ofDigits_eq : Nat.ofDigits (2 ^ partBits) ps.reverse = w

/-! ## Cutting -/

@[simp] theorem length_split (w : Word) (count : Nat) : (split w count).length = count := by
  induction count with
  | zero => rfl
  | succ count ih => rw [split, List.length_cons, ih]

theorem lt_of_mem_split {p : Nat} (hp : p ∈ split w count) : p < 2 ^ partBits := by
  induction count with
  | zero => cases hp
  | succ count ih =>
    rcases List.mem_cons.mp hp with rfl | hp
    · rw [Nat.one_shiftLeft]
      exact Nat.mod_lt _ (Nat.two_pow_pos _)
    · exact ih hp

/-- The parts make up the lowest digits of the word. -/
theorem ofDigits_split (w : Word) (count : Nat) :
    Nat.ofDigits (2 ^ partBits) (split w count).reverse = w % 2 ^ (count * partBits) := by
  induction count with
  | zero => rw [zero_mul, pow_zero, Nat.mod_one, split, List.reverse_nil, Nat.ofDigits_nil]
  | succ count ih =>
    rw [split, Nat.ofDigits_reverse_cons, ih, length_split, Nat.one_shiftLeft,
      Nat.shiftRight_eq_div_pow, ← pow_mul, mul_comm partBits, ← Nat.mod_mul, ← pow_add,
      ← Nat.succ_mul]

theorem isPartsOf_split (hw : w < 2 ^ (count * partBits)) : IsPartsOf (split w count) count w :=
  ⟨length_split w count, fun _ => lt_of_mem_split,
    (ofDigits_split w count).trans (Nat.mod_eq_of_lt hw)⟩

namespace IsPartsOf

variable (h : IsPartsOf ps count w)
include h

theorem word_lt : w < 2 ^ (count * partBits) := by
  have hlt := Nat.ofDigits_lt_base_pow_length (b := 2 ^ partBits) (by decide)
    fun p hp => h.lt p (List.mem_reverse.mp hp)
  rwa [h.ofDigits_eq, List.length_reverse, h.length_eq, ← pow_mul, mul_comm] at hlt

/-- There is one list of parts only. -/
theorem eq_of_isPartsOf {qs : List Nat} (hqs : IsPartsOf qs count w) : ps = qs := by
  refine List.reverse_injective (Nat.ofDigits_inj_of_len_eq (b := 2 ^ partBits) (by decide) ?_
    (fun p hp => h.lt p (List.mem_reverse.mp hp)) (fun q hq => hqs.lt q (List.mem_reverse.mp hq)) ?_)
  · rw [List.length_reverse, List.length_reverse, h.length_eq, hqs.length_eq]
  · rw [h.ofDigits_eq, hqs.ofDigits_eq]

end IsPartsOf

/-- A word has the parts that make it up. -/
theorem parts_eq_ok_iff : parts w count = .ok ps ↔ IsPartsOf ps count w := by
  rw [parts, Result.check_bind_eq_ok_iff, checkBits_eq_ok_iff, Result.pure_eq_ok, Except.ok.injEq]
  constructor
  · rintro ⟨hw, rfl⟩
    exact isPartsOf_split hw
  · intro h
    exact ⟨h.word_lt, (isPartsOf_split h.word_lt).eq_of_isPartsOf h⟩

theorem exists_parts_iff : (∃ ps, parts w count = .ok ps) ↔ w < 2 ^ (count * partBits) := by
  simp only [parts_eq_ok_iff]
  exact ⟨fun ⟨_, h⟩ => h.word_lt, fun hw => ⟨_, isPartsOf_split hw⟩⟩

/-! ## Joining -/

/-- Parts are joined one after the other to the number that they make up. -/
theorem foldl_eq_ofDigits (ps : List Nat) (w : Nat) :
    ps.foldl (fun w p => w * 2 ^ partBits + p) w =
      w * (2 ^ partBits) ^ ps.length + Nat.ofDigits (2 ^ partBits) ps.reverse := by
  induction ps generalizing w with
  | nil =>
    rw [List.foldl_nil, List.length_nil, pow_zero, mul_one, List.reverse_nil, Nat.ofDigits_nil,
      add_zero]
  | cons p ps ih =>
    rw [List.foldl_cons, ih, Nat.ofDigits_reverse_cons, List.length_cons, pow_succ]
    ring

/-- Joining loses digits as the number is built, which are those lost from all of it. -/
theorem foldl_mod (ps : List Nat) (w : Nat) :
    ps.foldl (fun w p => (w * (1 <<< partBits) + p) % (1 <<< 256)) (w % 2 ^ 256) =
      ps.foldl (fun w p => w * 2 ^ partBits + p) w % 2 ^ 256 := by
  induction ps generalizing w with
  | nil => rfl
  | cons p ps ih =>
    rw [List.foldl_cons, List.foldl_cons, ← ih, Nat.one_shiftLeft, Nat.one_shiftLeft, Nat.add_mod,
      Nat.mod_mul_mod, ← Nat.add_mod]

theorem join_eq_mod (ps : List Nat) :
    join ps = Nat.ofDigits (2 ^ partBits) ps.reverse % 2 ^ 256 := by
  have hfold := foldl_mod ps 0
  rw [Nat.zero_mod, foldl_eq_ofDigits, zero_mul, zero_add] at hfold
  exact hfold

theorem IsPartsOf.join_eq (h : IsPartsOf ps count w) (hw : w < 2 ^ 256) : join ps = w := by
  rw [join_eq_mod, h.ofDigits_eq, Nat.mod_eq_of_lt hw]

end RangeCheck

end CairoTrace
