import CairoTrace.Machine.Operands
import CairoTrace.Proofs.Result
import CairoTrace.Proofs.StarkField

/-!
# Operands that are found

The flags of a group are the digits of its value (`Word.testBit_group`). An instruction whose
operands and result are found has one of the values that its groups may have, and a conditional
jump has no result of its own (`Instruction.op1Base_eq_ok`, `Instruction.res_eq_ok`).
-/

namespace CairoTrace

open Result (bind_eq_ok_iff mapError_eq_ok_iff pure_eq_ok)

namespace Word

/-- The flags of a group are the digits of its value. -/
theorem testBit_group (w : Word) (g : FlagGroup) (k : Nat) :
    (group w g).testBit k = (g.flags[k]?.map (flag w)).getD false := by
  rw [group]
  induction g.flags generalizing k with
  | nil => exact Nat.zero_testBit k
  | cons f fs ih =>
    have hle := (flag w f).toNat_le
    rw [List.foldr_cons]
    cases k with
    | zero =>
      rw [Nat.testBit_zero, Nat.add_mul_mod_self_left, List.getElem?_cons_zero, Option.map_some,
        Option.getD_some]
      cases flag w f <;> rfl
    | succ k =>
      rw [Nat.testBit_succ, Nat.add_mul_div_left _ _ (by decide), Nat.div_eq_of_lt (by omega),
        zero_add, ih]
      rfl

theorem flag_eq_testBit_group {w : Word} {g : FlagGroup} {k : Nat} {f : Flag}
    (hf : g.flags[k]? = some f) : flag w f = (group w g).testBit k := by
  rw [testBit_group, hf, Option.map_some, Option.getD_some]

end Word

namespace Instruction

variable {i : Instruction} {m : Memory}

/-- An address lies at its offset from the base, both of which are biased. -/
theorem natCast_of_addressAt {base offset address : Nat}
    (h : i.addressAt base offset = .ok address) :
    (address : Felt) + 2 ^ 15 = base + offset := by
  rw [addressAt] at h
  split at h
  case isTrue hle =>
    have hsum : address + 2 ^ 15 = base + offset := by
      rw [← Except.ok.inj h]
      exact Nat.sub_add_cancel hle
    exact_mod_cast congrArg (Nat.cast : Nat → Felt) hsum
  case isFalse => cases h

/-- The second operand is addressed from one of four bases. -/
theorem op1Base_eq_ok {base : Nat} (h : i.op1Base m = .ok base) :
    i.word.group .op1Src = 0 ∧ i.op0 m = .ok (base : Felt) ∨
    i.word.group .op1Src = 1 ∧ base = i.registers.pc ∨
    i.word.group .op1Src = 2 ∧ base = i.registers.fp ∨
    i.word.group .op1Src = 4 ∧ base = i.registers.ap := by
  rw [op1Base] at h
  split at h
  case h_1 hgroup =>
    obtain ⟨address, haddress, h⟩ := bind_eq_ok_iff.mp h
    obtain ⟨op0, hop0, h⟩ := bind_eq_ok_iff.mp h
    split at h
    case isTrue =>
      obtain rfl := Except.ok.inj h
      refine Or.inl ⟨hgroup, ?_⟩
      rw [Instruction.op0, haddress, Result.ok_bind, load, hop0]
      rfl
    case isFalse => cases h
  case h_2 hgroup => exact Or.inr (Or.inl ⟨hgroup, (Except.ok.inj h).symm⟩)
  case h_3 hgroup => exact Or.inr (Or.inr (Or.inl ⟨hgroup, (Except.ok.inj h).symm⟩))
  case h_4 hgroup => exact Or.inr (Or.inr (Or.inr ⟨hgroup, (Except.ok.inj h).symm⟩))
  case h_5 => cases h

/-- A conditional jump has the inverse of its destination for a result; any other instruction
computes it from its operands. -/
theorem res_eq_ok {res : Felt} (h : i.res m = .ok res) :
    i.word.group .pcUpdate = 4 ∧ i.word.group .resLogic = 0 ∧
      (∃ dst, i.dst m = .ok dst ∧ res = dst⁻¹) ∨
    (i.word.group .pcUpdate = 0 ∨ i.word.group .pcUpdate = 1 ∨ i.word.group .pcUpdate = 2) ∧
      ∃ op0 op1, i.op0 m = .ok op0 ∧ i.op1 m = .ok op1 ∧
        (i.word.group .resLogic = 0 ∧ res = op1 ∨
          i.word.group .resLogic = 1 ∧ res = op0 + op1 ∨
          i.word.group .resLogic = 2 ∧ res = op0 * op1) := by
  rw [Instruction.res] at h
  simp only at h
  split at h
  case h_1 hgroup =>
    split at h
    case isTrue hgroups =>
      obtain ⟨dst, hdst, h⟩ := bind_eq_ok_iff.mp h
      exact Or.inl ⟨hgroup, hgroups.1, dst, hdst, (Except.ok.inj h).symm⟩
    case isFalse => cases h
  case h_2 hgroup | h_3 hgroup | h_4 hgroup =>
    obtain ⟨op0, hop0, h⟩ := bind_eq_ok_iff.mp h
    obtain ⟨op1, hop1, h⟩ := bind_eq_ok_iff.mp h
    refine Or.inr ⟨by simp [hgroup], op0, op1, hop0, hop1, ?_⟩
    split at h
    case h_1 hlogic => exact Or.inl ⟨hlogic, (Except.ok.inj h).symm⟩
    case h_2 hlogic => exact Or.inr (Or.inl ⟨hlogic, (Except.ok.inj h).symm⟩)
    case h_3 hlogic => exact Or.inr (Or.inr ⟨hlogic, (Except.ok.inj h).symm⟩)
    case h_4 => cases h
  case h_5 => cases h

end Instruction

end CairoTrace
