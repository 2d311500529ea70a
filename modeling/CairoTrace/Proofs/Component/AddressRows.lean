import CairoTrace.Component
import CairoTrace.Proofs.Component.InstanceRows
import CairoTrace.Proofs.Layout.Arrangement

/-!
# What the constraints on addresses say

The constraints of a builtin on the addresses that it accesses fix the first one, make each address
of an instance follow the one before it, and the first address of the next instance the last one.
They hold on all rows exactly if the cells of every instance are its addresses in the segment of the
builtin (`Component.holds_addressConstraints_iff`). Along the instances this is an induction from
the first one (`consecutive_iff`); the last instance has none that follows it.
-/

namespace CairoTrace

/-! ## Addresses -/

/-- The addresses of the instance with a given index of a builtin whose segment starts at
`start`. -/
def Builtin.addresses (start index : Nat) : Builtin → List Nat
  | pedersen => PedersenInstance.addresses ⟨index, 0, 0⟩ start
  | rangeCheck => [RangeCheckInstance.address ⟨index, 0⟩ start]
  | ecdsa => EcdsaInstance.addresses ⟨index, 0, 0, 0, 0⟩ start
  | bitwise => BitwiseInstance.addresses ⟨index, 0, 0⟩ start
  | ecOp => EcOpInstance.addresses ⟨index, 0, 0, 0, 0, 0⟩ start
  | _ => []

/-- The names of the constraints on the addresses of builtins. -/
def addressNames : List String :=
  ["rc_builtin/addr_step", "rc_builtin/init_addr",
    "pedersen/input0_addr", "pedersen/init_addr", "pedersen/input1_addr", "pedersen/output_addr",
    "ecdsa/init_addr", "ecdsa/message_addr", "ecdsa/pubkey_addr",
    "bitwise/init_var_pool_addr", "bitwise/step_var_pool_addr", "bitwise/x_or_y_addr",
    "bitwise/next_var_pool_addr",
    "ec_op/init_addr", "ec_op/p_x_addr", "ec_op/p_y_addr", "ec_op/q_x_addr", "ec_op/q_y_addr",
    "ec_op/m_addr", "ec_op/r_x_addr", "ec_op/r_y_addr"]

namespace Component

/-- The constraints of a component on the addresses of a builtin. -/
def addressConstraints (c : Component) : List Constraint :=
  c.constraints.filter (·.name ∈ addressNames)

/-- The cells of the addresses of an instance of a builtin, in the order of the addresses. -/
def addressCells (columns : List (Array Felt)) (i : Nat) : Component → List Felt
  | pedersen c => [c.input0, c.input1, c.output].map (·.cellAt columns i)
  | rangeCheck c => [c.memory.cellAt columns i]
  | ecdsa c => [c.pubkey, c.message].map (·.cellAt columns i)
  | bitwise c =>
    (List.range 4).map (fun k => c.values.cellAt columns (4 * i + k)) ++
      [c.disjunction.cellAt columns i]
  | ecOp c => (List.range 7).map fun k => c.memory.cellAt columns (8 * i + k)
  | _ => []

end Component

/-! ## Consecutive numbers -/

section Consecutive

/-- Whether each of a list of field elements is the one before it and one. -/
def AreConsecutive (l : List Felt) : Prop := l.IsChain fun a b => b = a + 1

@[simp] theorem areConsecutive_singleton (a : Felt) : AreConsecutive [a] := List.isChain_singleton a

@[simp] theorem areConsecutive_cons_cons {a b : Felt} {l : List Felt} :
    AreConsecutive (a :: b :: l) ↔ b = a + 1 ∧ AreConsecutive (b :: l) := List.isChain_cons_cons

theorem areConsecutive_map_range_iff {f : Nat → Felt} {m : Nat} :
    AreConsecutive ((List.range m).map f) ↔ ∀ k, k + 1 < m → f (k + 1) = f k + 1 := by
  rw [AreConsecutive, List.isChain_iff_getElem]
  simp only [List.length_map, List.length_range, List.getElem_map, List.getElem_range]

theorem areConsecutive_cons_iff {a : Felt} {l : List Felt} : AreConsecutive (a :: l) ↔
    a :: l = (List.range (l.length + 1)).map fun k : Nat => a + (k : Felt) := by
  induction l generalizing a with
  | nil => simp [AreConsecutive]
  | cons b l ih =>
    have hrange : (List.range (l.length + 1 + 1)).map (fun k : Nat => a + (k : Felt)) =
        a :: (List.range (l.length + 1)).map fun k : Nat => a + 1 + (k : Felt) := by
      rw [List.range_succ_eq_map, List.map_cons, List.map_map, Nat.cast_zero, add_zero]
      refine congrArg _ (List.map_congr_left fun k _ => ?_)
      rw [Function.comp_apply, Nat.cast_succ]
      ring
    rw [areConsecutive_cons_cons, ih, List.length_cons, hrange, List.cons_inj_right]
    constructor
    · rintro ⟨rfl, h⟩
      exact h
    · intro h
      have hb : b = a + 1 := by
        rw [List.range_succ_eq_map, List.map_cons, Nat.cast_zero, add_zero] at h
        exact (List.cons_eq_cons.mp h).1
      subst hb
      exact ⟨rfl, h⟩

theorem AreConsecutive.getLastD_eq {a : Felt} {l : List Felt} (h : AreConsecutive (a :: l)) :
    l.getLastD a = a + (l.length : Felt) := by
  have hlast := congrArg (·.getLastD 0) (areConsecutive_cons_iff.mp h)
  simpa [List.getLastD_eq_getLast?, List.getLast?_cons, List.getLast?_range] using hlast

variable (start count : Nat) (x : Nat → Felt) (rest : Nat → List Felt) {q : Nat}

/-- Instances of `count` consecutive addresses, each of which starts `count` after the one before
it. -/
theorem consecutive_iff (hq : 0 < q) (hlength : ∀ i, (rest i).length + 1 = count) :
    (x 0 = (start : Felt) ∧ (∀ i, i + 1 < q → x (i + 1) = x i + (count : Felt)) ∧
        ∀ i < q, AreConsecutive (x i :: rest i)) ↔
      ∀ i < q, x i :: rest i = (instanceAddresses count start i).map Residue.ofNat := by
  have haddresses (i : Nat) : (instanceAddresses count start i).map (Residue.ofNat : Nat → Felt) =
      (List.range count).map fun k : Nat => ((start + i * count : Nat) : Felt) + (k : Felt) := by
    rw [instanceAddresses, List.map_map]
    exact List.map_congr_left fun k _ => Nat.cast_add (R := Felt) _ k
  have hpos : 0 < count := hlength 0 ▸ Nat.succ_pos _
  simp only [haddresses, areConsecutive_cons_iff, hlength]
  constructor
  · rintro ⟨hfirst, hnext, hrest⟩ i hi
    have hx : x i = ((start + i * count : Nat) : Felt) := by
      clear hrest
      induction i with
      | zero => rw [hfirst, Nat.zero_mul, Nat.add_zero]
      | succ i ih =>
        rw [hnext i hi, ih (Nat.lt_of_succ_lt hi), Nat.succ_mul, ← add_assoc, ← Nat.cast_add]
    rw [hrest i hi, hx]
  · intro h
    have hx (i : Nat) (hi : i < q) : x i = ((start + i * count : Nat) : Felt) := by
      have hhead := congrArg List.head? (h i hi)
      rw [List.head?_cons, List.head?_map, List.head?_range, if_neg hpos.ne', Option.map_some,
        Nat.cast_zero, add_zero] at hhead
      exact Option.some.inj hhead
    refine ⟨?_, fun i hi => ?_, fun i hi => ?_⟩
    · rw [hx 0 hq, Nat.zero_mul, Nat.add_zero]
    · rw [hx _ hi, hx i (Nat.lt_of_succ_lt hi), Nat.succ_mul, ← add_assoc, Nat.cast_add _ count]
    · rw [h i hi, hx i hi]

/-- Instances of consecutive addresses, each of which starts one after the last address of the one
before it. -/
theorem consecutive_of_last_iff (hq : 0 < q) (hlength : ∀ i, (rest i).length + 1 = count) :
    (x 0 = (start : Felt) ∧ (∀ i, i + 1 < q → x (i + 1) = (rest i).getLastD (x i) + 1) ∧
        ∀ i < q, AreConsecutive (x i :: rest i)) ↔
      ∀ i < q, x i :: rest i = (instanceAddresses count start i).map Residue.ofNat := by
  rw [← consecutive_iff start count x rest hq hlength]
  refine and_congr_right fun _ => and_congr_left fun hrest => ?_
  refine forall₂_congr fun i hi => ?_
  rw [(hrest i (Nat.lt_of_succ_lt hi)).getLastD_eq, ← hlength i, Nat.cast_succ, add_assoc]

end Consecutive

/-! ## Slots of memory -/

section Slots

variable {n step places height i k : Nat} {columns : List (Array Felt)}
  {periodic : List PeriodicColumn} {b : Bindings} {c d : VirtualColumn} {name : String} {e : Term}
  {v : Nat → Felt}

variable (hn : isPowerOfTwo n = true) (hword : n < 2 ^ 64) (hpow : isPowerOfTwo height = true)
  (hle : height ≤ n)
include hn hword hpow hle

namespace VirtualColumn.IsMemorySlot

/-- The address of an access of a slot with several accesses in each instance. -/
theorem onRow_cell (hc : c.IsMemorySlot step) (hplaces : step * places = height)
    (hk : places * i + k < n / step) :
    (c.cell k).onRow n columns periodic b (height * i) = c.cellAt columns (places * i + k) := by
  have hdvd : step ∣ n :=
    (Dvd.intro places hplaces).trans (dvd_of_isPowerOfTwo hpow hn hle)
  have hrow : c.row (places * i + k) < n :=
    Term.row_lt_of_lt_div ⟨hc.step_eq, (Nat.lt_succ_self _).trans hc.offset_succ_lt⟩ hdvd hk
  have hhalf := le_two_pow_of_isPowerOfTwo (k := 63) hn hword
  have hoffset : c.offset < 2 ^ 63 := by
    rw [VirtualColumn.row] at hrow
    omega
  rw [← hplaces, mul_assoc, ← hc.step_eq]
  cases k with
  | zero => exact Term.onRow_current hoffset hrow
  | succ k =>
    refine Term.onRow_later ?_ hoffset hrow
    have hstep : c.step * 1 ≤ c.step * (places * i + (k + 1)) :=
      Nat.mul_le_mul_left _ (by omega)
    rw [VirtualColumn.row] at hrow
    omega

/-- The value of an access of a slot with one access in each instance. -/
theorem onRow_value (hc : c.IsMemorySlot height) (hi : i < n / height) :
    c.valueColumn.current.onRow n columns periodic b (height * i) =
      c.valueColumn.cellAt columns i := by
  have hoffset : c.offset + 1 < height := hc.offset_succ_lt
  have hlt : height * i + (c.offset + 1) < n := instance_row_lt hn hpow hle hi hoffset
  rw [← hc.step_eq] at hlt ⊢
  exact Term.onRow_current (c := c.valueColumn)
    (hoffset.trans_le (hle.trans (le_two_pow_of_isPowerOfTwo hn hword))) (by rwa [add_comm] at hlt)

end VirtualColumn.IsMemorySlot

namespace Constraint

/-- The first address of a builtin. -/
theorem holds_start_iff {hint : Hint} (hc : c.IsMemorySlot step)
    (hplaces : step * places = height) :
    (⟨name, c.current - hint.term, .first 0, []⟩ : Constraint).Holds n columns periodic b ↔
      c.cellAt columns 0 = hint.value b.hints := by
  have hpos : 0 < n / step := Nat.div_pos ((Nat.le_of_dvd (pos_of_isPowerOfTwo hpow)
    (Dvd.intro places hplaces)).trans hle) (pos_of_isPowerOfTwo hc.isPowerOfTwo_step)
  have hrow : c.current.onRow n columns periodic b (height * 0) = c.cellAt columns 0 :=
    hc.onRow_cell hn hword hpow hle (i := 0) (k := 0) hplaces (by omega)
  rw [holds_first_iff height (pos_of_isPowerOfTwo hn), Term.onRow_sub, hrow, Term.onRow_hint,
    sub_eq_zero]

variable (hd : d.IsMemorySlot step) (hplaces : step * places = height)
include hd hplaces

/-- An address of every instance. -/
theorem holds_link_iff (hk : k < places)
    (he : ∀ i < n / height, e.onRow n columns periodic b (height * i) = v i) :
    (⟨name, d.cell k - e, .every height 0, []⟩ : Constraint).Holds n columns periodic b ↔
      ∀ i < n / height, d.cellAt columns (places * i + k) = v i := by
  rw [holds_every_iff (pos_of_isPowerOfTwo hpow) (dvd_of_isPowerOfTwo hpow hn hle)]
  refine forall₂_congr fun i hi => ?_
  have hlt : places * i + k < n / step :=
    instance_step_lt hn hpow hle hi ((mul_comm _ _).trans hplaces) hk
  rw [Term.onRow_sub, hd.onRow_cell hn hword hpow hle hplaces hlt, he i hi, sub_eq_zero]

/-- The first address of every instance but the first one. -/
theorem holds_next_iff
    (he : ∀ i < n / height, e.onRow n columns periodic b (height * i) = v i) :
    (⟨name, d.cell places - e, .every height 0, [.fromEnd height]⟩ : Constraint).Holds
        n columns periodic b ↔
      ∀ i, i + 1 < n / height → d.cellAt columns (places * (i + 1)) = v i := by
  rw [holds_every_except_last_iff (pos_of_isPowerOfTwo hn) (pos_of_isPowerOfTwo hpow)
    (dvd_of_isPowerOfTwo hpow hn hle)]
  refine forall₂_congr fun i hi => ?_
  have hpos : 0 < places := Nat.pos_of_ne_zero fun hzero => by
    rw [hzero, mul_zero] at hplaces
    exact absurd hplaces (pos_of_isPowerOfTwo hpow).ne
  have hlt : places * (i + 1) + 0 < n / step :=
    instance_step_lt hn hpow hle hi ((mul_comm _ _).trans hplaces) hpos
  rw [add_zero, mul_add, mul_one] at hlt
  rw [Term.onRow_sub, hd.onRow_cell hn hword hpow hle hplaces hlt, he i (Nat.lt_of_succ_lt hi),
    sub_eq_zero, mul_add, mul_one]

end Constraint

end Slots

/-! ## Builtins -/

section Builtins

variable {n height start : Nat} {columns : List (Array Felt)} {periodic : List PeriodicColumn}
  {b : Bindings} {name : String}

variable (hn : isPowerOfTwo n = true) (hword : n < 2 ^ 64)
include hn hword

/-! ### Slots with one access in each instance -/

section Single

variable {c d : VirtualColumn} (hc : c.IsMemorySlot height) (hd : d.IsMemorySlot height)
  (hle : height ≤ n)
include hc hle

theorem onRow_following (i : Nat) (hi : i < n / height) :
    (c.current + 1).onRow n columns periodic b (height * i) = c.cellAt columns i + 1 := by
  have hrow : c.current.onRow n columns periodic b (height * i) = c.cellAt columns (1 * i + 0) :=
    hc.onRow_cell hn hword hc.isPowerOfTwo_step hle (k := 0) (mul_one height) (by omega)
  rw [Term.onRow_add, hrow, Term.onRow_one, one_mul, add_zero]

include hd

theorem holds_following_iff :
    (⟨name, d.current - (c.current + 1), .every height 0, []⟩ : Constraint).Holds
        n columns periodic b ↔
      ∀ i < n / height, d.cellAt columns i = c.cellAt columns i + 1 := by
  have hlink : (⟨name, d.cell 0 - (c.current + 1), .every height 0, []⟩ : Constraint).Holds
      n columns periodic b ↔
        ∀ i < n / height, d.cellAt columns (1 * i + 0) = c.cellAt columns i + 1 :=
    Constraint.holds_link_iff hn hword hc.isPowerOfTwo_step hle hd (mul_one height) one_pos
      (onRow_following hn hword hc hle)
  simp only [one_mul, add_zero] at hlink
  exact hlink

theorem holds_next_following_iff :
    (⟨name, d.next - (c.current + 1), .every height 0, [.fromEnd height]⟩ : Constraint).Holds
        n columns periodic b ↔
      ∀ i, i + 1 < n / height → d.cellAt columns (i + 1) = c.cellAt columns i + 1 := by
  have hnext : (⟨name, d.cell 1 - (c.current + 1), .every height 0, [.fromEnd height]⟩ :
      Constraint).Holds n columns periodic b ↔
        ∀ i, i + 1 < n / height → d.cellAt columns (1 * (i + 1)) = c.cellAt columns i + 1 :=
    Constraint.holds_next_iff hn hword hc.isPowerOfTwo_step hle hd (mul_one height)
      (onRow_following hn hword hc hle)
  simp only [one_mul] at hnext
  exact hnext

end Single

/-! ### Each builtin -/

theorem PedersenCells.holds_addressConstraints_iff {cells : PedersenCells}
    (h : cells.IsArranged n) (hstart : Hint.pedersenStart.value b.hints = (start : Felt)) :
    (∀ k ∈ (Component.pedersen cells).addressConstraints, k.Holds n columns periodic b) ↔
      ∀ i < n / cells.height, (Component.pedersen cells).addressCells columns i =
        (Builtin.pedersen.addresses start i).map Residue.ofNat := by
  have hle := h.height_le
  have hpow := h.input0.isPowerOfTwo_step
  have hconstraints : (Component.pedersen cells).addressConstraints =
    [⟨"pedersen/input0_addr", cells.input0.next - (cells.output.current + 1),
        .every cells.height 0, [.fromEnd cells.height]⟩,
      ⟨"pedersen/init_addr", cells.input0.current - Hint.pedersenStart.term, .first 0, []⟩,
      ⟨"pedersen/input1_addr", cells.input1.current - (cells.input0.current + 1),
        .every cells.height 0, []⟩,
      ⟨"pedersen/output_addr", cells.output.current - (cells.input1.current + 1),
        .every cells.height 0, []⟩] := rfl
  have hchain := consecutive_of_last_iff start 3 (cells.input0.cellAt columns)
    (fun i => [cells.input1.cellAt columns i, cells.output.cellAt columns i])
    (Nat.div_pos hle (pos_of_isPowerOfTwo hpow)) fun _ => rfl
  simp only [hconstraints, List.forall_mem_cons, List.not_mem_nil, false_implies, implies_true,
    and_true, holds_next_following_iff hn hword h.output h.input0 hle,
    Constraint.holds_start_iff hn hword hpow hle h.input0 (mul_one _),
    holds_following_iff hn hword h.input0 h.input1 hle,
    holds_following_iff hn hword h.input1 h.output hle, hstart]
  refine Iff.trans ?_ hchain
  simp only [areConsecutive_cons_cons, areConsecutive_singleton, and_true, imp_and, forall_and]
  exact and_left_comm

theorem RangeCheckCells.holds_addressConstraints_iff {cells : RangeCheckCells}
    (h : cells.IsArranged n) (hstart : Hint.rangeCheckStart.value b.hints = (start : Felt)) :
    (∀ k ∈ (Component.rangeCheck cells).addressConstraints, k.Holds n columns periodic b) ↔
      ∀ i < n / cells.height, (Component.rangeCheck cells).addressCells columns i =
        (Builtin.rangeCheck.addresses start i).map Residue.ofNat := by
  have hle := h.height_le
  have hpow := h.memory.isPowerOfTwo_step
  have hconstraints : (Component.rangeCheck cells).addressConstraints =
    [⟨"rc_builtin/addr_step", cells.memory.next - (cells.memory.current + 1),
        .every cells.height 0, [.fromEnd cells.height]⟩,
      ⟨"rc_builtin/init_addr", cells.memory.current - Hint.rangeCheckStart.term, .first 0, []⟩] :=
    rfl
  have hchain := consecutive_of_last_iff start 1 (cells.memory.cellAt columns)
    (fun _ => []) (Nat.div_pos hle (pos_of_isPowerOfTwo hpow)) fun _ => rfl
  have haddresses (i : Nat) :
      Builtin.rangeCheck.addresses start i = instanceAddresses 1 start i := by
    simp [Builtin.addresses, RangeCheckInstance.address, instanceAddresses]
  simp only [hconstraints, List.forall_mem_cons, List.not_mem_nil, false_implies, implies_true,
    and_true, holds_next_following_iff hn hword h.memory h.memory hle,
    Constraint.holds_start_iff hn hword hpow hle h.memory (mul_one _), hstart, haddresses]
  refine Iff.trans ?_ hchain
  simp only [areConsecutive_singleton, implies_true, and_true]
  exact and_comm

theorem EcdsaCells.holds_addressConstraints_iff {cells : EcdsaCells}
    (h : cells.IsArranged n) (hstart : Hint.ecdsaStart.value b.hints = (start : Felt)) :
    (∀ k ∈ (Component.ecdsa cells).addressConstraints, k.Holds n columns periodic b) ↔
      ∀ i < n / cells.height, (Component.ecdsa cells).addressCells columns i =
        (Builtin.ecdsa.addresses start i).map Residue.ofNat := by
  have hle := h.height_le
  have hpow := h.pubkey.isPowerOfTwo_step
  have hconstraints : (Component.ecdsa cells).addressConstraints =
    [⟨"ecdsa/init_addr", cells.pubkey.current - Hint.ecdsaStart.term, .first 0, []⟩,
      ⟨"ecdsa/message_addr", cells.message.current - (cells.pubkey.current + 1),
        .every cells.height 0, []⟩,
      ⟨"ecdsa/pubkey_addr", cells.pubkey.next - (cells.message.current + 1),
        .every cells.height 0, [.fromEnd cells.height]⟩] := rfl
  have hchain := consecutive_of_last_iff start 2 (cells.pubkey.cellAt columns)
    (fun i => [cells.message.cellAt columns i])
    (Nat.div_pos hle (pos_of_isPowerOfTwo hpow)) fun _ => rfl
  simp only [hconstraints, List.forall_mem_cons, List.not_mem_nil, false_implies, implies_true,
    and_true, holds_next_following_iff hn hword h.message h.pubkey hle,
    Constraint.holds_start_iff hn hword hpow hle h.pubkey (mul_one _),
    holds_following_iff hn hword h.pubkey h.message hle, hstart]
  refine Iff.trans ?_ hchain
  simp only [areConsecutive_cons_cons, areConsecutive_singleton, and_true]
  exact and_congr_right fun _ => and_comm

namespace EcOpCells

variable {cells : EcOpCells}

variable (h : cells.IsArranged n)
include h

theorem onRow_address {k : Nat} (hk : k < memoryPlaces) (i : Nat) (hi : i < n / cells.height) :
    (cells.memory.cell k).onRow n columns periodic b (cells.height * i) =
      cells.memory.cellAt columns (memoryPlaces * i + k) := by
  have hpow := isPowerOfTwo_mul (a := SubsetSum.steps) (by decide) h.isPowerOfTwo_step
  refine h.memory.onRow_cell hn hword hpow h.height_le height_div_mul_memoryPlaces ?_
  exact instance_step_lt hn hpow h.height_le hi
    ((mul_comm _ _).trans height_div_mul_memoryPlaces) hk

/-- Each address of an instance follows the one before it. -/
theorem holds_following_iff {k : Nat} (hk : k + 1 < memoryPlaces) :
    (⟨name, cells.memory.cell ((k : Int) + 1) - (cells.memory.cell k + 1), .every cells.height 0,
        []⟩ : Constraint).Holds n columns periodic b ↔
      ∀ i < n / cells.height, cells.memory.cellAt columns (memoryPlaces * i + (k + 1)) =
        cells.memory.cellAt columns (memoryPlaces * i + k) + 1 :=
  Constraint.holds_link_iff hn hword (isPowerOfTwo_mul (by decide) h.isPowerOfTwo_step) h.height_le
    h.memory height_div_mul_memoryPlaces hk fun i hi => by
      rw [Term.onRow_add, onRow_address hn hword h (Nat.lt_of_succ_lt hk) i hi, Term.onRow_one]

/-- An instance starts as many addresses after the one before it as each has. -/
theorem holds_next_iff : (⟨name, cells.memory.cell memoryPlaces -
        (cells.memory.current + .constant (.ofNat memoryCells)), .every cells.height 0,
        [.fromEnd cells.height]⟩ : Constraint).Holds n columns periodic b ↔
      ∀ i, i + 1 < n / cells.height → cells.memory.cellAt columns (memoryPlaces * (i + 1)) =
        cells.memory.cellAt columns (memoryPlaces * i + 0) + ((memoryCells : Nat) : Felt) :=
  Constraint.holds_next_iff hn hword (isPowerOfTwo_mul (by decide) h.isPowerOfTwo_step) h.height_le
    h.memory height_div_mul_memoryPlaces fun i hi =>
      congrArg (· + _) (onRow_address hn hword h (k := 0) (by decide) i hi)

theorem holds_addressConstraints_iff (hstart : Hint.ecOpStart.value b.hints = (start : Felt)) :
    (∀ k ∈ (Component.ecOp cells).addressConstraints, k.Holds n columns periodic b) ↔
      ∀ i < n / cells.height, (Component.ecOp cells).addressCells columns i =
        (Builtin.ecOp.addresses start i).map Residue.ofNat := by
  have hpow : isPowerOfTwo cells.height = true := isPowerOfTwo_mul (by decide) h.isPowerOfTwo_step
  let following (k : Nat) : Constraint :=
    ⟨"ec_op/" ++ ["p_y", "q_x", "q_y", "m", "r_x", "r_y"][k]?.getD "" ++ "_addr",
      cells.memory.cell ((k : Int) + 1) - (cells.memory.cell k + 1), .every cells.height 0, []⟩
  have hconstraints : (Component.ecOp cells).addressConstraints =
    ⟨"ec_op/init_addr", cells.memory.current - Hint.ecOpStart.term, .first 0, []⟩ ::
      ⟨"ec_op/p_x_addr", cells.memory.cell memoryPlaces -
        (cells.memory.current + .constant (.ofNat memoryCells)), .every cells.height 0,
        [.fromEnd cells.height]⟩ :: (List.range 6).map following := rfl
  let address (i k : Nat) : Felt := cells.memory.cellAt columns (memoryPlaces * i + k)
  have hfollowing : (∀ k ∈ (List.range 6).map following, k.Holds n columns periodic b) ↔
      ∀ i < n / cells.height, AreConsecutive ((List.range 7).map (address i)) := by
    simp only [List.forall_mem_map, List.mem_range, areConsecutive_map_range_iff]
    constructor
    · intro hall i hi k hk
      exact (holds_following_iff hn hword h (hk.trans (by decide))).mp
        (hall k (Nat.lt_of_succ_lt_succ hk)) i hi
    · intro hall k hk
      have hk : k + 1 < 7 := Nat.succ_lt_succ hk
      exact (holds_following_iff hn hword h (hk.trans (by decide))).mpr fun i hi => hall i hi k hk
  have hchain := consecutive_iff start 7 (address · 0)
    (fun i => (List.range' 1 6).map (address i))
    (Nat.div_pos h.height_le (pos_of_isPowerOfTwo hpow)) fun _ => rfl
  rw [hconstraints, List.forall_mem_cons, List.forall_mem_cons, holds_next_iff hn hword h,
    hfollowing, Constraint.holds_start_iff hn hword hpow h.height_le h.memory
      height_div_mul_memoryPlaces, hstart]
  exact hchain

end EcOpCells

namespace BitwiseCells

variable {cells : BitwiseCells}

omit hn hword in
/-- The constraints on strands have other names. -/
theorem addressConstraints_eq :
    (Component.bitwise cells).addressConstraints = cells.addressConstraints := by
  have htrims : cells.trimConstraints.filter (fun k => decide (k.name ∈ addressNames)) = [] := by
    rw [List.filter_eq_nil_iff]
    intro k hk
    obtain ⟨⟨j, bits⟩, -, rfl⟩ := List.mem_map.mp hk
    rw [decide_eq_true_eq]
    intro hmem
    have hprefix : "bitwise/unique_unpacking".toList <+:
        ("bitwise/unique_unpacking" ++ toString j).toList := by
      rw [String.toList_append]
      exact List.prefix_append _ _
    have hnone : ∀ name ∈ addressNames, ¬ "bitwise/unique_unpacking".toList <+: name.toList := by
      decide
    exact hnone _ hmem hprefix
  have hrest : (cells.addressConstraints ++ cells.partitionConstraints ++
      cells.operationConstraints).filter (fun k => decide (k.name ∈ addressNames)) =
        cells.addressConstraints := rfl
  rw [Component.addressConstraints, Component.constraints, constraints, List.filter_append, hrest,
    htrims, List.append_nil]

variable {config : LayoutConfig} (h : cells.IsArranged config n)
include h

theorem holds_following_iff : (⟨name, cells.values.next - (cells.values.current + 1),
      .every cells.values.step 0, [.every cells.height (3 * cells.values.step)]⟩ :
        Constraint).Holds n columns periodic b ↔
      ∀ i < n / cells.height, AreConsecutive
        ((List.range 4).map fun k => cells.values.cellAt columns (4 * i + k)) := by
  have hpow := h.disjunction.isPowerOfTwo_step
  have hplaces : 4 * cells.values.step = cells.height := h.height_eq.symm
  have hstep := h.values.isPowerOfTwo_step
  have hle : cells.values.step ≤ n := instance_step_le hpow h.height_le hplaces
  have hclass : (Rows.every cells.values.step 0).IsResidueClass n :=
    Rows.isResidueClass_every (dvd_of_isPowerOfTwo hstep hn hle) (pos_of_isPowerOfTwo hstep)
  rw [Constraint.holds_iff_holdsOnInstance hclass (dvd_of_isPowerOfTwo hpow hn h.height_le)]
  refine forall₂_congr fun i hi => ?_
  rw [areConsecutive_map_range_iff]
  refine (Constraint.holdsOnInstance_steps_except_last_iff hn hpow h.height_le hi hplaces
    hstep).trans (forall₂_congr fun k hk => ?_)
  have hcell {j : Nat} (hj : k + j < 4) : (cells.values.cell j).onRow n columns periodic b
      (cells.values.step * (4 * i + k)) = cells.values.cellAt columns (1 * (4 * i + k) + j) :=
    h.values.onRow_cell hn hword hstep hle (mul_one _) (by
      rw [one_mul, add_assoc]
      exact instance_step_lt hn hpow h.height_le hi hplaces hj)
  have hcurrent := hcell (j := 0) (by omega)
  have hnext := hcell (j := 1) hk
  rw [Term.onRow_sub, Term.onRow_add, Term.onRow_one, sub_eq_zero]
  rw [one_mul] at hcurrent hnext
  exact Eq.congr hnext (congrArg (· + 1) hcurrent)

theorem holds_addressConstraints_iff (hstart : Hint.bitwiseStart.value b.hints = (start : Felt)) :
    (∀ k ∈ (Component.bitwise cells).addressConstraints, k.Holds n columns periodic b) ↔
      ∀ i < n / cells.height, (Component.bitwise cells).addressCells columns i =
        (Builtin.bitwise.addresses start i).map Residue.ofNat := by
  have hpow := h.disjunction.isPowerOfTwo_step
  have hle := h.height_le
  have hplaces : cells.values.step * 4 = cells.height := (mul_comm _ _).trans h.height_eq.symm
  let value (i k : Nat) : Felt := cells.values.cellAt columns (4 * i + k)
  have hconstraints : (Component.bitwise cells).addressConstraints =
    [⟨"bitwise/init_var_pool_addr", cells.values.current - Hint.bitwiseStart.term, .first 0, []⟩,
      ⟨"bitwise/step_var_pool_addr", cells.values.next - (cells.values.current + 1),
        .every cells.values.step 0, [.every cells.height (3 * cells.values.step)]⟩,
      ⟨"bitwise/x_or_y_addr", cells.disjunction.current - (cells.values.cell 3 + 1),
        .every cells.height 0, []⟩,
      ⟨"bitwise/next_var_pool_addr", cells.values.cell 4 - (cells.disjunction.current + 1),
        .every cells.height 0, [.fromEnd cells.height]⟩] := addressConstraints_eq
  have hlast {name : String} : (⟨name, cells.disjunction.current - (cells.values.cell 3 + 1),
        .every cells.height 0, []⟩ : Constraint).Holds n columns periodic b ↔
      ∀ i < n / cells.height, cells.disjunction.cellAt columns (1 * i + 0) = value i 3 + 1 :=
    Constraint.holds_link_iff hn hword hpow hle h.disjunction (mul_one _) one_pos fun i hi =>
      congrArg (· + 1) (h.values.onRow_cell hn hword hpow hle hplaces
        (instance_step_lt hn hpow hle hi ((mul_comm _ _).trans hplaces) (by decide)))
  have hnext {name : String} : (⟨name, cells.values.cell 4 - (cells.disjunction.current + 1),
        .every cells.height 0, [.fromEnd cells.height]⟩ : Constraint).Holds n columns periodic b ↔
      ∀ i, i + 1 < n / cells.height →
        cells.values.cellAt columns (4 * (i + 1)) = cells.disjunction.cellAt columns i + 1 :=
    Constraint.holds_next_iff hn hword hpow hle h.values hplaces
      (onRow_following hn hword h.disjunction hle)
  have hchain := consecutive_of_last_iff start 5 (value · 0)
    (fun i => [value i 1, value i 2, value i 3, cells.disjunction.cellAt columns i])
    (Nat.div_pos hle (pos_of_isPowerOfTwo hpow)) fun _ => rfl
  simp only [hconstraints, List.forall_mem_cons, List.not_mem_nil, false_implies, implies_true,
    and_true, Constraint.holds_start_iff hn hword hpow hle h.values hplaces, hstart,
    holds_following_iff hn hword h, hlast, hnext]
  have hsplit (i : Nat) : AreConsecutive [value i 0, value i 1, value i 2, value i 3,
        cells.disjunction.cellAt columns i] ↔
      AreConsecutive ((List.range 4).map (value i)) ∧
        cells.disjunction.cellAt columns (1 * i + 0) = value i 3 + 1 := by
    have hvalues : (List.range 4).map (value i) =
        [value i 0, value i 1, value i 2, value i 3] := rfl
    simp only [hvalues, areConsecutive_cons_cons, areConsecutive_singleton, and_true, and_assoc,
      one_mul, add_zero]
  simp only [hsplit, imp_and, forall_and] at hchain
  refine Iff.trans (and_congr_right fun _ => ?_) hchain
  rw [← and_assoc, and_comm]
  rfl

end BitwiseCells

end Builtins

end CairoTrace
