import CairoTrace.Proofs.Completeness.PointSum
import CairoTrace.Proofs.Trace.Writes

/-!
# The digits of a scalar

The suffixes of a sum that ends with zero write the digits of a number, but modulo the Stark prime a
field element is the sum of the digits of two numbers of 252 digits. The constraints on the products
of three digits leave the smaller one only: a scalar has one unpacking
(`SubsetSum.existsUnique_unpacking`), which is that of its representative below the prime.
-/

namespace CairoTrace

open SubsetSum (steps)

instance : NeZero SubsetSum.steps := ⟨by decide⟩

/-- Values for the cells of a sum that its scalar is unpacked into: the suffixes by their steps, and
the products of the digits 251, 196 and 192 and of the first two of them. -/
@[ext]
structure Unpacking where
  suffix : Fin steps → Felt
  ones192 : Felt
  ones196 : Felt

namespace Unpacking

/-- The suffixes of a word and the products of its digits. -/
@[simps]
def ofWord (w : Word) : Unpacking where
  suffix k := .ofNat (w >>> k.val)
  ones192 := (unpackingProducts w).1
  ones196 := (unpackingProducts w).2

/-- The places of an unpacking in the columns of a sum, with its values. -/
def cells (u : Unpacking) (s : SubsetSum) (products : VirtualColumn) (i : Nat) : List CellValue :=
  (List.finRange steps).map (fun k : Fin steps =>
      ((s.suffix.column, s.suffix.row (steps * i + k.val)), u.suffix k)) ++
    [((products.column, products.row (steps * i)), u.ones192),
      ((products.column, products.row (steps * i + 1)), u.ones196)]

end Unpacking

namespace SubsetSum

/-- Where a sum has its scalar in a trace of `n` rows and some columns: the suffixes and the
products of digits are in two columns, with a row for each step. -/
structure HasScalar (s : SubsetSum) (products : VirtualColumn) (n width : Nat) : Prop where
  isPowerOfTwo_step : isPowerOfTwo s.step = true
  height_le : s.height ≤ n
  isArranged : s.IsArranged
  startsSteps_products : products.StartsSteps s.step
  scalarBits_eq : s.scalarBits = 252
  suffix_lt : s.suffix.column < width
  products_lt : products.column < width
  column_ne : s.suffix.column ≠ products.column

/-- The unpacking in the cells of an instance. -/
def unpackingAt (s : SubsetSum) (products : VirtualColumn) (columns : List (Array Felt)) (i : Nat) :
    Unpacking where
  suffix k := s.suffix.cellAt columns (steps * i + k.val)
  ones192 := products.cellAt columns (steps * i)
  ones196 := products.cellAt columns (steps * i + 1)

/-- The constraints on the digits of a scalar that is unpacked. -/
def scalarConstraints (s : SubsetSum) (products : VirtualColumn) (label : String)
    (pointX pointY : Term) : List Constraint :=
  s.digitConstraints label pointX pointY ++ s.unpackingConstraints label products

end SubsetSum

/-- Whether the constraints on the digits of a scalar hold on an instance, whatever else is in the
trace, once the cells of its scalar have the values of an unpacking. -/
def Unpacking.IsAccepted (u : Unpacking) (s : SubsetSum) (products : VirtualColumn)
    (n width i : Nat) (constraints : List Constraint) (periodic : List PeriodicColumn)
    (b : Bindings) : Prop :=
  ∀ columns : List (Array Felt), columns.length = width → (∀ column ∈ columns, column.size = n) →
    s.unpackingAt products columns i = u →
      ∀ c ∈ constraints, c.HoldsOnInstance n columns periodic b s.height i

/-! ## One number -/

namespace PointSum

variable {t : PointSum} {ones192 ones196 : Felt} {m : Nat}

/-- The products of the digits of a number are determined by them. -/
theorem Unpacks.products_eq (h : t.Unpacks ones192 ones196)
    (hsuffix : ∀ k < steps, t.suffix k = ((m / 2 ^ k : Nat) : Felt)) :
    (ones192, ones196) = unpackingProducts m := by
  have hdigit {k : Nat} (hk : k + 1 < steps) : t.digit k = ((m.testBit k).toNat : Felt) :=
    digit_eq hsuffix hk
  have hand (x y : Bool) : ((x && y).toNat : Felt) = x.toNat * y.toNat := by
    cases x <;> cases y <;> simp
  have hones196 : ones196 = ((m.testBit 251 && m.testBit 196).toNat : Felt) := by
    rw [h.cumulative_196, hdigit (by decide), hdigit (by decide), hand]
  rw [h.cumulative_192, hones196, hdigit (by decide), ← hand]
  rfl

/-- The constraints on the digits of a scalar hold exactly if the suffixes are those of its
representative, and the products those of the digits of it. -/
theorem extracts_and_unpacks_iff : (t.Extracts 252 ∧ t.Unpacks ones192 ones196) ↔
    (∀ k < steps, t.suffix k = (((t.suffix 0).val / 2 ^ k : Nat) : Felt)) ∧
      (ones192, ones196) = unpackingProducts (t.suffix 0).val := by
  constructor
  · rintro ⟨hextracts, hunpacks⟩
    obtain ⟨m, hm, hsuffix⟩ := hextracts.exists_scalar (by decide) (by decide)
    have hlt : m < starkPrime := hunpacks.lt_starkPrime hsuffix hm
    have hfirst : (t.suffix 0).val = m := by
      rw [hsuffix 0 (by decide), pow_zero, Nat.div_one, Felt.val_natCast_of_lt hlt]
    rw [hfirst]
    exact ⟨hsuffix, hunpacks.products_eq hsuffix⟩
  · rintro ⟨hsuffix, hproducts⟩
    have hlt : (t.suffix 0).val < starkPrime := (t.suffix 0).isLt
    obtain ⟨rfl, rfl⟩ := Prod.mk.inj hproducts
    exact ⟨extracts_of_lt hsuffix (hlt.trans (by decide)) (by decide), unpacks_of_lt hsuffix hlt⟩

end PointSum

/-! ## Cells -/

namespace SubsetSum

variable {s : SubsetSum} {products : VirtualColumn} {n width i : Nat} {u : Unpacking}
  {columns : List (Array Felt)} {periodic : List PeriodicColumn} {b : Bindings} {label : String}
  {pointX pointY : Term}

/-- The places of an unpacking are in the trace. -/
theorem HasScalar.lt_of_mem_cells (h : s.HasScalar products n width) (hn : isPowerOfTwo n = true)
    (hi : i < n / s.height) {e : CellValue} (he : e ∈ u.cells s products i) :
    e.1.1 < width ∧ e.1.2 < n := by
  have hrow {c : VirtualColumn} (hc : c.StartsSteps s.step) {k : Nat} (hk : k < steps) :
      c.row (steps * i + k) < n := by
    have hlt := instance_row_lt hn (isPowerOfTwo_height h.isPowerOfTwo_step) h.height_le hi
      (Nat.mul_lt_mul_of_pos_right hk (pos_of_isPowerOfTwo h.isPowerOfTwo_step))
    have hplace : c.row (steps * i + k) = s.height * i + k * s.step := by
      rw [VirtualColumn.row, hc.1, hc.2, height]
      ring
    rwa [hplace]
  simp only [Unpacking.cells, List.mem_append, List.mem_map, List.mem_cons, List.not_mem_nil,
    or_false] at he
  rcases he with ⟨k, -, rfl⟩ | rfl | rfl
  · exact ⟨h.suffix_lt, hrow h.isArranged.suffix k.isLt⟩
  · exact ⟨h.products_lt, hrow (k := 0) h.startsSteps_products (by decide)⟩
  · exact ⟨h.products_lt, hrow (k := 1) h.startsSteps_products (by decide)⟩

theorem HasScalar.row_injective (h : s.HasScalar products n width) {c : VirtualColumn}
    (hc : c.StartsSteps s.step) : Function.Injective c.row := by
  intro j k hjk
  have hpos := pos_of_isPowerOfTwo h.isPowerOfTwo_step
  rw [VirtualColumn.row, VirtualColumn.row, hc.1, Nat.add_left_cancel_iff] at hjk
  exact Nat.eq_of_mul_eq_mul_left hpos hjk

/-- No two values of an unpacking are in one place. -/
theorem HasScalar.nodup_cells (h : s.HasScalar products n width) :
    ((u.cells s products i).map (·.1)).Nodup := by
  have hsuffix := h.row_injective h.isArranged.suffix
  have hproducts := h.row_injective h.startsSteps_products
  rw [Unpacking.cells, List.map_append, List.map_map, List.nodup_append]
  refine ⟨(List.nodup_finRange steps).map fun j k hjk => ?_, ?_, ?_⟩
  · have hrow := hsuffix (congrArg Prod.snd hjk)
    exact Fin.ext (Nat.add_left_cancel hrow)
  · simp only [List.map_cons, List.map_nil, List.nodup_cons, List.mem_singleton, List.not_mem_nil,
      not_false_eq_true, List.nodup_nil, and_true, Prod.mk.injEq, true_and]
    intro hrow
    have hstep := hproducts hrow
    omega
  · intro p hp q hq hpq
    obtain ⟨k, -, rfl⟩ := List.mem_map.mp hp
    have hcolumn : q.1 = products.column := by
      simp only [List.map_cons, List.map_nil, List.mem_cons, List.not_mem_nil, or_false] at hq
      rcases hq with rfl | rfl <;> rfl
    exact h.column_ne ((congrArg Prod.fst hpq).trans hcolumn)

/-- There are traces with any values in the cells of a scalar. -/
theorem HasScalar.exists_unpackingAt_eq (h : s.HasScalar products n width)
    (hn : isPowerOfTwo n = true) (hi : i < n / s.height) (u : Unpacking) :
    ∃ columns : List (Array Felt), columns.length = width ∧ (∀ column ∈ columns, column.size = n) ∧
      s.unpackingAt products columns i = u := by
  obtain ⟨columns, hwidth, hsize, hheld⟩ := exists_columns_of_nodup
    (fun e he => h.lt_of_mem_cells hn hi he) (h.nodup_cells (i := i) (u := u))
  refine ⟨columns, hwidth, hsize, ?_⟩
  ext k
  · exact hheld _ (List.mem_append_left _ (List.mem_map_of_mem (List.mem_finRange k)))
  · exact hheld _ (List.mem_append_right _ List.mem_cons_self)
  · exact hheld _ (List.mem_append_right _ (List.mem_cons_of_mem _ List.mem_cons_self))

/-- On a trace, the constraints on the digits of a scalar hold exactly if its cells have the
unpacking of its representative. -/
theorem scalarConstraints_holdOnInstance_iff (h : s.HasScalar products n width)
    (hn : isPowerOfTwo n = true) (hword : n < 2 ^ 64) (hi : i < n / s.height) :
    (∀ c ∈ s.scalarConstraints products label pointX pointY,
      c.HoldsOnInstance n columns periodic b s.height i) ↔
      s.unpackingAt products columns i =
        .ofWord (s.suffix.cellAt columns (steps * i)).val := by
  rw [scalarConstraints, List.forall_mem_append,
    digits_holdOnInstance_iff hn hword h.isPowerOfTwo_step h.height_le hi h.isArranged
      (h.scalarBits_eq ▸ by decide),
    unpacking_holdOnInstance_iff hn hword h.isPowerOfTwo_step h.height_le hi h.isArranged
      h.startsSteps_products,
    h.scalarBits_eq, PointSum.extracts_and_unpacks_iff, Unpacking.ext_iff, funext_iff,
    Fin.forall_iff, Prod.ext_iff]
  refine and_congr (forall₂_congr fun k hk => ?_) Iff.rfl
  rw [← Nat.shiftRight_eq_div_pow]
  rfl

/-- Every field element has one unpacking. It is the only one on a trace, and has the suffixes of
the representative of the element and the products of its digits. -/
theorem existsUnique_unpacking (h : s.HasScalar products n width) (hn : isPowerOfTwo n = true)
    (hword : n < 2 ^ 64) (hi : i < n / s.height) (m : Felt) :
    (∃! u : Unpacking, u.suffix 0 = m ∧ u.IsAccepted s products n width i
      (s.scalarConstraints products label pointX pointY) periodic b) ∧
    ∀ columns : List (Array Felt), (s.unpackingAt products columns i).suffix 0 = m →
      ((∀ c ∈ s.scalarConstraints products label pointX pointY,
        c.HoldsOnInstance n columns periodic b s.height i) ↔
        s.unpackingAt products columns i = .ofWord m.val) := by
  have htrace (columns : List (Array Felt))
      (hm : (s.unpackingAt products columns i).suffix 0 = m) :
      (∀ c ∈ s.scalarConstraints products label pointX pointY,
        c.HoldsOnInstance n columns periodic b s.height i) ↔
        s.unpackingAt products columns i = .ofWord m.val := by
    rw [scalarConstraints_holdOnInstance_iff h hn hword hi, ← hm]
    rfl
  have hfirst : (Unpacking.ofWord m.val).suffix 0 = m := Felt.natCast_val m
  refine ⟨⟨.ofWord m.val, ⟨hfirst, fun columns _ _ hu => ?_⟩, fun u hu => ?_⟩, htrace⟩
  · exact (htrace columns (hu ▸ hfirst)).mpr hu
  · obtain ⟨hm, haccepted⟩ := hu
    obtain ⟨columns, hwidth, hsize, rfl⟩ := h.exists_unpackingAt_eq hn hi u
    exact (htrace columns hm).mp (haccepted columns hwidth hsize rfl)

/-- A sum whose steps are the rows of a trace. -/
def rowSum : SubsetSum := .ofColumns 0 1 2 3 1 252

/-- The greatest element has the digits 251, 196 and 192 alone, so that both products are one. -/
theorem existsUnique_unpacking_greatest :
    (∃! u : Unpacking, u.suffix 0 = -1 ∧ u.IsAccepted rowSum ⟨4, 1, 0⟩ 256 5 0
      (rowSum.scalarConstraints ⟨4, 1, 0⟩ "sum" 0 0) [] ⟨[], [], 0⟩) ∧
    Unpacking.ofWord (-1 : Felt).val =
      ⟨fun k => .ofNat ((2 ^ 251 + 2 ^ 196 + 2 ^ 192) >>> k.val), 1, 1⟩ := by
  have hscalar : rowSum.HasScalar ⟨4, 1, 0⟩ 256 5 := by
    refine ⟨by decide, by decide, isArranged_ofColumns, ⟨rfl, rfl⟩, rfl, ?_, ?_, ?_⟩ <;> decide
  have hval : (-1 : Felt).val = 2 ^ 251 + 2 ^ 196 + 2 ^ 192 := by decide
  refine ⟨(existsUnique_unpacking hscalar (by decide) (by decide) (by decide) (-1)).1, ?_⟩
  have hproducts : unpackingProducts (2 ^ 251 + 2 ^ 196 + 2 ^ 192) = (1, 1) := by decide
  rw [hval]
  ext k
  · rfl
  · exact congrArg Prod.fst hproducts
  · exact congrArg Prod.snd hproducts

end SubsetSum

end CairoTrace
