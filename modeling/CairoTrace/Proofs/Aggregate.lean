import CairoTrace.Pool.Permutation
import CairoTrace.Proofs.StarkField
import Mathlib.Algebra.Polynomial.Roots

/-!
# Aggregates of differences

A list of differences `u` takes an aggregate through the steps `acc ↦ acc·(1 + z·u) + α·u²`. It
takes it to `acc·factor + α·offset` for two polynomials in `z` (`eq_factor_add_offset`). A
difference that is zero changes neither of them, and the two determine the others in their order
(`eq_of_factor_eq_of_offset_eq`): the highest coefficient of the factor is the product of all
differences, and that of the offset is this product times the first of them.

The numbers that a list of differences passes are its partial sums (`partialSums`). A column is then
known up to repetitions from its aggregates for all challenges, as long as it has fewer rows than
the field has elements (`mem_partialSums_iff_of_eval_eq`).
-/

namespace CairoTrace

namespace Aggregate

/-- What an aggregate is multiplied by over a list of differences. -/
noncomputable def factor (l : List Felt) : Polynomial Felt :=
  (l.map fun u => 1 + Polynomial.C u * Polynomial.X).prod

/-- What is added to an aggregate over a list of differences, in units of `α`. -/
noncomputable def offset : List Felt → Polynomial Felt
  | [] => 0
  | u :: l => Polynomial.C (u ^ 2) * factor l + offset l

variable {u : Felt} {l m : List Felt}

@[simp] theorem factor_nil : factor [] = 1 := rfl

theorem factor_cons : factor (u :: l) = (1 + Polynomial.C u * Polynomial.X) * factor l := by
  rw [factor, List.map_cons, List.prod_cons, factor]

theorem factor_append : factor (l ++ m) = factor l * factor m := by
  rw [factor, List.map_append, List.prod_append, factor, factor]

@[simp] theorem offset_nil : offset [] = 0 := rfl

theorem offset_cons : offset (u :: l) = Polynomial.C (u ^ 2) * factor l + offset l := rfl

theorem offset_append : offset (l ++ m) = offset l * factor m + offset m := by
  induction l with
  | nil => rw [List.nil_append, offset_nil, zero_mul, zero_add]
  | cons u l ih =>
    rw [List.cons_append, offset_cons, ih, factor_append, offset_cons]
    ring

/-! ## The steps of an aggregate -/

/-- The differences between the first rows of a column. -/
def differences (s : Nat → Felt) (m : Nat) : List Felt :=
  (List.range m).map fun i => s (i + 1) - s i

theorem differences_succ (s : Nat → Felt) (m : Nat) :
    differences s (m + 1) = differences s m ++ [s (m + 1) - s m] := by
  rw [differences, List.range_succ, List.map_append, differences, List.map_singleton]

theorem differences_add (s : Nat → Felt) (k m : Nat) :
    differences s (k + m) = differences s k ++ differences (fun i => s (k + i)) m := by
  rw [differences, List.range_add, List.map_append, List.map_map, differences, differences]
  rfl

theorem differences_congr {s t : Nat → Felt} {m : Nat}
    (h : ∀ i < m, s (i + 1) - s i = t (i + 1) - t i) : differences s m = differences t m :=
  List.map_congr_left fun i hi => h i (List.mem_range.mp hi)

theorem sum_differences (s : Nat → Felt) (m : Nat) : (differences s m).sum = s m - s 0 := by
  induction m with
  | zero => rw [sub_self]; rfl
  | succ m ih =>
    rw [differences_succ, List.sum_append, ih, List.sum_singleton]
    ring

/-- An aggregate after some of its steps. -/
theorem eq_factor_add_offset {n : Nat} {s aggregate : Nat → Felt} {z alpha : Felt}
    (hinit : aggregate 0 = 1)
    (hstep : ∀ i, i + 1 < n → aggregate (i + 1) =
      aggregate i * (1 + z * (s (i + 1) - s i)) + alpha * (s (i + 1) - s i) ^ 2)
    {i : Nat} (hi : i < n) :
    aggregate i =
      (factor (differences s i)).eval z + alpha * (offset (differences s i)).eval z := by
  induction i with
  | zero =>
    rw [hinit]
    simp [differences]
  | succ i ih =>
    rw [hstep i hi, ih (by omega), differences_succ, factor_append, offset_append, factor_cons,
      offset_cons, factor_nil, offset_nil]
    simp only [Polynomial.eval_mul, Polynomial.eval_add, Polynomial.eval_one, Polynomial.eval_C,
      Polynomial.eval_X, Polynomial.eval_zero]
    ring

/-! ## Lists with the same polynomials -/

theorem natDegree_factor_le : (factor l).natDegree ≤ l.length := by
  induction l with
  | nil => rw [factor_nil, Polynomial.natDegree_one, List.length_nil]
  | cons u l ih =>
    have hlinear : (1 + Polynomial.C u * Polynomial.X : Polynomial Felt).natDegree ≤ 1 := by
      compute_degree
    rw [factor_cons, List.length_cons, add_comm l.length 1]
    exact Polynomial.natDegree_mul_le.trans (Nat.add_le_add hlinear ih)

theorem coeff_factor_cons (k : Nat) :
    (factor (u :: l)).coeff (k + 1) = (factor l).coeff (k + 1) + u * (factor l).coeff k := by
  rw [factor_cons, add_mul, one_mul, mul_assoc, Polynomial.coeff_add, Polynomial.coeff_C_mul,
    Polynomial.coeff_X_mul]

/-- The highest coefficient of a factor. -/
theorem coeff_factor_length : (factor l).coeff l.length = l.prod := by
  induction l with
  | nil => rw [factor_nil, List.length_nil, Polynomial.coeff_one_zero, List.prod_nil]
  | cons u l ih =>
    have hhigh : (factor l).coeff (l.length + 1) = 0 :=
      Polynomial.coeff_eq_zero_of_natDegree_lt (Nat.lt_succ_of_le natDegree_factor_le)
    rw [List.length_cons, coeff_factor_cons, hhigh, ih, zero_add, List.prod_cons]

theorem natDegree_factor (hl : 0 ∉ l) : (factor l).natDegree = l.length := by
  apply le_antisymm natDegree_factor_le
  apply Polynomial.le_natDegree_of_ne_zero
  rw [coeff_factor_length]
  exact List.prod_ne_zero hl

theorem coeff_offset_eq_zero {k : Nat} (hk : l.length ≤ k) : (offset l).coeff k = 0 := by
  induction l with
  | nil => rw [offset_nil, Polynomial.coeff_zero]
  | cons u l ih =>
    rw [List.length_cons] at hk
    have hfactor : (factor l).coeff k = 0 :=
      Polynomial.coeff_eq_zero_of_natDegree_lt (lt_of_le_of_lt natDegree_factor_le hk)
    rw [offset_cons, Polynomial.coeff_add, Polynomial.coeff_C_mul, hfactor, mul_zero, zero_add,
      ih (by omega)]

theorem natDegree_offset_le : (offset l).natDegree ≤ l.length := by
  apply Polynomial.natDegree_le_iff_coeff_eq_zero.mpr
  intro k hk
  exact coeff_offset_eq_zero hk.le

/-- The highest coefficient of an offset, in which the first difference counts twice. -/
theorem coeff_offset_cons : (offset (u :: l)).coeff l.length = u * (u :: l).prod := by
  rw [offset_cons, Polynomial.coeff_add, Polynomial.coeff_C_mul, coeff_factor_length,
    coeff_offset_eq_zero le_rfl, List.prod_cons]
  ring

/-- The polynomials of a list of differences that are not zero determine the list. -/
theorem eq_of_factor_eq_of_offset_eq (hl : 0 ∉ l) (hm : 0 ∉ m) (hfactor : factor l = factor m)
    (hoffset : offset l = offset m) : l = m := by
  induction l generalizing m with
  | nil =>
    have hlength : ([] : List Felt).length = m.length := by
      rw [← natDegree_factor hl, hfactor, natDegree_factor hm]
    exact (List.length_eq_zero_iff.mp hlength.symm).symm
  | cons u l ih =>
    have hlength : (u :: l).length = m.length := by
      rw [← natDegree_factor hl, hfactor, natDegree_factor hm]
    cases m with
    | nil => simp at hlength
    | cons v m =>
      have htails : l.length = m.length := Nat.succ_injective hlength
      have hprod : (u :: l).prod = (v :: m).prod := by
        rw [← coeff_factor_length, ← coeff_factor_length, hfactor, hlength]
      have hhead : u * (u :: l).prod = v * (u :: l).prod := by
        rw [← coeff_offset_cons, hoffset, htails, coeff_offset_cons, hprod]
      obtain rfl : u = v := mul_right_cancel₀ (List.prod_ne_zero hl) hhead
      have hlinear : (1 + Polynomial.C u * Polynomial.X : Polynomial Felt) ≠ 0 := by
        intro hzero
        have hone := congrArg (·.eval 0) hzero
        simp at hone
      have hfactor' : factor l = factor m := by
        rw [factor_cons, factor_cons] at hfactor
        exact mul_left_cancel₀ hlinear hfactor
      have hoffset' : offset l = offset m := by
        rw [offset_cons, offset_cons, hfactor'] at hoffset
        exact add_left_cancel hoffset
      rw [ih (fun h => hl (List.mem_cons_of_mem u h)) (fun h => hm (List.mem_cons_of_mem u h))
        hfactor' hoffset']

/-! ## Differences that are zero -/

/-- The differences that change an aggregate. -/
def nonzero (l : List Felt) : List Felt := l.filter (· ≠ 0)

theorem zero_notMem_nonzero : 0 ∉ nonzero l := by
  intro h
  simp [nonzero] at h

theorem nonzero_cons_zero : nonzero (0 :: l) = nonzero l := by
  simp [nonzero]

theorem nonzero_cons_of_ne (hu : u ≠ 0) : nonzero (u :: l) = u :: nonzero l := by
  simp [nonzero, hu]

theorem nonzero_append : nonzero (l ++ m) = nonzero l ++ nonzero m :=
  List.filter_append l m

/-- Values that are repeated make differences that are zero. -/
theorem nonzero_differences_comp (s : Nat → Felt) {index : Nat → Nat} {m : Nat}
    (hzero : index 0 = 0)
    (hclimbs : ∀ i < m, index (i + 1) = index i ∨ index (i + 1) = index i + 1) :
    nonzero (differences (fun i => s (index i)) m) = nonzero (differences s (index m)) := by
  induction m with
  | zero =>
    rw [hzero]
    rfl
  | succ m ih =>
    rw [differences_succ, nonzero_append, ih fun i hi => hclimbs i (Nat.lt_succ_of_lt hi)]
    rcases hclimbs m (Nat.lt_succ_self m) with hsame | hnext
    · rw [hsame, sub_self, nonzero_cons_zero]
      exact List.append_nil _
    · rw [hnext, differences_succ, nonzero_append]

theorem factor_nonzero : factor (nonzero l) = factor l := by
  induction l with
  | nil => rfl
  | cons u l ih =>
    by_cases hu : u = 0
    · rw [hu, nonzero_cons_zero, ih, factor_cons, Polynomial.C_0, zero_mul, add_zero, one_mul]
    · rw [nonzero_cons_of_ne hu, factor_cons, factor_cons, ih]

theorem offset_nonzero : offset (nonzero l) = offset l := by
  induction l with
  | nil => rfl
  | cons u l ih =>
    by_cases hu : u = 0
    · rw [hu, nonzero_cons_zero, ih, offset_cons, zero_pow two_ne_zero, Polynomial.C_0, zero_mul,
        zero_add]
    · rw [nonzero_cons_of_ne hu, offset_cons, offset_cons, ih, factor_nonzero]

/-! ## Partial sums -/

/-- The sums of the first elements of a list. -/
def partialSums : List Felt → List Felt
  | [] => [0]
  | u :: l => 0 :: (partialSums l).map (u + ·)

variable {x : Felt}

theorem mem_partialSums_cons :
    x ∈ partialSums (u :: l) ↔ x = 0 ∨ ∃ y ∈ partialSums l, u + y = x := by
  rw [partialSums, List.mem_cons, List.mem_map]

theorem zero_mem_partialSums : 0 ∈ partialSums l := by
  cases l with
  | nil => exact List.mem_singleton_self 0
  | cons u l => exact List.mem_cons_self

theorem mem_partialSums_append :
    x ∈ partialSums (l ++ m) ↔ x ∈ partialSums l ∨ ∃ y ∈ partialSums m, l.sum + y = x := by
  induction l generalizing x with
  | nil =>
    rw [List.nil_append, partialSums, List.mem_singleton, List.sum_nil]
    simp only [zero_add, exists_eq_right]
    constructor
    · exact Or.inr
    · rintro (rfl | h)
      · exact zero_mem_partialSums
      · exact h
  | cons u l ih =>
    rw [List.cons_append, mem_partialSums_cons, mem_partialSums_cons, List.sum_cons, or_assoc]
    refine or_congr_right ?_
    constructor
    · rintro ⟨y, hy, rfl⟩
      rcases ih.mp hy with hl | ⟨y, hm, rfl⟩
      · exact Or.inl ⟨y, hl, rfl⟩
      · exact Or.inr ⟨y, hm, add_assoc _ _ _⟩
    · rintro (⟨y, hl, rfl⟩ | ⟨y, hm, rfl⟩)
      · exact ⟨y, ih.mpr (Or.inl hl), rfl⟩
      · exact ⟨l.sum + y, ih.mpr (Or.inr ⟨y, hm, rfl⟩), (add_assoc _ _ _).symm⟩

theorem mem_partialSums_nonzero : x ∈ partialSums (nonzero l) ↔ x ∈ partialSums l := by
  induction l generalizing x with
  | nil => rfl
  | cons u l ih =>
    by_cases hu : u = 0
    · rw [hu, nonzero_cons_zero, ih, mem_partialSums_cons]
      simp only [zero_add, exists_eq_right]
      constructor
      · exact Or.inr
      · rintro (rfl | h)
        · exact zero_mem_partialSums
        · exact h
    · simp only [nonzero_cons_of_ne hu, mem_partialSums_cons, ih]

/-- The partial sums of the differences of a column that starts with zero are its cells. -/
theorem mem_partialSums_differences {s : Nat → Felt} (hs : s 0 = 0) {m : Nat} :
    x ∈ partialSums (differences s m) ↔ ∃ i ≤ m, s i = x := by
  induction m with
  | zero =>
    change x ∈ [0] ↔ _
    simp only [List.mem_singleton, Nat.le_zero, exists_eq_left, hs, eq_comm]
  | succ m ih =>
    rw [differences_succ, mem_partialSums_append, ih, sum_differences, hs, sub_zero]
    have hlast : (∃ y ∈ partialSums [s (m + 1) - s m], s m + y = x) ↔ s m = x ∨ s (m + 1) = x := by
      simp only [partialSums, List.map_cons, List.map_nil, add_zero, List.mem_cons,
        List.not_mem_nil, or_false, exists_eq_or_imp, exists_eq_left, add_sub_cancel]
    rw [hlast]
    constructor
    · rintro (⟨i, hi, rfl⟩ | rfl | rfl)
      · exact ⟨i, by omega, rfl⟩
      · exact ⟨m, by omega, rfl⟩
      · exact ⟨m + 1, le_rfl, rfl⟩
    · rintro ⟨i, hi, rfl⟩
      rcases Nat.lt_or_eq_of_le hi with hlt | rfl
      · exact Or.inl ⟨i, by omega, rfl⟩
      · exact Or.inr (Or.inr rfl)

/-! ## Lists with the same aggregates -/

/-- Two lists with the same aggregates for all challenges, of fewer elements than the field has,
have the same differences that are not zero, and so the same partial sums. -/
theorem mem_partialSums_iff_of_eval_eq (hl : l.length < starkPrime) (hm : m.length < starkPrime)
    (h : ∀ z alpha, (factor l).eval z + alpha * (offset l).eval z =
      (factor m).eval z + alpha * (offset m).eval z) :
    x ∈ partialSums l ↔ x ∈ partialSums m := by
  have heval (z : Felt) : (factor l).eval z = (factor m).eval z := by
    have hzero := h z 0
    rwa [zero_mul, zero_mul, add_zero, add_zero] at hzero
  have hfactor : factor l = factor m := by
    apply Polynomial.eq_of_natDegree_lt_card_of_eval_eq _ _ Function.injective_id heval
    rw [Felt.card_felt]
    exact max_lt (natDegree_factor_le.trans_lt hl) (natDegree_factor_le.trans_lt hm)
  have hoffset : offset l = offset m := by
    apply Polynomial.eq_of_natDegree_lt_card_of_eval_eq _ _ Function.injective_id
    · intro z
      have hone := h z 1
      rwa [one_mul, one_mul, heval, add_right_inj] at hone
    · rw [Felt.card_felt]
      exact max_lt (natDegree_offset_le.trans_lt hl) (natDegree_offset_le.trans_lt hm)
  have hnonzero : nonzero l = nonzero m := by
    apply eq_of_factor_eq_of_offset_eq zero_notMem_nonzero zero_notMem_nonzero
    · rw [factor_nonzero, factor_nonzero, hfactor]
    · rw [offset_nonzero, offset_nonzero, hoffset]
  rw [← mem_partialSums_nonzero, hnonzero, mem_partialSums_nonzero]

end Aggregate

end CairoTrace
