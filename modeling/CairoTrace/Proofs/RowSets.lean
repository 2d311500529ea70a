import CairoTrace.Proofs.Rows
import Mathlib.Data.List.Sort

/-!
# Equal and nested sets of rows

The rows of a set are listed in ascending order, from the set as from its vanishing factor
(`toList_eq_filter`, `rows_factor`). A set has a row of its first stride and, unless it is a single
row, one of the next; so one set lies in another only if its stride is a multiple of the other's
(`IsResidueClass.isSubset_iff`). Hence sets with the same rows have the same factor
(`factor_eq_iff`), and a part of a set is a divisor of its factor (`isSubset_iff_poly_dvd`).
-/

namespace CairoTrace

namespace Rows

variable {n : Nat} {rows a b : Rows}

/-! ## Rows in ascending order -/

theorem toList_eq_map (hn : isPowerOfTwo n = true) (h : rows.fits n = true) :
    rows.toList n =
      (List.range (rows.factor n).exponent).map (rows.start n + · * rows.stride n) := by
  have hpos := stride_pos hn h
  have hstart := start_lt_stride hn h
  have hmul := exponent_mul_stride hn h
  have hcount : (n - rows.start n + rows.stride n - 1) / rows.stride n =
      (rows.factor n).exponent := by
    rw [Nat.div_eq_iff hpos, hmul]
    omega
  have hle : (rows.factor n).exponent ≤ n := Nat.div_le_self n _
  rw [toList, take, progression, hcount, min_eq_right hle]

/-- The rows of a set in ascending order. -/
theorem toList_eq_filter (hn : isPowerOfTwo n = true) (h : rows.fits n = true) :
    rows.toList n = (List.range n).filter (rows.contains n) := by
  have hascending : (rows.toList n).SortedLT := by
    rw [toList_eq_map hn h]
    refine (List.pairwise_map.mpr (List.pairwise_lt_range.imp fun {i j} hij => ?_)).sortedLT
    exact Nat.add_lt_add_left (Nat.mul_lt_mul_of_pos_right hij (stride_pos hn h)) _
  have hfiltered : ((List.range n).filter (rows.contains n)).SortedLT :=
    ((List.sortedLT_range n).pairwise.filter _).sortedLT
  refine hascending.eq_of_mem_iff hfiltered fun row => ?_
  rw [(isResidueClass_of_fits hn h).mem_toList_iff, List.mem_filter, List.mem_range]
  exact (and_iff_right_of_imp fun hrow => (contains_iff.mp hrow).1).symm

/-- The factor lists the rows of its set. -/
theorem rows_factor (hn : isPowerOfTwo n = true) (h : rows.fits n = true) :
    (rows.factor n).rows n = rows.toList n := by
  have hexp := exponent_pos hn h
  have hstart : (rows.factor n).shift / (rows.factor n).exponent = rows.start n := by
    rw [shift_factor hn h, Nat.mul_div_cancel _ hexp]
  have hstride : n / (rows.factor n).exponent = rows.stride n := by
    rw [← Nat.mul_div_cancel_left (rows.stride n) hexp, exponent_mul_stride hn h]
  rw [VanishingFactor.rows, VanishingFactor.takeRows, min_self, hstart, hstride,
    toList_eq_map hn h]

/-- A set has as many rows as its factor has roots. -/
theorem length_toList (hn : isPowerOfTwo n = true) (h : rows.fits n = true) :
    (rows.toList n).length = rows.length n := by
  rw [toList_eq_map hn h, List.length_map, List.length_range]
  rfl

theorem vanishesAt_factor (hn : isPowerOfTwo n = true) (h : rows.fits n = true) {row : Nat}
    (hrow : row < n) : (rows.factor n).vanishesAt n row = rows.contains n row := by
  have hexp := exponent_pos hn h
  rw [Bool.eq_iff_iff, VanishingFactor.vanishesAt, beq_iff_eq, mul_exponent_mod hn h,
    shift_factor hn h, Nat.mul_left_inj hexp.ne', contains_iff]
  exact (and_iff_right hrow).symm

/-! ## Inclusion -/

theorem IsResidueClass.contains_start (h : rows.IsResidueClass n) (hpos : 0 < n) :
    rows.contains n (rows.start n) = true :=
  contains_iff.mpr ⟨h.start_lt.trans_le (Nat.le_of_dvd hpos h.stride_dvd),
    Nat.mod_eq_of_lt h.start_lt⟩

/-- A stride below the length is at most half of it, so that a second row comes after it. -/
theorem IsResidueClass.contains_start_add_stride (h : rows.IsResidueClass n)
    (hlt : rows.stride n < n) : rows.contains n (rows.start n + rows.stride n) = true := by
  have hrest : rows.stride n ≤ n - rows.stride n :=
    Nat.le_of_dvd (Nat.sub_pos_of_lt hlt) (Nat.dvd_sub h.stride_dvd dvd_rfl)
  have hstart := h.start_lt
  refine contains_iff.mpr ⟨by omega, ?_⟩
  rw [Nat.add_mod_right, Nat.mod_eq_of_lt hstart]

/-- The test of inclusion on strides and first rows is exact: the first row of a part is a row of
the whole, and its stride leads from one row of the whole to another. -/
theorem IsResidueClass.isSubset_iff (ha : a.IsResidueClass n) (hb : b.IsResidueClass n)
    (hpos : 0 < n) : a.isSubset n b = true ↔
      ∀ row, a.contains n row = true → b.contains n row = true := by
  refine ⟨fun hsub row => contains_of_isSubset hsub, fun h => ?_⟩
  have hstart := (contains_iff.mp (h _ (ha.contains_start hpos))).2
  have hstride : b.stride n ∣ a.stride n := by
    rcases (Nat.le_of_dvd hpos ha.stride_dvd).lt_or_eq with hlt | heq
    · have hnext := (contains_iff.mp (h _ (ha.contains_start_add_stride hlt))).2
      exact (Nat.ModEq.add_left_cancel' _ (hnext.trans hstart.symm)).dvd_iff dvd_rfl |>.mpr
        (dvd_zero _)
    · rw [heq]
      exact hb.stride_dvd
  rw [isSubset, Bool.and_eq_true, beq_iff_eq, beq_iff_eq]
  exact ⟨Nat.mod_eq_zero_of_dvd hstride, hstart⟩

/-- Sets that lie in each other have one stride and one first row. -/
theorem IsResidueClass.eq_of_contains_eq (ha : a.IsResidueClass n) (hb : b.IsResidueClass n)
    (hpos : 0 < n) (h : ∀ row, a.contains n row = b.contains n row) :
    a.stride n = b.stride n ∧ a.start n = b.start n := by
  have hsub := (ha.isSubset_iff hb hpos).mpr fun row hrow => (h row).symm.trans hrow
  have hsup := (hb.isSubset_iff ha hpos).mpr fun row hrow => (h row).trans hrow
  rw [isSubset, Bool.and_eq_true, beq_iff_eq, beq_iff_eq] at hsub hsup
  have hstride := Nat.dvd_antisymm (Nat.dvd_of_mod_eq_zero hsup.1) (Nat.dvd_of_mod_eq_zero hsub.1)
  refine ⟨hstride, ?_⟩
  rw [← hsub.2, ← hstride, Nat.mod_eq_of_lt ha.start_lt]

/-- Sets of rows have one factor if and only if they have the same rows. -/
theorem factor_eq_iff (hn : isPowerOfTwo n = true) (ha : a.fits n = true) (hb : b.fits n = true) :
    a.factor n = b.factor n ↔ ∀ row, a.contains n row = b.contains n row := by
  constructor
  · intro heq row
    by_cases hrow : row < n
    · rw [← vanishesAt_factor hn ha hrow, heq, vanishesAt_factor hn hb hrow]
    · simp only [contains, hrow, decide_false, Bool.false_and]
  · intro h
    obtain ⟨hstride, hstart⟩ := (isResidueClass_of_fits hn ha).eq_of_contains_eq
      (isResidueClass_of_fits hn hb) (pos_of_isPowerOfTwo hn) h
    rw [factor, factor, hstride, hstart]

/-- One set of rows lies in another if and only if its factor divides that of the other. -/
theorem isSubset_iff_poly_dvd {g : Felt} (hn : isPowerOfTwo n = true) (hg : IsPrimitiveRoot g n)
    (ha : a.fits n = true) (hb : b.fits n = true) :
    a.isSubset n b = true ↔ (a.factor n).poly g ∣ (b.factor n).poly g := by
  have hroot {row : Nat} (hrow : row < n) :
      ((b.factor n).poly g).eval (g ^ row) = 0 ↔ b.contains n row = true := by
    rw [VanishingFactor.eval_poly]
    exact eval_factor_row_eq_zero_iff hn hg hb hrow
  rw [(isResidueClass_of_fits hn ha).isSubset_iff (isResidueClass_of_fits hn hb)
    (pos_of_isPowerOfTwo hn)]
  constructor
  · intro h
    refine poly_factor_dvd hn hg ha fun row hrow => ?_
    exact (hroot (contains_iff.mp hrow).1).mpr (h row hrow)
  · intro hdvd row hrow
    have hlt := (contains_iff.mp hrow).1
    have hzero : ((a.factor n).poly g).eval (g ^ row) = 0 := by
      rw [VanishingFactor.eval_poly]
      exact (eval_factor_row_eq_zero_iff hn hg ha hlt).mpr hrow
    exact (hroot hlt).mp (Polynomial.eval_eq_zero_of_dvd_of_eval_eq_zero hdvd hzero)

/-! ## Exactness -/

/-- A set of rows that is valid has a vanishing factor. The roots of the factor in the field are the
points of the rows of the set; the factor finds and lists these rows as the set does, in ascending
order, and they are as many as the set says. Another valid set has the same factor if and only if
it has the same rows. -/
theorem vanishingFactor_exact (hvalid : rows.validate n = .ok ()) :
    ∃ f, rows.vanishingFactor n = .ok f ∧
      (∀ g, Felt.rootOfUnity? n = some g → ∀ x : Felt,
        f.eval x g = 0 ↔ ∃ row, rows.contains n row = true ∧ x = g ^ row) ∧
      (∀ row < n, f.vanishesAt n row = rows.contains n row) ∧
      rows.toList n = (List.range n).filter (rows.contains n) ∧
      f.rows n = (List.range n).filter (rows.contains n) ∧
      rows.length n = ((List.range n).filter (rows.contains n)).length ∧
      ∀ other : Rows, other.validate n = .ok () →
        (other.vanishingFactor n = .ok f ↔
          ∀ row, other.contains n row = rows.contains n row) := by
  obtain ⟨hn, hfits⟩ := validate_eq_ok_iff.mp hvalid
  have hlist := toList_eq_filter hn hfits
  refine ⟨rows.factor n, vanishingFactor_eq_ok_iff.mpr ⟨hn, hfits, rfl⟩, ?_, ?_, hlist, ?_, ?_, ?_⟩
  · intro g hg x
    exact eval_factor_eq_zero_iff hn (Felt.isPrimitiveRoot_of_rootOfUnity? hg) hfits
  · intro row hrow
    exact vanishesAt_factor hn hfits hrow
  · rw [rows_factor hn hfits, hlist]
  · rw [← hlist, length_toList hn hfits]
  · intro other hother
    obtain ⟨-, hother⟩ := validate_eq_ok_iff.mp hother
    rw [vanishingFactor_eq_ok_iff, and_iff_right hn, and_iff_right hother, eq_comm,
      factor_eq_iff hn hother hfits]

theorem vanishingFactor_exact_last : (last.validate 16 = .ok ()) ∧
    ∃ f, last.vanishingFactor 16 = .ok f ∧
      (∀ x : Felt, f.eval x (Felt.rootOfUnity 16) = 0 ↔
        ∃ row, last.contains 16 row = true ∧ x = Felt.rootOfUnity 16 ^ row) ∧
      f.rows 16 = [15] ∧ (first 15).vanishingFactor 16 = .ok f := by
  have hvalid : last.validate 16 = .ok () := by decide
  obtain ⟨f, hf, hroots, -, -, hrows, -, hsame⟩ := vanishingFactor_exact hvalid
  refine ⟨hvalid, f, hf, hroots _ (if_pos (by decide)), hrows.trans (by decide), ?_⟩
  exact (hsame (first 15) (by decide)).mpr fun row => rfl

/-- Of two sets of rows that are valid, one is found to lie in the other if and only if each of its
rows is one of the other's, and if and only if its vanishing factor divides the other's as
polynomials over the field. -/
theorem isSubset_exact (ha : a.validate n = .ok ()) (hb : b.validate n = .ok ()) :
    (a.isSubset n b = true ↔ ∀ row, a.contains n row = true → b.contains n row = true) ∧
    ∃ fa fb, a.vanishingFactor n = .ok fa ∧ b.vanishingFactor n = .ok fb ∧
      ∀ g, Felt.rootOfUnity? n = some g → (a.isSubset n b = true ↔ fa.poly g ∣ fb.poly g) := by
  obtain ⟨hn, ha⟩ := validate_eq_ok_iff.mp ha
  obtain ⟨-, hb⟩ := validate_eq_ok_iff.mp hb
  refine ⟨?_, a.factor n, b.factor n, vanishingFactor_eq_ok_iff.mpr ⟨hn, ha, rfl⟩,
    vanishingFactor_eq_ok_iff.mpr ⟨hn, hb, rfl⟩, fun g hg => ?_⟩
  · exact (isResidueClass_of_fits hn ha).isSubset_iff (isResidueClass_of_fits hn hb)
      (pos_of_isPowerOfTwo hn)
  · exact isSubset_iff_poly_dvd hn (Felt.isPrimitiveRoot_of_rootOfUnity? hg) ha hb

theorem isSubset_exact_fromEnd :
    (fromEnd 16).validate 64 = .ok () ∧ (every 16 0).validate 64 = .ok () ∧
    (∀ row, (fromEnd 16).contains 64 row = true → (every 16 0).contains 64 row = true) ∧
    ∃ fa fb, (fromEnd 16).vanishingFactor 64 = .ok fa ∧
      (every 16 0).vanishingFactor 64 = .ok fb ∧
      fa.poly (Felt.rootOfUnity 64) ∣ fb.poly (Felt.rootOfUnity 64) := by
  have ha : (fromEnd 16).validate 64 = .ok () := by decide
  have hb : (every 16 0).validate 64 = .ok () := by decide
  have hsub : (fromEnd 16).isSubset 64 (every 16 0) = true := by decide
  obtain ⟨hrows, fa, fb, hfa, hfb, hdvd⟩ := isSubset_exact ha hb
  exact ⟨ha, hb, hrows.mp hsub, fa, fb, hfa, hfb, (hdvd _ (if_pos (by decide))).mp hsub⟩

end Rows

end CairoTrace
