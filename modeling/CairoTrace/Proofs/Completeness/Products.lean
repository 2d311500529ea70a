import CairoTrace.Proofs.Permutation
import Mathlib.Data.List.GetD

/-!
# Columns of running products

The running products of the quotients of two lists of terms are a column of products, as long as no
denominator is zero (`Permutation.isProductColumn_cumulativeProduct`). It ends with the quotient of
the products of the lists, which is one for two permutations.
-/

namespace CairoTrace

namespace Permutation

variable {as bs : List Felt} {terms : List (Felt × Felt)} {i : Nat}

/-- A running product is that of the first terms. -/
theorem getElem?_runningProducts (p q : Felt) (hi : i < terms.length) :
    (runningProducts p q terms)[i]? =
      some (p * ((terms.take (i + 1)).map (·.1)).prod,
        q * ((terms.take (i + 1)).map (·.2)).prod) := by
  induction terms generalizing p q i with
  | nil => simp at hi
  | cons t terms ih =>
    rw [runningProducts, List.take_succ_cons, List.map_cons, List.map_cons, List.prod_cons,
      List.prod_cons, ← mul_assoc, ← mul_assoc]
    cases i with
    | zero => simp
    | succ i => rw [List.getElem?_cons_succ, ih _ _ (Nat.lt_of_succ_lt_succ hi)]

/-- A cell of the column is the quotient of the products of the first terms. -/
theorem getD_cumulativeProduct_zip (hlength : as.length = bs.length) (hi : i < as.length) :
    (cumulativeProduct (as.zip bs)).getD i 0 =
      (as.take (i + 1)).prod * (bs.take (i + 1)).prod⁻¹ := by
  have hzip : i < (as.zip bs).length := by
    rwa [List.length_zip, hlength, Nat.min_self, ← hlength]
  have htake : (as.zip bs).take (i + 1) = (as.take (i + 1)).zip (bs.take (i + 1)) := by
    rw [List.zip_eq_zipWith, List.take_zipWith, ← List.zip_eq_zipWith]
  have hsame : (as.take (i + 1)).length = (bs.take (i + 1)).length := by
    rw [List.length_take, List.length_take, hlength]
  rw [cumulativeProduct, List.getD_eq_getElem?_getD, List.getElem?_map,
    getElem?_runningProducts _ _ hzip, htake, List.map_fst_zip hsame.le, List.map_snd_zip hsame.ge,
    one_mul, one_mul]
  rfl

/-- The running products of quotients are a column of products, which ends with the quotient of all
products. -/
theorem isProductColumn_cumulativeProduct (hlength : as.length = bs.length) (hpos : 0 < as.length)
    (hne : 0 ∉ bs) :
    IsProductColumn as.length (as.getD · 0) (bs.getD · 0) ((cumulativeProduct (as.zip bs)).getD · 0)
      (as.prod * bs.prod⁻¹) := by
  have hprod (k : Nat) : (bs.take k).prod ≠ 0 :=
    List.prod_ne_zero fun h => hne (List.mem_of_mem_take h)
  have htake {k : Nat} (hk : k < as.length) :
      (as.take (k + 1)).prod = (as.take k).prod * as.getD k 0 ∧
        (bs.take (k + 1)).prod = (bs.take k).prod * bs.getD k 0 := by
    have hk' : k < bs.length := hlength ▸ hk
    rw [List.getD_eq_getElem _ 0 hk, List.getD_eq_getElem _ 0 hk']
    exact ⟨List.prod_take_succ as k hk, List.prod_take_succ bs k hk'⟩
  refine ⟨?init, fun k hk => ?step, ?last⟩
  case init =>
    obtain ⟨ha, hb⟩ := htake hpos
    have hfirst := hprod 1
    rw [List.take_zero, List.prod_nil, one_mul] at ha hb
    rw [getD_cumulativeProduct_zip hlength hpos, ha]
    rw [zero_add, hb] at *
    field_simp
  case step =>
    have hk' : k < as.length := Nat.lt_of_succ_lt hk
    obtain ⟨ha, hb⟩ := htake hk
    have hafter := hprod (k + 1 + 1)
    rw [hb] at hafter
    obtain ⟨hbefore, hnext⟩ := mul_ne_zero_iff.mp hafter
    rw [getD_cumulativeProduct_zip hlength hk, getD_cumulativeProduct_zip hlength hk', ha, hb]
    field_simp
  case last =>
    rw [getD_cumulativeProduct_zip hlength (Nat.sub_lt hpos one_pos),
      show as.length - 1 + 1 = as.length from Nat.sub_add_cancel hpos, List.take_length, hlength,
      List.take_length]

/-- The terms and the products matter on the rows of the column alone. -/
theorem IsProductColumn.congr {m : Nat} {a b products a' b' products' : Nat → Felt} {last : Felt}
    (h : IsProductColumn m a b products last) (hm : 0 < m) (ha : ∀ i < m, a' i = a i)
    (hb : ∀ i < m, b' i = b i) (hproducts : ∀ i < m, products' i = products i) :
    IsProductColumn m a' b' products' last := by
  refine ⟨?init, fun k hk => ?step, ?last⟩
  case init =>
    rw [ha 0 hm, hb 0 hm, hproducts 0 hm]
    exact h.init
  case step =>
    rw [ha _ hk, hb _ hk, hproducts _ hk, hproducts k (Nat.lt_of_succ_lt hk)]
    exact h.step k hk
  case last =>
    rw [hproducts _ (Nat.sub_lt hm one_pos)]
    exact h.last

/-- The running products over a pool and a permutation of it end with one. -/
theorem isProductColumn_of_perm {pool sorted : List Felt} {z : Felt} (hperm : sorted.Perm pool)
    (hpos : 0 < pool.length) (hz : z ∉ pool) :
    IsProductColumn pool.length (z - pool.getD · 0) (z - sorted.getD · 0)
      ((cumulativeProduct (List.zipWith (fun a b => (z - a, z - b)) pool sorted)).getD · 0) 1 := by
  have hlength : (pool.map (z - ·)).length = (sorted.map (z - ·)).length := by
    rw [List.length_map, List.length_map, hperm.length_eq]
  have hne : 0 ∉ sorted.map (z - ·) := by
    intro hmem
    obtain ⟨a, ha, hzero⟩ := List.mem_map.mp hmem
    rw [sub_eq_zero.mp hzero] at hz
    exact hz (hperm.mem_iff.mp ha)
  have hprod : (pool.map (z - ·)).prod * (sorted.map (z - ·)).prod⁻¹ = 1 := by
    rw [← (hperm.map (z - ·)).prod_eq, mul_inv_cancel₀ (List.prod_ne_zero hne)]
  have h := isProductColumn_cumulativeProduct hlength (by rwa [List.length_map]) hne
  rw [List.length_map, hprod, List.zip_eq_zipWith, List.zipWith_map] at h
  have hterm {l : List Felt} {i : Nat} (hi : i < l.length) :
      z - l.getD i 0 = (l.map (z - ·)).getD i 0 := by
    rw [List.getD_eq_getElem _ 0 hi, List.getD_eq_getElem _ 0 (by rwa [List.length_map]),
      List.getElem_map]
  exact h.congr hpos (fun i hi => hterm hi) (fun i hi => hterm (hperm.length_eq ▸ hi))
    fun _ _ => rfl

end Permutation

end CairoTrace
