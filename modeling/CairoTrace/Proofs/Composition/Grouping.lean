import CairoTrace.Constraint.Composition
import CairoTrace.Proofs.Fraction
import CairoTrace.Proofs.Result

/-!
# Sums over groups

Constraints are grouped by denominators and within a denominator by numerators. A constraint that
joins the groups adds its own quotient to their sum, whether it finds a group or starts one
(`sum_joinDenominator`), so that the sum over the groups is the sum over the constraints. It is
computed unless a denominator is zero (`sumGroups_eq_ok`, `sumGroups_eq_error`).
-/

namespace CairoTrace

namespace Composition

/-! ## Indices of factors -/

theorem getElem?_of_initial {α : Type} {l l' : List α} {i : Nat} {a : α} (h : l <+: l')
    (ha : l[i]? = some a) : l'[i]? = some a := by
  obtain ⟨t, rfl⟩ := h
  rw [List.getElem?_append_left (List.getElem?_eq_some_iff.mp ha).1, ha]

theorem internFactor_spec (factors : List VanishingFactor) (f : VanishingFactor) :
    (internFactor factors f).2[(internFactor factors f).1]? = some f ∧
      factors <+: (internFactor factors f).2 ∧
      ∀ f' ∈ (internFactor factors f).2, f' ∈ factors ∨ f' = f := by
  rw [internFactor]
  cases h : factors.idxOf? f with
  | some i =>
    obtain ⟨hi, hf, -⟩ := List.idxOf?_eq_some_iff.mp h
    exact ⟨List.getElem?_eq_some_iff.mpr ⟨hi, hf⟩, List.prefix_rfl, fun _ => .inl⟩
  | none =>
    refine ⟨List.getElem?_concat_length, List.prefix_append _ _, fun f' hf' => ?_⟩
    simpa using hf'

theorem internFactors_spec (fs factors : List VanishingFactor) :
    List.Forall₂ (fun i f => (internFactors factors fs).2[i]? = some f)
        (internFactors factors fs).1 fs ∧
      factors <+: (internFactors factors fs).2 ∧
      ∀ f ∈ (internFactors factors fs).2, f ∈ factors ∨ f ∈ fs := by
  induction fs generalizing factors with
  | nil => exact ⟨.nil, List.prefix_rfl, fun _ => .inl⟩
  | cons f fs ih =>
    obtain ⟨hindex, hinitial, hmem⟩ := internFactor_spec factors f
    obtain ⟨hindices, hinitial', hmem'⟩ := ih (internFactor factors f).2
    refine ⟨.cons ?_ hindices, hinitial.trans hinitial', fun f' hf' => ?_⟩
    · exact getElem?_of_initial hinitial' hindex
    · rcases hmem' f' hf' with h | h
      · rcases hmem f' h with h | rfl
        · exact .inl h
        · exact .inr List.mem_cons_self
      · exact .inr (List.mem_cons_of_mem f h)

/-- Whether the entries of a table are the values of factors at their indices. -/
def Tabulates (factors : List VanishingFactor) (value : VanishingFactor → Felt)
    (entry : Nat → Felt) : Prop :=
  ∀ i f, factors[i]? = some f → entry i = value f

theorem Tabulates.of_initial {factors factors' : List VanishingFactor}
    {value : VanishingFactor → Felt} {entry : Nat → Felt} (h : Tabulates factors' value entry)
    (hinitial : factors <+: factors') : Tabulates factors value entry :=
  fun i f hf => h i f (getElem?_of_initial hinitial hf)

/-- A list of values tabulates the factors that they are the values of. -/
theorem tabulates_map (factors : List VanishingFactor) (value : VanishingFactor → Felt) :
    Tabulates factors value fun i => (factors.map value).toArray[i]?.getD 0 := by
  intro i f hf
  simp [hf]

/-! ## The value of a group -/

end Composition

/-- The sum of the members of a numerator, multiplied by it. -/
def NumeratorGroup.value (entry weighted : Nat → Felt) (g : NumeratorGroup) : Felt :=
  (g.members.map weighted).sum * (g.factors.map entry).prod

/-- The sum of the members of a denominator before it is divided. -/
def DenominatorGroup.sum (entry weighted : Nat → Felt) (g : DenominatorGroup) : Felt :=
  (g.numerators.map (·.value entry weighted)).sum

def DenominatorGroup.value (entry weighted : Nat → Felt) (g : DenominatorGroup) : Felt :=
  g.sum entry weighted / entry g.factor

namespace Composition

variable {entry weighted : Nat → Felt}

theorem sum_joinNumerator (factors : List Nat) (i : Nat) (gs : List NumeratorGroup) :
    ((joinNumerator factors i gs).map (·.value entry weighted)).sum =
      (gs.map (·.value entry weighted)).sum + weighted i * (factors.map entry).prod := by
  induction gs with
  | nil => simp [joinNumerator, NumeratorGroup.value]
  | cons g gs ih =>
    rw [joinNumerator]
    split
    · next h =>
      simp only [NumeratorGroup.value, List.map_cons, List.sum_cons, List.map_append,
        List.sum_append, List.map_nil, List.sum_nil, h]
      ring
    · rw [List.map_cons, List.sum_cons, ih, List.map_cons, List.sum_cons, add_assoc]

/-- A constraint that joins the groups adds its quotient to their sum. -/
theorem sum_joinDenominator (factor : Nat) (factors : List Nat) (i : Nat)
    (gs : List DenominatorGroup) :
    ((joinDenominator factor factors i gs).map (·.value entry weighted)).sum =
      (gs.map (·.value entry weighted)).sum +
        weighted i * (factors.map entry).prod / entry factor := by
  induction gs with
  | nil =>
    simp [joinDenominator, DenominatorGroup.value, DenominatorGroup.sum, NumeratorGroup.value]
  | cons g gs ih =>
    rw [joinDenominator]
    split
    · next h =>
      simp only [DenominatorGroup.value, DenominatorGroup.sum, List.map_cons, List.sum_cons,
        sum_joinNumerator, h]
      ring
    · rw [List.map_cons, List.sum_cons, ih, List.map_cons, List.sum_cons, add_assoc]

/-- The denominators of the groups are those of the constraints that have joined them. -/
theorem exists_factor_joinDenominator {p : Nat → Prop} (factor : Nat) (factors : List Nat) (i : Nat)
    (gs : List DenominatorGroup) :
    (∃ g ∈ joinDenominator factor factors i gs, p g.factor) ↔
      (∃ g ∈ gs, p g.factor) ∨ p factor := by
  induction gs with
  | nil => simp [joinDenominator]
  | cons g gs ih =>
    rw [joinDenominator]
    split
    · next h =>
      rw [List.exists_mem_cons_iff, List.exists_mem_cons_iff, h, or_right_comm, or_self]
    · rw [List.exists_mem_cons_iff, ih, List.exists_mem_cons_iff, or_assoc]

/-! ## The sum as it is computed -/

theorem foldl_add_eq {α : Type} (f : α → Felt) (l : List α) (a : Felt) :
    l.foldl (fun s x => s + f x) a = a + (l.map f).sum := by
  induction l generalizing a with
  | nil => simp
  | cons x l ih => rw [List.foldl_cons, ih, List.map_cons, List.sum_cons, add_assoc]

theorem foldl_mul_eq {α : Type} (f : α → Felt) (l : List α) (a : Felt) :
    l.foldl (fun s x => s * f x) a = a * (l.map f).prod := by
  induction l generalizing a with
  | nil => simp
  | cons x l ih => rw [List.foldl_cons, ih, List.map_cons, List.prod_cons, mul_assoc]

theorem groupSum_eq (factors weighted : Array Felt) (g : DenominatorGroup) :
    groupSum factors weighted g =
      g.sum (fun i => factors[i]?.getD 0) (fun i => weighted[i]?.getD 0) := by
  rw [groupSum]
  simp only [foldl_add_eq, foldl_mul_eq, zero_add, one_mul]
  rfl

/-- Adds the fraction of a group, unless its denominator is zero. -/
def addGroup (factors weighted : Array Felt) (sum : Fraction) (g : DenominatorGroup) :
    Except ConstraintError Fraction :=
  if (factors[g.factor]?.getD 0).isZero then .error .pointOnDomain
  else .ok (sum + ⟨groupSum factors weighted g, factors[g.factor]?.getD 0⟩)

theorem foldlM_addGroup_eq_ok {factors : Array Felt} (weighted : Array Felt)
    {gs : List DenominatorGroup}
    {start : Fraction} (hstart : start.denominator ≠ 0)
    (h : ∀ g ∈ gs, factors[g.factor]?.getD 0 ≠ 0) :
    ∃ q, gs.foldlM (addGroup factors weighted) start = .ok q ∧ q.denominator ≠ 0 ∧
      q.value = start.value + (gs.map
        (·.value (fun i => factors[i]?.getD 0) fun i => weighted[i]?.getD 0)).sum := by
  induction gs generalizing start with
  | nil => exact ⟨start, rfl, hstart, by simp⟩
  | cons g gs ih =>
    rw [List.forall_mem_cons] at h
    obtain ⟨hg, hgs⟩ := h
    have hstep : addGroup factors weighted start g =
        .ok (start + ⟨groupSum factors weighted g, factors[g.factor]?.getD 0⟩) :=
      if_neg fun hz => hg ((Residue.isZero_iff _).mp hz)
    obtain ⟨q, hq, hden, hval⟩ := ih (Fraction.denominator_add_ne_zero
      (b := ⟨groupSum factors weighted g, factors[g.factor]?.getD 0⟩) hstart hg) hgs
    refine ⟨q, ?_, hden, ?_⟩
    · rw [List.foldlM_cons, hstep, Result.ok_bind, hq]
    · rw [hval, Fraction.value_add hstart hg, Fraction.value, groupSum_eq, List.map_cons,
        List.sum_cons, add_assoc]
      rfl

theorem foldlM_addGroup_eq_error {factors weighted : Array Felt} {gs : List DenominatorGroup}
    {start : Fraction} (h : ∃ g ∈ gs, factors[g.factor]?.getD 0 = 0) :
    gs.foldlM (addGroup factors weighted) start = .error .pointOnDomain := by
  induction gs generalizing start with
  | nil => simp at h
  | cons g gs ih =>
    rw [List.foldlM_cons, addGroup]
    split
    · rfl
    · next hz =>
      rcases (List.exists_mem_cons_iff ..).mp h with hg | hgs
      · exact absurd ((Residue.isZero_iff _).mpr hg) hz
      · exact ih hgs

/-- The fractions of the groups are added up if no denominator is zero. -/
theorem sumGroups_eq_ok {factors : Array Felt} (weighted : Array Felt) {gs : List DenominatorGroup}
    (h : ∀ g ∈ gs, factors[g.factor]?.getD 0 ≠ 0) :
    ∃ q, sumGroups factors weighted gs = .ok q ∧ q.denominator ≠ 0 ∧
      q.value = (gs.map
        (·.value (fun i => factors[i]?.getD 0) fun i => weighted[i]?.getD 0)).sum := by
  have hone : (0 : Fraction).denominator ≠ 0 := one_ne_zero
  obtain ⟨q, hq, hden, hval⟩ := foldlM_addGroup_eq_ok weighted hone h
  exact ⟨q, hq, hden, by rw [hval, Fraction.value_zero, zero_add]⟩

theorem sumGroups_eq_error {factors weighted : Array Felt} {gs : List DenominatorGroup}
    (h : ∃ g ∈ gs, factors[g.factor]?.getD 0 = 0) :
    sumGroups factors weighted gs = .error .pointOnDomain :=
  foldlM_addGroup_eq_error h

end Composition

end CairoTrace
