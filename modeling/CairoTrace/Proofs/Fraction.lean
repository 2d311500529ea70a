import CairoTrace.Constraint.Fraction
import CairoTrace.Proofs.Result
import CairoTrace.Proofs.StarkField

/-!
# The value of a fraction

A fraction with a denominator other than zero stands for a quotient (`Fraction.value`), which is
what it resolves to (`resolve_eq_ok_iff`). Sums of such fractions are such fractions and stand for
the sums of the quotients, whether or not the denominators are equal (`value_add`). The other
operations keep values as well (`Fraction.Represents`), so that an expression over fractions of any
depth is computed with fractions as it is in the field, and without a result only if it inverts a
value of zero (`FractionExpr.run_exact`).
-/

namespace CairoTrace

namespace Fraction

/-- The field element that a fraction stands for. -/
def value (a : Fraction) : Felt := a.numerator / a.denominator

@[simp] theorem value_zero : (0 : Fraction).value = 0 := by
  rw [value, show (0 : Fraction).numerator = 0 from rfl, zero_div]

theorem denominator_add_ne_zero {a b : Fraction} (ha : a.denominator ≠ 0)
    (hb : b.denominator ≠ 0) : (a + b).denominator ≠ 0 := by
  rw [show a + b = add a b from rfl, add]
  split
  · exact ha
  · exact mul_ne_zero ha hb

theorem value_add {a b : Fraction} (ha : a.denominator ≠ 0) (hb : b.denominator ≠ 0) :
    (a + b).value = a.value + b.value := by
  rw [show a + b = add a b from rfl, add]
  split
  · next heq => rw [value, value, value, ← heq, add_div]
  · rw [value, value, value, div_add_div _ _ ha hb, mul_comm a.denominator b.numerator]

theorem resolve_eq_ok_iff {a : Fraction} {v : Felt} :
    a.resolve = .ok v ↔ a.denominator ≠ 0 ∧ a.value = v := by
  rw [resolve, Residue.inverse?]
  by_cases h : a.denominator = 0
  · rw [if_pos ((Residue.isZero_iff _).mpr h)]
    exact iff_of_false nofun fun hv => hv.1 h
  · rw [if_neg fun hz => h ((Residue.isZero_iff _).mp hz)]
    simp only [Except.ok.injEq, value, div_eq_mul_inv]
    exact (and_iff_right h).symm

/-! ## Operations -/

/-- A fraction stands for a field element. -/
structure Represents (a : Fraction) (v : Felt) : Prop where
  denominator_ne_zero : a.denominator ≠ 0
  value_eq : a.value = v

theorem inverse_eq_ok_iff {a b : Fraction} :
    a.inverse = .ok b ↔ a.numerator ≠ 0 ∧ b = ⟨a.denominator, a.numerator⟩ := by
  rw [inverse, Result.ite_error_eq_ok_iff, Residue.isZero_iff, Except.ok.injEq, eq_comm (b := b)]

namespace Represents

variable {a b : Fraction} {v w : Felt}

theorem neg (ha : a.Represents v) : (-a).Represents (-v) where
  denominator_ne_zero := ha.denominator_ne_zero
  value_eq := by
    rw [← ha.value_eq]
    exact neg_div _ _

theorem add (ha : a.Represents v) (hb : b.Represents w) : (a + b).Represents (v + w) where
  denominator_ne_zero := denominator_add_ne_zero ha.denominator_ne_zero hb.denominator_ne_zero
  value_eq := by
    rw [value_add ha.denominator_ne_zero hb.denominator_ne_zero, ha.value_eq, hb.value_eq]

/-- Differences are sums with the negative. -/
theorem sub (ha : a.Represents v) (hb : b.Represents w) : (a - b).Represents (v - w) := by
  rw [sub_eq_add_neg]
  exact ha.add hb.neg

theorem mul (ha : a.Represents v) (hb : b.Represents w) : (a * b).Represents (v * w) where
  denominator_ne_zero := mul_ne_zero ha.denominator_ne_zero hb.denominator_ne_zero
  value_eq := by
    rw [← ha.value_eq, ← hb.value_eq]
    exact (div_mul_div_comm _ _ _ _).symm

theorem numerator_eq_zero_iff (ha : a.Represents v) : a.numerator = 0 ↔ v = 0 := by
  rw [← ha.value_eq, value, div_eq_zero_iff, or_iff_left ha.denominator_ne_zero]

/-- The inverse exchanges numerator and denominator, so it has a denominator other than zero exactly
if the value is not zero. -/
theorem inverse (ha : a.Represents v) (h : a.inverse = .ok b) : b.Represents v⁻¹ := by
  obtain ⟨hne, rfl⟩ := inverse_eq_ok_iff.mp h
  refine ⟨hne, ?_⟩
  rw [← ha.value_eq, value, value, inv_div]

theorem exists_inverse_iff (ha : a.Represents v) : (∃ b, a.inverse = .ok b) ↔ v ≠ 0 := by
  simp only [inverse_eq_ok_iff, ne_eq, ha.numerator_eq_zero_iff, exists_and_left, exists_eq,
    and_true]

/-- Cross products are equal exactly if the quotients are. -/
theorem beq_iff (ha : a.Represents v) (hb : b.Represents w) : (a == b) = true ↔ v = w := by
  rw [← ha.value_eq, ← hb.value_eq, value, value,
    div_eq_div_iff ha.denominator_ne_zero hb.denominator_ne_zero]
  exact beq_iff_eq (a := a.numerator * b.denominator)

theorem resolve_eq (ha : a.Represents v) : a.resolve = .ok v :=
  resolve_eq_ok_iff.mpr ⟨ha.denominator_ne_zero, ha.value_eq⟩

end Represents

end Fraction

/-! ## Expressions -/

/-- An operation on two fractions, or on two field elements. -/
inductive FractionOp
  | add
  /-- The second operand is added to a variable that holds the first one. -/
  | addAssign
  | sub
  | mul
deriving DecidableEq

/-- An expression over fractions. -/
inductive FractionExpr
  | fraction (a : Fraction)
  | neg (e : FractionExpr)
  | inverse (e : FractionExpr)
  | binary (op : FractionOp) (e f : FractionExpr)

namespace FractionOp

/-- The operation with fractions. -/
def onFractions : FractionOp → Fraction → Fraction → Fraction
  | add, a, b => a + b
  | addAssign, a, b => Id.run do
    let mut sum := a
    sum := sum + b
    return sum
  | sub, a, b => a - b
  | mul, a, b => a * b

/-- The operation in the field. -/
def onFelts : FractionOp → Felt → Felt → Felt
  | add, v, w | addAssign, v, w => v + w
  | sub, v, w => v - w
  | mul, v, w => v * w

theorem represents {a b : Fraction} {v w : Felt} (op : FractionOp) (ha : a.Represents v)
    (hb : b.Represents w) : (op.onFractions a b).Represents (op.onFelts v w) := by
  cases op with
  | add => exact ha.add hb
  | addAssign => exact ha.add hb
  | sub => exact ha.sub hb
  | mul => exact ha.mul hb

end FractionOp

namespace FractionExpr

/-- The result of an expression, operand by operand. -/
def run : FractionExpr → Except ConstraintError Fraction
  | fraction a => .ok a
  | neg e => return -(← e.run)
  | inverse e => do (← e.run).inverse
  | binary op e f => return op.onFractions (← e.run) (← f.run)

/-- The value of an expression in the field, with a division for every fraction and inverse. -/
def value : FractionExpr → Felt
  | fraction a => a.numerator / a.denominator
  | neg e => -e.value
  | inverse e => 1 / e.value
  | binary op e f => op.onFelts e.value f.value

/-- Whether no fraction in an expression has zero as denominator. -/
def HasDenominators : FractionExpr → Prop
  | fraction a => a.denominator ≠ 0
  | neg e | inverse e => e.HasDenominators
  | binary _ e f => e.HasDenominators ∧ f.HasDenominators

/-- Whether an expression inverts nothing whose value is zero. -/
def InvertsNonzero : FractionExpr → Prop
  | fraction _ => True
  | neg e => e.InvertsNonzero
  | inverse e => e.InvertsNonzero ∧ e.value ≠ 0
  | binary _ e f => e.InvertsNonzero ∧ f.InvertsNonzero

variable {e : FractionExpr}

/-- Every result stands for the value of its expression. -/
theorem represents_of_run (he : e.HasDenominators) {a : Fraction} (h : e.run = .ok a) :
    a.Represents e.value := by
  induction e generalizing a with
  | fraction b =>
    obtain rfl := Except.ok.inj h
    exact ⟨he, rfl⟩
  | neg e ih =>
    obtain ⟨b, hb, h⟩ := Result.bind_eq_ok_iff.mp h
    obtain rfl := Except.ok.inj h
    exact (ih he hb).neg
  | inverse e ih =>
    obtain ⟨b, hb, h⟩ := Result.bind_eq_ok_iff.mp h
    rw [value, one_div]
    exact (ih he hb).inverse h
  | binary op e f ihe ihf =>
    obtain ⟨b, hb, h⟩ := Result.bind_eq_ok_iff.mp h
    obtain ⟨c, hc, h⟩ := Result.bind_eq_ok_iff.mp h
    obtain rfl := Except.ok.inj h
    exact op.represents (ihe he.1 hb) (ihf he.2 hc)

/-- There is a result unless something is inverted whose value is zero. -/
theorem exists_run_iff (he : e.HasDenominators) : (∃ a, e.run = .ok a) ↔ e.InvertsNonzero := by
  induction e with
  | fraction a => exact iff_of_true ⟨a, rfl⟩ trivial
  | neg e ih =>
    rw [InvertsNonzero, ← ih he]
    simp [run, Result.bind_eq_ok_iff, pure, Except.pure]
  | inverse e ih =>
    have he : e.HasDenominators := he
    rw [InvertsNonzero, ← ih he]
    constructor
    · rintro ⟨b, h⟩
      obtain ⟨a, ha, h⟩ := Result.bind_eq_ok_iff.mp h
      exact ⟨⟨a, ha⟩, (represents_of_run he ha).exists_inverse_iff.mp ⟨b, h⟩⟩
    · rintro ⟨⟨a, ha⟩, hne⟩
      obtain ⟨b, hb⟩ := (represents_of_run he ha).exists_inverse_iff.mpr hne
      exact ⟨b, Result.bind_eq_ok_iff.mpr ⟨a, ha, hb⟩⟩
  | binary op e f ihe ihf =>
    rw [InvertsNonzero, ← ihe he.1, ← ihf he.2]
    simp [run, Result.bind_eq_ok_iff, pure, Except.pure]

/-- An expression over fractions with denominators other than zero has a result if and only if it
inverts nothing whose value is zero. The result has a denominator other than zero and resolves to
the value of the expression in the field. It has no inverse if and only if that value is zero, and
it is equal to the result of another such expression if and only if the values are equal. -/
theorem run_exact (he : e.HasDenominators) :
    ((∃ a, e.run = .ok a) ↔ e.InvertsNonzero) ∧
    ∀ a, e.run = .ok a →
      a.denominator ≠ 0 ∧ a.resolve = .ok e.value ∧
      ((∃ error, a.inverse = .error error) ↔ e.value = 0) ∧
      ∀ (f : FractionExpr) (b : Fraction), f.HasDenominators → f.run = .ok b →
        ((a == b) = true ↔ e.value = f.value) := by
  refine ⟨exists_run_iff he, fun a ha => ?_⟩
  have hvalue := represents_of_run he ha
  refine ⟨hvalue.denominator_ne_zero, hvalue.resolve_eq, ?_, fun f b hf hb => ?_⟩
  · rw [← not_iff_not, ← ne_eq, ← hvalue.exists_inverse_iff]
    cases a.inverse <;> simp
  · exact hvalue.beq_iff (represents_of_run hf hb)

/-- The inverse of `(1/2 + 1/2) - 1/3`, whose sum keeps the denominator. -/
def twoThirdsInverse : FractionExpr :=
  .inverse (.binary .sub (.binary .addAssign (.fraction ⟨1, .ofNat 2⟩) (.fraction ⟨1, .ofNat 2⟩))
    (.fraction ⟨1, .ofNat 3⟩))

theorem run_exact_twoThirdsInverse : twoThirdsInverse.HasDenominators ∧
    twoThirdsInverse.InvertsNonzero ∧ ∃ a, twoThirdsInverse.run = .ok a ∧
      a.resolve = .ok (.ofNat 3 / .ofNat 2) ∧ (a == ⟨.ofNat 9, .ofNat 6⟩) = true := by
  have hdenominators : twoThirdsInverse.HasDenominators := by
    simp only [twoThirdsInverse, HasDenominators]
    decide
  have hnonzero : twoThirdsInverse.InvertsNonzero := by
    simp only [twoThirdsInverse, InvertsNonzero, value, FractionOp.onFelts]
    decide +kernel
  obtain ⟨hexists, hresult⟩ := run_exact hdenominators
  obtain ⟨a, ha⟩ := hexists.mpr hnonzero
  obtain ⟨-, hresolve, -, hequal⟩ := hresult a ha
  have hvalue : twoThirdsInverse.value = .ofNat 3 / .ofNat 2 := by decide +kernel
  refine ⟨hdenominators, hnonzero, a, ha, hvalue ▸ hresolve, ?_⟩
  refine (hequal (.fraction ⟨.ofNat 9, .ofNat 6⟩) _ ?_ rfl).mpr (by decide +kernel)
  rw [HasDenominators]
  decide

end FractionExpr

end CairoTrace
