import CairoTrace.Constraint.Error

/-!
# Fractions of field elements

A fraction is kept as numerator and denominator, so that sums and products of fractions need no
division. Two fractions are equal when their cross products are.
-/

namespace CairoTrace

structure Fraction where
  numerator : Felt
  denominator : Felt
deriving Inhabited

namespace Fraction

def ofFelt (v : Felt) : Fraction := ⟨v, 1⟩

instance : Zero Fraction := ⟨⟨0, 1⟩⟩
instance : One Fraction := ⟨⟨1, 1⟩⟩

/-- Fractions of one denominator keep it in their sum. -/
def add (a b : Fraction) : Fraction :=
  if a.denominator = b.denominator then ⟨a.numerator + b.numerator, a.denominator⟩
  else ⟨a.numerator * b.denominator + b.numerator * a.denominator, a.denominator * b.denominator⟩

def neg (a : Fraction) : Fraction := ⟨-a.numerator, a.denominator⟩

def mul (a b : Fraction) : Fraction := ⟨a.numerator * b.numerator, a.denominator * b.denominator⟩

instance : Add Fraction := ⟨add⟩
instance : Neg Fraction := ⟨neg⟩
instance : Sub Fraction := ⟨fun a b => a + -b⟩
instance : Mul Fraction := ⟨mul⟩

instance : BEq Fraction := ⟨fun a b => a.numerator * b.denominator == b.numerator * a.denominator⟩

def isZero (a : Fraction) : Bool := a.numerator.isZero

def inverse (a : Fraction) : Except ConstraintError Fraction :=
  if a.numerator.isZero then .error .zeroDenominator else .ok ⟨a.denominator, a.numerator⟩

def resolve (a : Fraction) : Except ConstraintError Felt :=
  match a.denominator.inverse? with
  | some inv => .ok (a.numerator * inv)
  | none => .error .zeroDenominator

end Fraction

end CairoTrace
