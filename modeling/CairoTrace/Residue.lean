/-!
# Integers modulo `m`

A residue is held as its least non-negative representative, so two residues are equal exactly
when their representatives are. Powers are computed by repeated squaring; the inverse is the
power `m - 2`, which is the inverse of every non-zero residue when `m` is prime and sends zero to
zero when `m` is greater than two.
-/

namespace CairoTrace

/-- The numbers that residues are taken by. -/
class Modulus (m : Nat) : Prop where
  pos : 0 < m

/-- An integer modulo `m`. -/
structure Residue (m : Nat) where
  val : Nat
  isLt : val < m
deriving DecidableEq

namespace Residue

variable {m : Nat}

theorem ext_val {a b : Residue m} (h : a.val = b.val) : a = b := by
  cases a; cases b; cases h; rfl

/-- The residue of a number that is already below the modulus. -/
def ofCanonical? (n : Nat) : Option (Residue m) := if h : n < m then some ⟨n, h⟩ else none

theorem ofCanonical?_eq_some_iff {n : Nat} {a : Residue m} :
    ofCanonical? n = some a ↔ n = a.val := by
  unfold ofCanonical?
  split
  · next h =>
    constructor
    · intro e; cases e; rfl
    · intro e; cases a; cases e; rfl
  · next h => exact ⟨nofun, fun e => absurd a.isLt (e ▸ h)⟩

variable [Modulus m]

def ofNat (n : Nat) : Residue m := ⟨n % m, Nat.mod_lt _ Modulus.pos⟩

def add (a b : Residue m) : Residue m := ofNat (a.val + b.val)

def neg (a : Residue m) : Residue m := ofNat (m - a.val)

def sub (a b : Residue m) : Residue m := ofNat (a.val + (m - b.val))

def mul (a b : Residue m) : Residue m := ofNat (a.val * b.val)

/-- `a ^ e` for an exponent below `2 ^ bits`. -/
def powBits (a : Residue m) : (bits : Nat) → (e : Nat) → Residue m
  | 0, _ => ofNat 1
  | bits + 1, e =>
    let square := powBits (mul a a) bits (e / 2)
    if e % 2 = 1 then mul a square else square

def pow (a : Residue m) (e : Nat) : Residue m := powBits a (e.log2 + 1) e

def inv (a : Residue m) : Residue m := pow a (m - 2)

instance : Zero (Residue m) := ⟨ofNat 0⟩
instance : One (Residue m) := ⟨ofNat 1⟩
instance : Add (Residue m) := ⟨add⟩
instance : Neg (Residue m) := ⟨neg⟩
instance : Sub (Residue m) := ⟨sub⟩
instance : Mul (Residue m) := ⟨mul⟩
instance : Pow (Residue m) Nat := ⟨pow⟩
instance : Inv (Residue m) := ⟨inv⟩
instance : Div (Residue m) := ⟨fun a b => a * b⁻¹⟩
instance : Inhabited (Residue m) := ⟨0⟩

def square (a : Residue m) : Residue m := a * a

def double (a : Residue m) : Residue m := a + a

def isZero (a : Residue m) : Bool := a.val == 0

/-- The inverse, which zero does not have. -/
def inverse? (a : Residue m) : Option (Residue m) := if a.isZero then none else some a⁻¹

/-- The quotient, which exists unless the divisor is zero. -/
def div? (a b : Residue m) : Option (Residue m) := b.inverse?.map (a * ·)

/-- Euler's criterion: zero and the residues whose power `(m - 1) / 2` is one. -/
def isSquare (a : Residue m) : Bool := a.isZero || a ^ ((m - 1) / 2) == 1

@[simp] theorem val_ofNat (n : Nat) : (ofNat n : Residue m).val = n % m := rfl

end Residue

end CairoTrace
