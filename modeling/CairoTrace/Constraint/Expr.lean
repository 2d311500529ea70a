/-!
# Symbolic expressions

Polynomial expressions over leaves of any type. An expression is evaluated in any type with the
arithmetic operations, once its leaves have values; the degree of an expression bounds the degree
of the polynomial it evaluates to.
-/

namespace CairoTrace

inductive Expr (α : Type)
  | leaf (a : α)
  | neg (e : Expr α)
  | add (e f : Expr α)
  | mul (e f : Expr α)
  | pow (e : Expr α) (n : Nat)
deriving DecidableEq, Inhabited

namespace Expr

variable {α β : Type}

instance : Neg (Expr α) := ⟨neg⟩
instance : Add (Expr α) := ⟨add⟩
instance : Mul (Expr α) := ⟨mul⟩
instance : Sub (Expr α) := ⟨fun e f => e + -f⟩
instance : Pow (Expr α) Nat := ⟨pow⟩

def map (f : α → β) : Expr α → Expr β
  | leaf a => leaf (f a)
  | neg e => neg (map f e)
  | add e e' => add (map f e) (map f e')
  | mul e e' => mul (map f e) (map f e')
  | pow e n => pow (map f e) n

/-- Replaces every leaf, unless one of them fails; the leftmost failure counts. -/
def tryMap {ε : Type} (f : α → Except ε β) : Expr α → Except ε (Expr β)
  | leaf a => return leaf (← f a)
  | neg e => return neg (← tryMap f e)
  | add e e' => return add (← tryMap f e) (← tryMap f e')
  | mul e e' => return mul (← tryMap f e) (← tryMap f e')
  | pow e n => return pow (← tryMap f e) n

/-- The leaves from left to right, in front of `tail`. -/
def leavesOnto : Expr α → List α → List α
  | leaf a, tail => a :: tail
  | neg e, tail => leavesOnto e tail
  | add e f, tail => leavesOnto e (leavesOnto f tail)
  | mul e f, tail => leavesOnto e (leavesOnto f tail)
  | pow e _, tail => leavesOnto e tail

/-- The leaves from left to right. -/
def leaves (e : Expr α) : List α := leavesOnto e []

/-- The value of an expression for values of its leaves. -/
@[specialize]
def eval {R : Type} [Neg R] [Add R] [Mul R] [Pow R Nat] (value : α → R) : Expr α → R
  | leaf a => value a
  | neg e => - eval value e
  | add e f => eval value e + eval value f
  | mul e f => eval value e * eval value f
  | pow e n => eval value e ^ n

/-- The degree of an expression for degrees of its leaves. -/
def degree (leafDegree : α → Nat) : Expr α → Nat
  | leaf a => leafDegree a
  | neg e => degree leafDegree e
  | add e f => max (degree leafDegree e) (degree leafDegree f)
  | mul e f => degree leafDegree e + degree leafDegree f
  | pow e n => degree leafDegree e * n

end Expr

end CairoTrace
