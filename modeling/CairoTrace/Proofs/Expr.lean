import CairoTrace.Constraint.Basic
import CairoTrace.Proofs.Result
import CairoTrace.Proofs.StarkField
import Mathlib.Algebra.Polynomial.Eval.Degree
import Mathlib.Algebra.Polynomial.Eval.Defs

/-!
# The meaning of expressions

Replacing leaves commutes with evaluation (`eval_map`), with the degree (`degree_map`) and with the
list of leaves (`leaves_map`). A replacement that may fail visits the leaves from left to right
(`map_leaves_tryMap`), so that it fails as the leftmost leaf does that fails
(`tryMap_eq_error_iff`), and it is one that does not wherever it succeeds (`exists_map_of_tryMap`).
A homomorphism of rings carries values over (`hom_eval`), and the degree of an expression bounds
that of the polynomial that it evaluates to (`natDegree_eval_le`).
-/

namespace CairoTrace

namespace Expr

variable {α β : Type}

/-! ## Operators -/

@[simp] theorem neg_eq (e : Expr α) : -e = neg e := rfl

@[simp] theorem add_eq (e f : Expr α) : e + f = add e f := rfl

@[simp] theorem mul_eq (e f : Expr α) : e * f = mul e f := rfl

@[simp] theorem sub_eq (e f : Expr α) : e - f = add e (neg f) := rfl

@[simp] theorem pow_eq (e : Expr α) (n : Nat) : e ^ n = pow e n := rfl

/-! ## Leaves -/

theorem leavesOnto_eq (e : Expr α) (tail : List α) : leavesOnto e tail = leaves e ++ tail := by
  induction e generalizing tail with
  | leaf a => rfl
  | neg e ih => exact ih tail
  | pow e n ih => exact ih tail
  | add e f ihe ihf | mul e f ihe ihf =>
    rw [leavesOnto, leaves, leavesOnto, ihf, ihe, ihe (leavesOnto f []), ihf [], List.append_nil,
      List.append_assoc]

@[simp] theorem leaves_leaf (a : α) : (leaf a).leaves = [a] := rfl

@[simp] theorem leaves_neg (e : Expr α) : (neg e).leaves = e.leaves := rfl

@[simp] theorem leaves_pow (e : Expr α) (n : Nat) : (pow e n).leaves = e.leaves := rfl

@[simp] theorem leaves_add (e f : Expr α) : (add e f).leaves = e.leaves ++ f.leaves :=
  leavesOnto_eq e f.leaves

@[simp] theorem leaves_mul (e f : Expr α) : (mul e f).leaves = e.leaves ++ f.leaves :=
  leavesOnto_eq e f.leaves

theorem leaves_map (g : α → β) (e : Expr α) : (e.map g).leaves = e.leaves.map g := by
  induction e with
  | leaf a => rfl
  | neg e ih => exact ih
  | pow e n ih => exact ih
  | add e f ihe ihf => rw [map, leaves_add, leaves_add, ihe, ihf, List.map_append]
  | mul e f ihe ihf => rw [map, leaves_mul, leaves_mul, ihe, ihf, List.map_append]

/-! ## Replacing leaves -/

theorem tryMap_eq_map {ε : Type} {f : α → Except ε β} {g : α → β} {e : Expr α}
    (h : ∀ a ∈ e.leaves, f a = .ok (g a)) : e.tryMap f = .ok (e.map g) := by
  induction e with
  | leaf a => rw [tryMap, h a (by simp)]; rfl
  | neg e ih => rw [tryMap, ih h]; rfl
  | pow e n ih => rw [tryMap, ih h]; rfl
  | add e f ihe ihf | mul e f ihe ihf =>
    simp only [leaves_add, leaves_mul, List.forall_mem_append] at h
    rw [tryMap, ihe h.1, ihf h.2]
    rfl

/-- A replacement visits the leaves from left to right. -/
theorem map_leaves_tryMap {ε : Type} (f : α → Except ε β) (e : Expr α) :
    (e.tryMap f).map leaves = e.leaves.mapM f := by
  induction e with
  | leaf a =>
    rw [tryMap, leaves_leaf, List.mapM_cons, List.mapM_nil]
    cases f a <;> rfl
  | neg e ih | pow e n ih =>
    simp only [tryMap, leaves_neg, leaves_pow, ← ih]
    cases e.tryMap f <;> rfl
  | add d e ihd ihe | mul d e ihd ihe =>
    simp only [tryMap, leaves_add, leaves_mul, List.mapM_append, ← ihd, ← ihe]
    cases d.tryMap f with
    | error => rfl
    | ok d' =>
      cases e.tryMap f with
      | error => rfl
      | ok e' => exact congrArg Except.ok (leavesOnto_eq d' e'.leaves)

/-- A replacement succeeds exactly when it does on every leaf. -/
theorem exists_tryMap_eq_ok_iff {ε : Type} {f : α → Except ε β} {e : Expr α} :
    (∃ e', e.tryMap f = .ok e') ↔ ∀ a ∈ e.leaves, ∃ b, f a = .ok b := by
  rw [← Result.exists_mapM_eq_ok_iff, ← map_leaves_tryMap]
  simp only [Result.map_eq_ok_iff]
  exact ⟨fun ⟨e', h⟩ => ⟨e'.leaves, e', h, rfl⟩, fun ⟨_, e', h, _⟩ => ⟨e', h⟩⟩

/-- A replacement fails with the error of the leftmost leaf on which it does. -/
theorem tryMap_eq_error_iff {ε : Type} {f : α → Except ε β} {e : Expr α} {err : ε} :
    e.tryMap f = .error err ↔
      ∃ before a after, e.leaves = before ++ a :: after ∧ (∀ b ∈ before, ∃ c, f b = .ok c) ∧
        f a = .error err := by
  rw [← Result.mapM_eq_error_iff, ← map_leaves_tryMap, Result.map_eq_error_iff]

/-- A replacement fails as that of one of the leaves does. -/
theorem exists_of_tryMap_eq_error {ε : Type} {f : α → Except ε β} {e : Expr α} {err : ε}
    (h : e.tryMap f = .error err) : ∃ a ∈ e.leaves, f a = .error err := by
  obtain ⟨before, a, after, hleaves, -, ha⟩ := tryMap_eq_error_iff.mp h
  exact ⟨a, hleaves ▸ List.mem_append_right before List.mem_cons_self, ha⟩

theorem exists_tryMap_eq_error_iff {ε : Type} {f : α → Except ε β} {e : Expr α} :
    (∃ err, e.tryMap f = .error err) ↔ ∃ a ∈ e.leaves, ∃ err, f a = .error err := by
  constructor
  · rintro ⟨err, h⟩
    obtain ⟨a, ha, herr⟩ := exists_of_tryMap_eq_error h
    exact ⟨a, ha, err, herr⟩
  · rintro ⟨a, ha, err, herr⟩
    cases h : e.tryMap f with
    | error err' => exact ⟨err', rfl⟩
    | ok e' =>
      obtain ⟨b, hb⟩ := exists_tryMap_eq_ok_iff.mp ⟨e', h⟩ a ha
      cases herr.symm.trans hb

/-- There are no expressions over leaves of an empty type. -/
theorem nonempty (e : Expr α) : Nonempty α := by
  induction e with
  | leaf a => exact ⟨a⟩
  | neg e ih | pow e n ih => exact ih
  | add d e ih _ | mul d e ih _ => exact ih

/-- A replacement that succeeds is one by a function that never fails. -/
theorem exists_map_of_tryMap {ε : Type} {f : α → Except ε β} {e : Expr α} {e' : Expr β}
    (h : e.tryMap f = .ok e') :
    ∃ g : α → β, (∀ a ∈ e.leaves, f a = .ok (g a)) ∧ e' = e.map g := by
  obtain ⟨default⟩ := e'.nonempty
  have hg (a : α) (ha : a ∈ e.leaves) : f a = .ok ((f a).toOption.getD default) := by
    obtain ⟨b, hb⟩ := exists_tryMap_eq_ok_iff.mp ⟨e', h⟩ a ha
    rw [hb]
    rfl
  exact ⟨_, hg, Except.ok.inj (h.symm.trans (tryMap_eq_map hg))⟩

/-! ## Values -/

section Eval

variable {R : Type} [Neg R] [Add R] [Mul R] [Pow R Nat]

theorem eval_map (g : α → β) (v : β → R) (e : Expr α) :
    (e.map g).eval v = e.eval fun a => v (g a) := by
  induction e with
  | leaf a => rfl
  | neg e ih => rw [map, eval, eval, ih]
  | pow e n ih => rw [map, eval, eval, ih]
  | add e f ihe ihf | mul e f ihe ihf => rw [map, eval, eval, ihe, ihf]

/-- A value depends on the values of the leaves that occur. -/
theorem eval_congr {v w : α → R} {e : Expr α} (h : ∀ a ∈ e.leaves, v a = w a) :
    e.eval v = e.eval w := by
  induction e with
  | leaf a => exact h a (by simp)
  | neg e ih => rw [eval, eval, ih h]
  | pow e n ih => rw [eval, eval, ih h]
  | add e f ihe ihf | mul e f ihe ihf =>
    simp only [leaves_add, leaves_mul, List.forall_mem_append] at h
    rw [eval, eval, ihe h.1, ihf h.2]

/-- The value after a replacement, from the values of what the leaves are replaced by. -/
theorem eval_tryMap {ε : Type} {f : α → Except ε β} {e : Expr α} {e' : Expr β} {v : α → R}
    {w : β → R} (h : e.tryMap f = .ok e')
    (hv : ∀ a ∈ e.leaves, ∀ b, f a = .ok b → w b = v a) : e'.eval w = e.eval v := by
  obtain ⟨g, hg, rfl⟩ := exists_map_of_tryMap h
  rw [eval_map]
  exact eval_congr fun a ha => hv a ha (g a) (hg a ha)

end Eval

theorem hom_eval {R S : Type} [CommRing R] [CommRing S] (φ : R →+* S) (v : α → R) (e : Expr α) :
    φ (e.eval v) = e.eval fun a => φ (v a) := by
  induction e with
  | leaf a => rfl
  | neg e ih => rw [eval, eval, map_neg, ih]
  | pow e n ih => rw [eval, eval, map_pow, ih]
  | add e f ihe ihf => rw [eval, eval, map_add, ihe, ihf]
  | mul e f ihe ihf => rw [eval, eval, map_mul, ihe, ihf]

/-! ## Degrees -/

theorem degree_map (g : α → β) (d : β → Nat) (e : Expr α) :
    (e.map g).degree d = e.degree fun a => d (g a) := by
  induction e with
  | leaf a => rfl
  | neg e ih => exact ih
  | pow e n ih => rw [map, degree, degree, ih]
  | add e f ihe ihf | mul e f ihe ihf => rw [map, degree, degree, ihe, ihf]

theorem degree_congr {d d' : α → Nat} {e : Expr α} (h : ∀ a ∈ e.leaves, d a = d' a) :
    e.degree d = e.degree d' := by
  induction e with
  | leaf a => exact h a (by simp)
  | neg e ih => exact ih h
  | pow e n ih => rw [degree, degree, ih h]
  | add e f ihe ihf | mul e f ihe ihf =>
    simp only [leaves_add, leaves_mul, List.forall_mem_append] at h
    rw [degree, degree, ihe h.1, ihf h.2]

theorem degree_tryMap {ε : Type} {f : α → Except ε β} {e : Expr α} {e' : Expr β} {d : α → Nat}
    {d' : β → Nat} (h : e.tryMap f = .ok e')
    (hd : ∀ a ∈ e.leaves, ∀ b, f a = .ok b → d' b = d a) : e'.degree d' = e.degree d := by
  obtain ⟨g, hg, rfl⟩ := exists_map_of_tryMap h
  rw [degree_map]
  exact degree_congr fun a ha => hd a ha (g a) (hg a ha)

/-- Leaves of at most `k` times their degree give an expression of at most `k` times its. -/
theorem degree_le_mul {d d' : α → Nat} {k : Nat} {e : Expr α}
    (h : ∀ a ∈ e.leaves, d a ≤ k * d' a) : e.degree d ≤ k * e.degree d' := by
  induction e with
  | leaf a => exact h a (by simp)
  | neg e ih => exact ih h
  | pow e n ih =>
    rw [degree, degree, ← mul_assoc]
    exact Nat.mul_le_mul_right n (ih h)
  | add e f ihe ihf =>
    simp only [leaves_add, List.forall_mem_append] at h
    exact max_le ((ihe h.1).trans (Nat.mul_le_mul_left k (le_max_left _ _)))
      ((ihf h.2).trans (Nat.mul_le_mul_left k (le_max_right _ _)))
  | mul e f ihe ihf =>
    simp only [leaves_mul, List.forall_mem_append] at h
    rw [degree, degree, mul_add]
    exact add_le_add (ihe h.1) (ihf h.2)

/-- The degree of an expression bounds the degree of the polynomial that it evaluates to. -/
theorem natDegree_eval_le {R : Type} [CommRing R] {v : α → Polynomial R} {d : α → Nat} {e : Expr α}
    (h : ∀ a ∈ e.leaves, (v a).natDegree ≤ d a) : (e.eval v).natDegree ≤ e.degree d := by
  induction e with
  | leaf a => exact h a (by simp)
  | neg e ih =>
    rw [eval, Polynomial.natDegree_neg]
    exact ih h
  | pow e n ih =>
    rw [eval, degree, mul_comm]
    exact Polynomial.natDegree_pow_le_of_le n (ih h)
  | add e f ihe ihf =>
    simp only [leaves_add, List.forall_mem_append] at h
    exact (Polynomial.natDegree_add_le _ _).trans (max_le_max (ihe h.1) (ihf h.2))
  | mul e f ihe ihf =>
    simp only [leaves_mul, List.forall_mem_append] at h
    exact Polynomial.natDegree_mul_le.trans (add_le_add (ihe h.1) (ihf h.2))

/-! ## Degrees, values and replacements together -/

/-- The degree of an expression bounds the degree of the polynomial that it evaluates to when its
leaves are polynomials within their degrees, and that polynomial has the values of the expression.
A replacement of the leaves fails if and only if it fails on one of them, with the error of the
first from the left. Otherwise the replaced expression has the value and the degree of the original
for the values and the degrees of what its leaves are replaced by. -/
theorem degree_sound_and_tryMap_exact {ε R : Type} [CommRing R] (e : Expr α) :
    (∀ (d : α → Nat) (p : α → Polynomial R), (∀ a ∈ e.leaves, (p a).natDegree ≤ d a) →
      (e.eval p).natDegree ≤ e.degree d ∧
      ∀ x, (e.eval p).eval x = e.eval fun a => (p a).eval x) ∧
    ∀ f : α → Except ε β,
      ((∃ err, e.tryMap f = .error err) ↔ ∃ a ∈ e.leaves, ∃ err, f a = .error err) ∧
      (∀ err, e.tryMap f = .error err ↔
        ∃ before a after, e.leaves = before ++ a :: after ∧ (∀ b ∈ before, ∃ c, f b = .ok c) ∧
          f a = .error err) ∧
      ((∀ a ∈ e.leaves, ∃ b, f a = .ok b) → ∃ e', e.tryMap f = .ok e' ∧
        (∀ (v : α → R) (w : β → R), (∀ a ∈ e.leaves, ∀ b, f a = .ok b → w b = v a) →
          e'.eval w = e.eval v) ∧
        ∀ (d : α → Nat) (d' : β → Nat), (∀ a ∈ e.leaves, ∀ b, f a = .ok b → d' b = d a) →
          e'.degree d' = e.degree d) := by
  refine ⟨fun d p hp => ⟨natDegree_eval_le hp, fun x => ?_⟩, fun f => ⟨exists_tryMap_eq_error_iff,
    fun err => tryMap_eq_error_iff, fun hok => ?_⟩⟩
  · exact hom_eval (Polynomial.evalRingHom x) p e
  · obtain ⟨e', he'⟩ := exists_tryMap_eq_ok_iff.mpr hok
    exact ⟨e', he', fun v w hv => eval_tryMap he' hv, fun d d' hd => degree_tryMap he' hd⟩

/-- What a leaf stands for, if that depends on whether it is a cell or a periodic column only. -/
def perKind {γ : Type} (cell periodic other : γ) : Leaf → γ
  | .cell _ _ => cell
  | .periodic _ => periodic
  | _ => other

/-- A difference of squares, and a cube that is multiplied by the empty power of a hint. -/
def mixedPowers : Term :=
  let x : Term := .leaf (.cell 0 0)
  let y : Term := .periodic 0
  let z : Term := .leaf (.hint 0)
  (x - y) * (x + y) + y ^ 3 * z ^ 0

theorem degree_sound_and_tryMap_exact_mixedPowers :
    let p : Leaf → Polynomial Felt := perKind .X (.X ^ 2) 0
    let bound : Bindings := ⟨[], [some 0], 1⟩
    (∀ a ∈ mixedPowers.leaves, (p a).natDegree ≤ perKind 1 2 0 a) ∧
      (mixedPowers.eval p).natDegree ≤ 6 ∧ (mixedPowers.eval p).eval (.ofNat 2) = .ofNat 52 ∧
      mixedPowers.tryMap (Leaf.bind ⟨[], [], 0⟩ some) = .error (.missingPeriodicColumn 0) ∧
      (∀ a ∈ mixedPowers.leaves, ∃ b, Leaf.bind bound some a = .ok b) ∧
      ∃ e', mixedPowers.tryMap (Leaf.bind bound some) = .ok e' ∧
        e'.eval (BoundLeaf.value (fun _ => .ofNat 2) fun _ => .ofNat 3) = .ofNat 22 ∧
        e'.degree (fun | .constant _ => 0 | .cell _ => 1 | .periodic _ => 2) = 6 := by
  intro p bound
  have hp : ∀ a ∈ mixedPowers.leaves, (p a).natDegree ≤ perKind 1 2 0 a := by
    intro a _
    cases a with
    | cell column offset => exact Polynomial.natDegree_X_le
    | periodic i => exact Polynomial.natDegree_X_pow_le 2
    | constant v | challenge i | hint i => exact Polynomial.natDegree_zero.le
  have hleaves : mixedPowers.leaves =
      [.cell 0 0, .periodic 0, .cell 0 0, .periodic 0, .periodic 0, .hint 0] := rfl
  have hbound : ∀ a ∈ mixedPowers.leaves, ∃ b, Leaf.bind bound some a = .ok b := by
    simp [hleaves, Leaf.bind, bound]
  obtain ⟨hpolynomial, hreplaced⟩ := degree_sound_and_tryMap_exact (β := BoundLeaf Cell)
    (ε := ConstraintError) (R := Felt) mixedPowers
  obtain ⟨hdegree, hvalue⟩ := hpolynomial (perKind 1 2 0) p hp
  obtain ⟨-, herror, -⟩ := hreplaced (Leaf.bind ⟨[], [], 0⟩ some)
  obtain ⟨-, -, hok⟩ := hreplaced (Leaf.bind bound some)
  obtain ⟨e', he', hvalues, hdegrees⟩ := hok hbound
  refine ⟨hp, hdegree, ?_, ?_, hbound, e', he', ?_, ?_⟩
  · have hpoint : (fun a => (p a).eval (.ofNat 2)) = perKind (.ofNat 2) (.ofNat 2 ^ 2) 0 := by
      funext a
      cases a <;> simp [p, perKind]
    rw [hvalue, hpoint]
    decide +kernel
  · refine (herror _).mpr ⟨[.cell 0 0], .periodic 0, _, hleaves, ?_, rfl⟩
    simp [Leaf.bind]
  · rw [hvalues (perKind (.ofNat 2) (.ofNat 3) 0)]
    · decide +kernel
    · simp [hleaves, Leaf.bind, bound, BoundLeaf.value, perKind]
  · rw [hdegrees (perKind 1 2 0)]
    · rfl
    · simp [hleaves, Leaf.bind, bound, perKind]

end Expr

end CairoTrace
