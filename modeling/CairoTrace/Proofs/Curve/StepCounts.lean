import CairoTrace.Builtin.Ecdsa
import CairoTrace.Builtin.Pedersen
import CairoTrace.Proofs.Result

/-!
# How many steps there are

A sum has a step for each of the points that it may add (`length_of_sumSteps`,
`Pedersen.length_of_stepsFrom`), and a doubling as many as are asked for. So the witness of an
instance has 256 steps for each of its scalars.
-/

namespace CairoTrace

@[simp] theorem length_doublingSteps (n : Nat) (p : Point) : (doublingSteps n p).length = n := by
  induction n generalizing p with
  | zero => rfl
  | succ n ih => rw [doublingSteps, List.length_cons, ih]

/-! ## Sums -/

/-- The first step of a sum and the steps after it. -/
theorem sumStepsFrom_cons_eq_ok_iff {m : Word} {i : Nat} {q sum last : Point} {rest : List Point}
    {steps : List SumStep} : sumStepsFrom m i (q :: rest) sum = .ok (steps, last) ↔
      ¬ (rest ≠ [] ∧ sum.x = q.x) ∧ ∃ tail,
        sumStepsFrom m (i + 1) rest (if (m >>> i) % 2 = 1 then sum + q else sum) =
          .ok (tail, last) ∧
        steps = {
          point := sum
          suffix := .ofNat (m >>> i)
          slope := if (m >>> i) % 2 = 1 then
            (sum.y - q.y) * (if rest = [] then 0 else (sum.x - q.x)⁻¹) else 0
          xDiffInv := if rest = [] then 0 else (sum.x - q.x)⁻¹ } :: tail := by
  simp only [sumStepsFrom, Result.throw_bind, Result.ite_error_eq_ok_iff, Result.bind_eq_ok_iff,
    Result.pure_eq_ok, Except.ok.injEq, Prod.mk.injEq, Prod.exists]
  refine and_congr_right fun _ => ⟨?_, ?_⟩
  · rintro ⟨tail, sum, htail, rfl, rfl⟩
    exact ⟨tail, htail, rfl⟩
  · rintro ⟨tail, htail, rfl⟩
    exact ⟨tail, last, htail, rfl, rfl⟩

theorem length_of_sumStepsFrom {m : Word} {i : Nat} {points : List Point} {sum last : Point}
    {steps : List SumStep} (h : sumStepsFrom m i points sum = .ok (steps, last)) :
    steps.length = points.length := by
  induction points generalizing i sum steps with
  | nil =>
    obtain ⟨rfl, -⟩ := Prod.mk.inj (Except.ok.inj h)
    rfl
  | cons q rest ih =>
    obtain ⟨-, tail, htail, rfl⟩ := sumStepsFrom_cons_eq_ok_iff.mp h
    rw [List.length_cons, List.length_cons, ih htail]

/-- A sum over the points of a doubling. -/
theorem length_of_sumSteps {m : Word} {n : Nat} {p start last : Point} {steps : List SumStep}
    (h : sumSteps m ((doublingSteps n p).map (·.point)) start = .ok (steps, last)) :
    steps.length = n := by
  rw [length_of_sumStepsFrom h, List.length_map, length_doublingSteps]

/-! ## Multiples of a point -/

namespace EcOp

variable {inst : EcOpInstance} {w : Witness}

/-- What the witness of an instance is made of. -/
theorem Witness.ofInstance_eq_ok (h : Witness.ofInstance inst = .ok w) :
    Point.ofWords inst.pX inst.pY = .ok w.p ∧ Point.ofWords inst.qX inst.qY = .ok w.q ∧
      feltOfWord inst.m = .ok w.m ∧ w.inst = inst ∧ w.doubling = doublingSteps steps w.q ∧
      sumSteps w.m.val (w.doubling.map (·.point)) w.p = .ok (w.sum, w.r) := by
  simp only [Witness.ofInstance, Result.bind_eq_ok_iff, Prod.exists] at h
  obtain ⟨p, hp, q, hq, m, hm, sum, r, hsum, heq⟩ := h
  obtain rfl := Except.ok.inj heq
  exact ⟨hp, hq, hm, rfl, rfl, hsum⟩

theorem Witness.length_steps (h : Witness.ofInstance inst = .ok w) :
    w.doubling.length = steps ∧ w.sum.length = steps := by
  obtain ⟨-, -, -, -, hdoubling, hsum⟩ := ofInstance_eq_ok h
  rw [hdoubling] at hsum
  exact ⟨hdoubling ▸ length_doublingSteps _ _, length_of_sumSteps hsum⟩

end EcOp

/-! ## Signatures -/

namespace Ecdsa

@[simp] theorem length_withLastSlope (slope : Felt) (steps : List DoublingStep) :
    (withLastSlope slope steps).length = steps.length :=
  List.length_modify _ _ _

variable {inst : EcdsaInstance} {w : Witness}

theorem Witness.length_steps_of_ofKey {key : Point} {message r v : Felt}
    (h : Witness.ofKey inst key message r v = .ok w) : w.generatorSum.length = EcOp.steps ∧
      w.keySum.length = 2 * EcOp.steps ∧ w.doubling.length = 2 * EcOp.steps := by
  simp only [Witness.ofKey, Result.throw_bind, Result.ite_error_eq_ok_iff, Result.bind_eq_ok_iff,
    Prod.exists] at h
  obtain ⟨generatorSum, _, hgenerator, rSum, _, hr, -, wSum, _, hw, -, -, heq⟩ := h
  obtain rfl := Except.ok.inj heq
  refine ⟨length_of_sumSteps hgenerator, ?_, ?_⟩
  · rw [List.length_append, length_of_sumSteps hr, length_of_sumSteps hw, two_mul]
  · rw [List.length_append, length_withLastSlope, length_withLastSlope, length_doublingSteps,
      length_doublingSteps, two_mul]

theorem Witness.length_steps (h : Witness.ofInstance inst = .ok w) :
    w.generatorSum.length = EcOp.steps ∧ w.keySum.length = 2 * EcOp.steps ∧
      w.doubling.length = 2 * EcOp.steps := by
  simp only [Witness.ofInstance, Result.bind_eq_ok_iff] at h
  obtain ⟨message, -, r, -, v, -, keyX, -, h⟩ := h
  split at h
  · cases h
  · split at h
    · next hlow =>
      obtain rfl := Except.ok.inj h
      exact length_steps_of_ofKey hlow
    · split at h
      · next hhigh =>
        obtain rfl := Except.ok.inj h
        exact length_steps_of_ofKey hhigh
      · cases h

end Ecdsa

/-! ## Pedersen hashes -/

namespace Pedersen

@[simp] theorem length_doublings (n : Nat) (p : Point) : (doublings n p).length = n := by
  induction n generalizing p with
  | zero => rfl
  | succ n ih => rw [doublings, List.length_cons, ih]

@[simp] theorem length_digitPoints (low high : Point) :
    (digitPoints low high).length = stepsPerInput := by
  rw [digitPoints, List.length_append, List.length_append, length_doublings, length_doublings,
    List.length_replicate]
  rfl

/-- The first step of a sum and the steps after it. -/
theorem stepsFrom_cons_eq_ok_iff {v first i : Nat} {q sum : Point} {rest : List Point}
    {steps : List Step} : stepsFrom v first i (q :: rest) sum = .ok steps ↔
      ¬ ((v >>> i) % 2 = 1 ∧ sum.x = q.x) ∧ ∃ tail,
        stepsFrom v first (i + 1) rest (if (v >>> i) % 2 = 1 then sum + q else sum) = .ok tail ∧
        steps = {
          point := sum
          suffix := .ofNat (v >>> i)
          slope := if (v >>> i) % 2 = 1 then (sum.y - q.y) / (sum.x - q.x) else 0 } :: tail := by
  simp only [stepsFrom, Result.throw_bind, Result.ite_error_eq_ok_iff, Result.bind_eq_ok_iff,
    Result.pure_eq_ok, Except.ok.injEq]
  exact and_congr_right fun _ => exists_congr fun _ => and_congr_right fun _ => eq_comm

theorem length_of_stepsFrom {v first i : Nat} {points : List Point} {sum : Point}
    {steps : List Step} (h : stepsFrom v first i points sum = .ok steps) :
    steps.length = points.length := by
  induction points generalizing i sum steps with
  | nil =>
    obtain rfl := Except.ok.inj h
    rfl
  | cons q rest ih =>
    obtain ⟨-, tail, htail, rfl⟩ := stepsFrom_cons_eq_ok_iff.mp h
    rw [List.length_cons, List.length_cons, ih htail]

variable {params : Params} {inst : PedersenInstance} {w : Witness}

/-- What the witness of an instance is made of. -/
theorem Witness.ofInstance_eq_ok_iff : Witness.ofInstance params inst = .ok w ↔
    feltOfWord inst.a = .ok w.a ∧ feltOfWord inst.b = .ok w.b ∧ w.inst = inst ∧
      w.output = (lastPoint w.bSteps).x ∧
      stepsFrom w.a.val 0 0 (digitPoints params.aLow params.aHigh) params.shift = .ok w.aSteps ∧
      stepsFrom w.b.val stepsPerInput 0 (digitPoints params.bLow params.bHigh)
        (lastPoint w.aSteps) = .ok w.bSteps := by
  simp only [Witness.ofInstance, Result.bind_eq_ok_iff, params.aRows_eq, params.bRows_eq]
  constructor
  · rintro ⟨a, ha, b, hb, aSteps, haSteps, bSteps, hbSteps, heq⟩
    obtain rfl := Except.ok.inj heq
    exact ⟨ha, hb, rfl, rfl, haSteps, hbSteps⟩
  · rintro ⟨ha, hb, rfl, houtput, haSteps, hbSteps⟩
    refine ⟨_, ha, _, hb, _, haSteps, _, hbSteps, ?_⟩
    rw [← houtput]
    rfl

theorem Witness.length_steps (h : Witness.ofInstance params inst = .ok w) :
    w.aSteps.length = stepsPerInput ∧ w.bSteps.length = stepsPerInput := by
  obtain ⟨-, -, -, -, ha, hb⟩ := ofInstance_eq_ok_iff.mp h
  exact ⟨(length_of_stepsFrom ha).trans (length_digitPoints _ _),
    (length_of_stepsFrom hb).trans (length_digitPoints _ _)⟩

end Pedersen

end CairoTrace
