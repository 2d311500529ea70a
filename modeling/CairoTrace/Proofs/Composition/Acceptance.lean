import CairoTrace.Proofs.Binding
import CairoTrace.Proofs.Composition.Grouping
import CairoTrace.Proofs.Rows

/-!
# Which constraints make a composition

A constraint can be composed if its rows fit in the trace, its exclusions are part of its domain,
everything that it reads is there, and its degree is below the bound (`Constraint.Composable`).
Compilation keeps track of what has been compiled (`Compiles`), one constraint at a time
(`Compiles.next`) and hence over a whole list (`Compiles.of_foldlM`). Constraints with a mask are
accepted exactly if each of them can be composed and the mask holds the cells that they read, each
once (`exists_ofMask_eq_ok_iff`).
-/

namespace CairoTrace

namespace Constraint

/-- The factors that a constraint is multiplied by. -/
def exclusionFactors (n : Nat) (c : Constraint) : List VanishingFactor :=
  c.exclusions.map (·.factor n)

/-- The degree of a constraint after its division, as a polynomial in the point. -/
def degree (n : Nat) (periodic : List PeriodicColumn) (c : Constraint) : Nat :=
  Composition.termDegree (c.expr.degree (Leaf.degree n periodic)) (c.domain.factor n)
    (c.exclusionFactors n)

/-- The condition for a constraint to be composed on a trace of length `n` with a given mask. -/
structure Composable (n : Nat) (mask : List Cell) (periodic : List PeriodicColumn) (b : Bindings)
    (degreeBound : Nat) (c : Constraint) : Prop where
  domain_fits : c.domain.fits n = true
  exclusions_fit : ∀ rows ∈ c.exclusions, rows.fits n = true
  exclusions_subset : ∀ rows ∈ c.exclusions, rows.isSubset n c.domain = true
  leaves_bound : ∀ l ∈ c.expr.leaves, l.IsBound b (· ∈ mask)
  degree_lt : c.degree n periodic < degreeBound

/-- Whether a constraint reads a cell. -/
def Reads (c : Constraint) (cell : Cell) : Prop := .cell cell.1 cell.2 ∈ c.expr.leaves

end Constraint

namespace Composition

variable {n degreeBound : Nat} {mask : List Cell} {periodic : List PeriodicColumn} {b : Bindings}

/-! ## One constraint -/

theorem constraintFactors_eq_ok_iff (hn : isPowerOfTwo n = true) {c : Constraint}
    {factors : VanishingFactor × List VanishingFactor} :
    constraintFactors n c = .ok factors ↔
      (c.domain.fits n = true ∧
        ∀ rows ∈ c.exclusions, rows.isSubset n c.domain = true ∧ rows.fits n = true) ∧
      (c.domain.factor n, c.exclusionFactors n) = factors := by
  have hexclusions (numerators : List VanishingFactor) := Result.mapM_eq_ok_iff_of
    (f := fun rows => if ¬ rows.isSubset n c.domain then .error (.domainNotSubset c.domain rows)
      else rows.vanishingFactor n)
    (p := fun rows => rows.isSubset n c.domain = true ∧ rows.fits n = true)
    (g := fun rows => rows.factor n)
    (fun rows f => by
      rw [Result.ite_error_eq_ok_iff, not_not, Rows.vanishingFactor_eq_ok_iff, and_iff_right hn,
        eq_comm (a := f), and_assoc])
    (l := c.exclusions) (r := numerators)
  simp only [constraintFactors, Result.bind_eq_ok_iff, Result.throw_bind,
    Rows.vanishingFactor_eq_ok_iff, hexclusions, Result.pure_eq_ok, Except.ok.injEq]
  constructor
  · rintro ⟨_, ⟨-, hdomain, rfl⟩, _, ⟨hfit, rfl⟩, h⟩
    exact ⟨⟨hdomain, hfit⟩, h⟩
  · rintro ⟨⟨hdomain, hfit⟩, h⟩
    exact ⟨_, ⟨hn, hdomain, rfl⟩, _, ⟨hfit, rfl⟩, h⟩

/-- The state after one more constraint, from its bound expression. -/
def Compiled.next (n : Nat) (s : Compiled) (i : Nat) (c : Constraint)
    (e : Expr (BoundLeaf Nat)) : Compiled :=
  let denominator := internFactor s.factors (c.domain.factor n)
  let numerators := internFactors denominator.2 (c.exclusionFactors n)
  { exprs := s.exprs ++ [e]
    factors := numerators.2
    groups := joinDenominator denominator.1 (numerators.1.mergeSort (· ≤ ·)) i s.groups }

theorem exists_bind_iff_isBound (l : Leaf) :
    (∃ l', l.bind b ((maskPlaces mask)[·]?) = .ok l') ↔ l.IsBound b (· ∈ mask) :=
  l.exists_bind_eq_ok_iff exists_maskPlaces_iff

theorem compileNext_eq_ok_iff (hn : isPowerOfTwo n = true) {s s' : Compiled} {i : Nat}
    {c : Constraint} :
    compileNext n degreeBound b (leafDegree n periodic.toArray) (maskPlaces mask) s i c = .ok s' ↔
      c.Composable n mask periodic b degreeBound ∧
      ∃ e, c.expr.tryMap (Leaf.bind b ((maskPlaces mask)[·]?)) = .ok e ∧ s' = s.next n i c e := by
  have hdegree (e : Expr (BoundLeaf Nat))
      (he : c.expr.tryMap (Leaf.bind b ((maskPlaces mask)[·]?)) = .ok e) :
      termDegree (e.degree (leafDegree n periodic.toArray)) (c.domain.factor n)
        (c.exclusionFactors n) = c.degree n periodic := by
    rw [Constraint.degree, Expr.degree_tryMap he fun l _ l' hl => Leaf.degree_of_bind hl]
  simp only [compileNext, Result.bind_eq_ok_iff, Result.throw_bind, Result.ite_error_eq_ok_iff,
    constraintFactors_eq_ok_iff hn, Result.pure_eq_ok, Except.ok.injEq, not_le]
  constructor
  · rintro ⟨_, ⟨⟨hdomain, hfit⟩, rfl⟩, e, he, hlt, rfl⟩
    refine ⟨⟨hdomain, fun r hr => (hfit r hr).2, fun r hr => (hfit r hr).1, fun l hl => ?_, ?_⟩,
      e, he, rfl⟩
    · exact (exists_bind_iff_isBound l).mp (Expr.exists_tryMap_eq_ok_iff.mp ⟨e, he⟩ l hl)
    · rwa [← hdegree e he]
  · rintro ⟨h, e, he, rfl⟩
    refine ⟨_, ⟨⟨h.domain_fits, fun r hr => ⟨h.exclusions_subset r hr, h.exclusions_fit r hr⟩⟩,
      rfl⟩, e, he, ?_, rfl⟩
    rw [hdegree e he]
    exact h.degree_lt

/-- A constraint that can be composed can be added to whatever has been compiled. -/
theorem exists_compileNext_eq_ok (hn : isPowerOfTwo n = true) {c : Constraint}
    (h : c.Composable n mask periodic b degreeBound) (s : Compiled) (i : Nat) :
    ∃ s', compileNext n degreeBound b (leafDegree n periodic.toArray) (maskPlaces mask) s i c
      = .ok s' := by
  obtain ⟨e, he⟩ := Expr.exists_tryMap_eq_ok_iff.mpr fun l hl =>
    (exists_bind_iff_isBound l).mpr (h.leaves_bound l hl)
  exact ⟨s.next n i c e, (compileNext_eq_ok_iff hn).mpr ⟨h, e, he, rfl⟩⟩

/-! ## A list of constraints -/

/-- What has been compiled after some constraints with their indices. The last two fields hold for
every way of giving values to factors, entries of tables to indices, and weights to constraints. -/
structure Compiles (n : Nat) (mask : List Cell) (periodic : List PeriodicColumn) (b : Bindings)
    (degreeBound : Nat) (done : List (Constraint × Nat)) (s : Compiled) : Prop where
  composable : ∀ p ∈ done, p.1.Composable n mask periodic b degreeBound
  exprs : List.Forall₂
    (fun p e => p.1.expr.tryMap (Leaf.bind b ((maskPlaces mask)[·]?)) = .ok e) done s.exprs
  factors : ∀ f ∈ s.factors, ∃ p ∈ done, f = p.1.domain.factor n ∨ f ∈ p.1.exclusionFactors n
  denominators : ∀ value entry, Tabulates s.factors value entry → ∀ v,
    (∃ g ∈ s.groups, entry g.factor = v) ↔ ∃ p ∈ done, value (p.1.domain.factor n) = v
  sum : ∀ value entry weighted, Tabulates s.factors value entry →
    (s.groups.map (·.value entry weighted)).sum = (done.map fun p =>
      weighted p.2 * ((p.1.exclusionFactors n).map value).prod / value (p.1.domain.factor n)).sum

theorem Compiles.nil : Compiles n mask periodic b degreeBound [] {} where
  composable := by simp
  exprs := .nil
  factors := by simp
  denominators := by simp
  sum := by simp

/-- One more constraint adds its own denominator and its own quotient. -/
theorem Compiles.next {done : List (Constraint × Nat)} {s : Compiled} {c : Constraint} {i : Nat}
    {e : Expr (BoundLeaf Nat)} (h : Compiles n mask periodic b degreeBound done s)
    (hc : c.Composable n mask periodic b degreeBound)
    (he : c.expr.tryMap (Leaf.bind b ((maskPlaces mask)[·]?)) = .ok e) :
    Compiles n mask periodic b degreeBound (done ++ [(c, i)]) (s.next n i c e) := by
  obtain ⟨hindex, hinitial, hmem⟩ := internFactor_spec s.factors (c.domain.factor n)
  obtain ⟨hindices, hinitial', hmem'⟩ := internFactors_spec (c.exclusionFactors n)
    (internFactor s.factors (c.domain.factor n)).2
  have hold {value entry} (ht : Tabulates (s.next n i c e).factors value entry) :
      Tabulates s.factors value entry :=
    ht.of_initial (hinitial.trans hinitial')
  have hdenominator {value entry} (ht : Tabulates (s.next n i c e).factors value entry) :
      entry (internFactor s.factors (c.domain.factor n)).1 = value (c.domain.factor n) :=
    ht _ _ (getElem?_of_initial hinitial' hindex)
  refine ⟨?_, ?_, ?_, ?_, ?_⟩
  · rw [List.forall_mem_append, List.forall_mem_singleton]
    exact ⟨h.composable, hc⟩
  · exact List.rel_append h.exprs (.cons he .nil)
  · intro f hf
    simp only [List.mem_append, List.mem_singleton, or_and_right, exists_or, exists_eq_left]
    rcases hmem' f hf with hf | hf
    · rcases hmem f hf with hf | rfl
      · exact .inl (h.factors f hf)
      · exact .inr (.inl rfl)
    · exact .inr (.inr hf)
  · intro value entry ht v
    simp only [List.mem_append, List.mem_singleton, or_and_right, exists_or, exists_eq_left]
    rw [← h.denominators value entry (hold ht) v, ← hdenominator ht]
    exact exists_factor_joinDenominator (p := (entry · = v)) _ _ i s.groups
  · intro value entry weighted ht
    have hnumerators : (internFactors (internFactor s.factors (c.domain.factor n)).2
        (c.exclusionFactors n)).1.map entry = (c.exclusionFactors n).map value := by
      rw [← List.forall₂_eq_eq_eq, List.forall₂_map_left_iff, List.forall₂_map_right_iff]
      exact hindices.imp fun j f hf => ht j f hf
    have hsorted : (((internFactors (internFactor s.factors (c.domain.factor n)).2
        (c.exclusionFactors n)).1.mergeSort (· ≤ ·)).map entry).prod =
          ((c.exclusionFactors n).map value).prod := by
      rw [← hnumerators]
      exact ((List.mergeSort_perm _ _).map entry).prod_eq
    rw [Compiled.next, sum_joinDenominator, hsorted, hdenominator ht,
      h.sum value entry weighted (hold ht), List.map_append, List.sum_append, List.map_singleton,
      List.sum_singleton]

/-- What a run of compilations over constraints with their indices leaves. -/
theorem Compiles.of_foldlM (hn : isPowerOfTwo n = true) {l : List (Constraint × Nat)} {s : Compiled}
    (h : l.foldlM (fun s p => compileNext n degreeBound b (leafDegree n periodic.toArray)
      (maskPlaces mask) s p.2 p.1) {} = .ok s) :
    Compiles n mask periodic b degreeBound l s := by
  refine Result.foldlM_induction Compiles.nil ?_ h
  intro done p s s' hs hstep
  obtain ⟨hc, e, he, rfl⟩ := (compileNext_eq_ok_iff hn).mp hstep
  exact hs.next hc he

/-! ## The mask -/

/-- The places that compiled constraints read are those of the cells that the constraints read. -/
theorem Compiles.exists_cell_mem_iff {done : List (Constraint × Nat)} {s : Compiled} {i : Nat}
    (h : Compiles n mask periodic b degreeBound done s) :
    (∃ e ∈ s.exprs, .cell i ∈ e.leaves) ↔
      ∃ p ∈ done, ∃ cell, p.1.Reads cell ∧ (maskPlaces mask)[cell]? = some i := by
  have hleaves (p : Constraint × Nat) (e : Expr (BoundLeaf Nat))
      (he : p.1.expr.tryMap (Leaf.bind b ((maskPlaces mask)[·]?)) = .ok e) :
      .cell i ∈ e.leaves ↔ ∃ cell, p.1.Reads cell ∧ (maskPlaces mask)[cell]? = some i := by
    obtain ⟨g, hg, rfl⟩ := Expr.exists_map_of_tryMap he
    rw [Expr.leaves_map, List.mem_map]
    constructor
    · rintro ⟨l, hl, heq⟩
      obtain ⟨column, offset, rfl, hplace⟩ :=
        Leaf.bind_eq_cell_iff.mp ((hg l hl).trans (by rw [heq]))
      exact ⟨(column, offset), hl, hplace⟩
    · rintro ⟨⟨column, offset⟩, hread, hplace⟩
      refine ⟨_, hread, Except.ok.inj ((hg _ hread).symm.trans ?_)⟩
      exact Leaf.bind_eq_cell_iff.mpr ⟨column, offset, rfl, hplace⟩
  have hexprs := h.exprs
  generalize s.exprs = exprs at hexprs
  clear h
  induction hexprs with
  | nil => simp
  | cons he _ ih =>
    rw [List.exists_mem_cons_iff, List.exists_mem_cons_iff]
    exact or_congr (hleaves _ _ he) ih

/-- Every place of a mask is read if and only if no cell is there twice and each is read. -/
theorem forall_place_iff {cs : List Constraint} :
    (∀ i < mask.length, ∃ c ∈ cs, ∃ cell, c.Reads cell ∧ (maskPlaces mask)[cell]? = some i) ↔
      mask.Nodup ∧ ∀ cell ∈ mask, ∃ c ∈ cs, c.Reads cell := by
  constructor
  · intro h
    refine ⟨?_, fun cell hcell => ?_⟩
    · rw [List.nodup_iff_getElem?_ne_getElem?]
      intro i j hij hj heq
      obtain ⟨-, -, cell, -, hi⟩ := h i (hij.trans hj)
      obtain ⟨-, -, cell', -, hj⟩ := h j hj
      rw [maskPlaces_eq_some hi, maskPlaces_eq_some hj, Option.some.injEq] at heq
      rw [heq, hj, Option.some.injEq] at hi
      exact hij.ne' hi
    · obtain ⟨i, hi⟩ := List.mem_iff_getElem?.mp hcell
      obtain ⟨c, hc, cell', hread, hplace⟩ := h i (List.getElem?_eq_some_iff.mp hi).1
      rw [maskPlaces_eq_some hplace, Option.some.injEq] at hi
      exact ⟨c, hc, hi ▸ hread⟩
  · rintro ⟨hnodup, hread⟩ i hi
    obtain ⟨c, hc, hcell⟩ := hread _ (List.getElem_mem hi)
    obtain ⟨j, hj⟩ := (exists_maskPlaces_iff mask[i]).mpr (List.getElem_mem hi)
    obtain ⟨hj', heq⟩ := List.getElem?_eq_some_iff.mp (maskPlaces_eq_some hj)
    rw [hnodup.getElem_inj_iff] at heq
    exact ⟨c, hc, mask[i], hcell, heq ▸ hj⟩

/-! ## Acceptance -/

/-- What is known of a composition that has been accepted. -/
structure Accepts (n : Nat) (mask : List Cell) (cs : List Constraint)
    (periodic : List PeriodicColumn) (b : Bindings) (degreeBound : Nat) (comp : Composition) :
    Prop where
  traceLength_eq : comp.traceLength = n
  generator_eq : comp.generator = Felt.rootOfUnity n
  mask_eq : comp.mask = mask
  periodic_eq : comp.periodic = periodic
  isPowerOfTwo : isPowerOfTwo n = true
  composable : ∀ c ∈ cs, c.Composable n mask periodic b degreeBound
  mask_nodup : mask.Nodup
  mask_read : ∀ cell ∈ mask, ∃ c ∈ cs, c.Reads cell
  compiles : Compiles n mask periodic b degreeBound cs.zipIdx
    ⟨comp.exprs, comp.factors, comp.groups⟩

variable {challenges : List Felt} {hints : List (Option Felt)} {cs : List Constraint}

theorem find?_unused_eq_none_iff {used : Array Bool} :
    (mask.zipIdx.find? fun q => used[q.2]? != some true) = none ↔
      ∀ i < mask.length, used[i]? = some true := by
  rw [List.find?_eq_none]
  constructor
  · intro h i hi
    have hmem : (mask[i], i) ∈ mask.zipIdx :=
      List.mk_mem_zipIdx_iff_getElem?.mpr (List.getElem?_eq_getElem hi)
    simpa using h _ hmem
  · intro h q hq
    have hlt := (List.getElem?_eq_some_iff.mp (List.mk_mem_zipIdx_iff_getElem?.mp hq)).1
    simpa using h q.2 hlt

/-- Constraints are accepted after a run of compilations that reads every place of the mask. -/
theorem ofMask_eq_ok_iff {comp : Composition} :
    ofMask n mask cs periodic challenges hints degreeBound = .ok comp ↔
      isPowerOfTwo n = true ∧ ∃ s,
        cs.zipIdx.foldlM (fun s p => compileNext n degreeBound ⟨challenges, hints, periodic.length⟩
          (leafDegree n periodic.toArray) (maskPlaces mask) s p.2 p.1) {} = .ok s ∧
        (∀ i < mask.length, (usedPlaces mask.length s.exprs)[i]? = some true) ∧
        comp = ⟨n, Felt.rootOfUnity n, degreeBound, mask, periodic, cs.map (·.name), s.exprs,
          s.factors, s.groups⟩ := by
  simp only [ofMask, Result.throw_bind, Result.ite_error_eq_ok_iff, not_not, Result.bind_eq_ok_iff,
    ← find?_unused_eq_none_iff]
  refine and_congr_right fun _ => exists_congr fun s => and_congr_right fun _ => ?_
  split
  · next h => simp [h]
  · next h =>
    rw [and_iff_right (Option.eq_none_iff_forall_ne_some.mpr fun ⟨(column, offset), i⟩ =>
      h column offset i), Result.pure_eq_ok, Except.ok.injEq]
    exact eq_comm

theorem accepts_of_ofMask {comp : Composition}
    (h : ofMask n mask cs periodic challenges hints degreeBound = .ok comp) :
    Accepts n mask cs periodic ⟨challenges, hints, periodic.length⟩ degreeBound comp := by
  obtain ⟨hn, s, hrun, hused, rfl⟩ := ofMask_eq_ok_iff.mp h
  have hcompiles := Compiles.of_foldlM hn hrun
  obtain ⟨hnodup, hread⟩ := forall_place_iff.mp fun i hi =>
    Result.exists_mem_zipIdx_iff.mp
      (hcompiles.exists_cell_mem_iff.mp (getElem?_usedPlaces.mp (hused i hi)).2)
  refine ⟨rfl, rfl, rfl, rfl, hn, fun c hc => ?_, hnodup, hread, hcompiles⟩
  obtain ⟨i, hi⟩ := List.mem_iff_getElem?.mp hc
  exact hcompiles.composable (c, i) (List.mk_mem_zipIdx_iff_getElem?.mpr hi)

/-- Constraints with a mask are accepted exactly if each of them can be composed and the mask holds
the cells that they read, each once. -/
theorem exists_ofMask_eq_ok_iff :
    (∃ comp, ofMask n mask cs periodic challenges hints degreeBound = .ok comp) ↔
      isPowerOfTwo n = true ∧
      (∀ c ∈ cs, c.Composable n mask periodic ⟨challenges, hints, periodic.length⟩ degreeBound) ∧
      mask.Nodup ∧ ∀ cell ∈ mask, ∃ c ∈ cs, c.Reads cell := by
  constructor
  · rintro ⟨comp, h⟩
    have haccepts := accepts_of_ofMask h
    exact ⟨haccepts.isPowerOfTwo, haccepts.composable, haccepts.mask_nodup, haccepts.mask_read⟩
  · rintro ⟨hn, hcs, hmask⟩
    obtain ⟨s, hrun⟩ := Result.exists_foldlM_eq_ok (l := cs.zipIdx)
      (fun p hp s => exists_compileNext_eq_ok hn (hcs p.1 (List.fst_mem_of_mem_zipIdx hp)) s p.2) {}
    refine ⟨_, ofMask_eq_ok_iff.mpr ⟨hn, s, hrun, fun i hi => ?_, rfl⟩⟩
    rw [getElem?_usedPlaces, (Compiles.of_foldlM hn hrun).exists_cell_mem_iff]
    exact ⟨hi, Result.exists_mem_zipIdx_iff.mpr (forall_place_iff.mpr hmask i hi)⟩

/-! ## A small system -/

/-- Two values that alternate along a trace of four rows. -/
def alternating : PeriodicColumn := ⟨Polynomial.interpolate [1, .ofNat 2], 2, 1, 2⟩

/-- A column that starts with one and is multiplied by the values of a periodic column. -/
def products : List Constraint :=
  [⟨"start", .leaf (.cell 0 0) - 1, .first 0, []⟩,
    ⟨"step", .leaf (.cell 0 1) - .periodic 0 * .leaf (.cell 0 0), .all, [.last]⟩]

theorem exists_ofMask_products :
    ∃ comp, ofMask 4 [(0, 0), (0, 1)] products [alternating] [] [] 4 = .ok comp := by
  refine exists_ofMask_eq_ok_iff.mpr
    ⟨by decide, ?_, by decide, by simp [products, Constraint.Reads]⟩
  rw [products, List.forall_mem_cons, List.forall_mem_singleton]
  constructor
  · exact ⟨by decide, by simp, by simp, by simp [Leaf.IsBound, OfNat.ofNat, Term.constant],
      by decide⟩
  · exact ⟨by decide, by decide, by decide, by simp [Leaf.IsBound, Term.periodic],
      by decide +kernel⟩

end Composition

end CairoTrace
