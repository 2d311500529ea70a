import CairoTrace.Proofs.Layout.Assembly
import CairoTrace.Proofs.Mask
import CairoTrace.Proofs.Permutation

/-!
# Layouts that have been built bind to runs

A public input that a layout accepts has segments for the builtins of the layout and no others
(`validate_eq_ok_iff`). The hints are then those of the configuration (`map_fst_hintValues`), and
they have values whenever the public memory has a quotient (`exists_hints_iff`). As all constraints
of a layout that has been built are placed, it has a composition polynomial, and traces with its
columns can be checked, exactly then (`composition_and_checkTrace_of_build`).
-/

namespace CairoTrace

namespace Layout

variable {l : Layout} {i : PublicInput} {challenges : List Felt}

/-! ## Public inputs -/

theorem checkSegment_eq_ok_iff {b : Builtin} :
    l.checkSegment i b = .ok () ↔ (i.segments.builtin b).isSome = l.config.has b := by
  rw [checkSegment]
  cases (i.segments.builtin b).isSome <;> cases l.config.has b <;> simp

theorem validate_eq_ok_iff : l.validate i = .ok () ↔
    i.layout = l.config.name ∧ i.steps = l.steps ∧
      (∀ b, (i.segments.builtin b).isSome = l.config.has b) ∧
      i.memory.length ≤ l.traceLength / publicMemoryStep := by
  have hsegments : Builtin.all.forM (l.checkSegment i) = .ok () ↔
      ∀ b, (i.segments.builtin b).isSome = l.config.has b := by
    rw [Result.forM_eq_ok_iff]
    simp only [checkSegment_eq_ok_iff]
    exact ⟨fun h b => h b b.mem_all, fun h b _ => h b⟩
  rw [← hsegments]
  simp only [validate, Result.throw_bind, Result.ite_error_eq_ok_iff, Result.check_bind_eq_ok_iff,
    not_not]
  refine and_congr_right fun _ => and_congr_right fun _ => and_congr_right fun _ => ?_
  split
  · next h => simp [Result.throw_eq_error, h]
  · next h => simp [Result.pure_eq_ok, not_lt.mp h]

/-! ## Hints -/

/-- The denominator of the quotient of a public memory: the product of the terms of its entries, and
of that of the padding for each place without an entry. -/
def publicDenominator (l : Layout) (i : PublicInput) (challenges : List Felt)
    (padding : MemoryEntry) : Felt :=
  let term := Permutation.memoryTerm (Challenge.memoryZ.value challenges)
    (Challenge.memoryAlpha.value challenges)
  (i.memory.map term).prod * term padding ^ (l.traceLength / publicMemoryStep - i.memory.length)

/-- Whether the public memory has an entry at address one and a quotient. -/
def HasMemoryQuotient (l : Layout) (i : PublicInput) (challenges : List Felt) : Prop :=
  ∃ padding, i.memory.find? (·.address == 1) = some padding ∧
    l.publicDenominator i challenges padding ≠ 0

theorem exists_memoryQuotient_iff {padding : MemoryEntry}
    (hfit : i.memory.length ≤ l.traceLength / publicMemoryStep) :
    (∃ quotient, Permutation.memoryQuotient (Challenge.memoryZ.value challenges)
      (Challenge.memoryAlpha.value challenges) l.traceLength publicMemoryStep i.memory padding =
        .ok quotient) ↔ l.publicDenominator i challenges padding ≠ 0 := by
  simp only [Permutation.memoryQuotient_eq_ok_iff, hfit, true_and, exists_and_left, exists_eq',
    and_true, publicDenominator]

theorem padding_eq_ok_iff {padding : MemoryEntry} :
    i.padding = .ok padding ↔ i.memory.find? (·.address == 1) = some padding := by
  rw [PublicInput.padding]
  cases i.memory.find? (·.address == 1) <;> simp

theorem map_fst_startValues {starts : List (Hint × Felt)} (h : l.startValues i = .ok starts) :
    starts.map (·.1) = (startHints.filter fun (b, _) => l.config.has b).map (·.2) := by
  rw [startValues, Result.mapM_eq_ok_iff] at h
  rw [← List.forall₂_eq_eq_eq, List.forall₂_map_left_iff, List.forall₂_map_right_iff]
  refine h.flip.imp fun start hint heq => ?_
  simp only at heq
  split at heq
  · obtain rfl := Except.ok.inj heq
    rfl
  · cases heq

theorem exists_startValues (h : ∀ b, (i.segments.builtin b).isSome = l.config.has b) :
    ∃ starts, l.startValues i = .ok starts := by
  refine Result.exists_mapM_eq_ok_iff.mpr fun (b, hint) hmem => ?_
  have hhas : l.config.has b = true := (List.mem_filter.mp hmem).2
  rw [← h b] at hhas
  obtain ⟨segment, hsegment⟩ := Option.isSome_iff_exists.mp hhas
  exact ⟨(hint, .ofNat segment.start), by simp only [hsegment]⟩

/-- The hints that a run has values for are those of the configuration. -/
theorem map_fst_hintValues {values : List (Hint × Felt)}
    (h : l.hintValues i challenges = .ok values) : values.map (·.1) = l.config.hints := by
  simp only [hintValues, Result.throw_bind, Result.ite_error_eq_ok_iff, Result.bind_eq_ok_iff] at h
  obtain ⟨-, padding, -, quotient, -, starts, hstarts, heq⟩ := h
  obtain rfl := Except.ok.inj heq
  have haggregate (f : Dilution → Felt) :
      ((l.config.dilution.map fun d => (Hint.dilutedAggregate, f d)).toList.map (·.1)) =
        if l.config.dilution.isSome then [.dilutedAggregate] else [] := by
    cases l.config.dilution <;> rfl
  rw [List.map_append, List.map_append, map_fst_startValues hstarts, haggregate]
  rfl

/-- The values of all hints, in the order of the configuration, exist if the public memory has a
quotient. -/
theorem exists_hints_iff (hvalid : l.validate i = .ok ())
    (hchallenges : challenges.length = l.challengeCount) :
    (∃ hints, l.hints i challenges = .ok hints) ↔ l.HasMemoryQuotient i challenges := by
  obtain ⟨-, -, hsegments, hfit⟩ := validate_eq_ok_iff.mp hvalid
  obtain ⟨starts, hstarts⟩ := exists_startValues hsegments
  constructor
  · rintro ⟨hints, h⟩
    obtain ⟨values, hvalues, -⟩ := Result.bind_eq_ok_iff.mp h
    simp only [hintValues, Result.throw_bind, Result.ite_error_eq_ok_iff,
      Result.bind_eq_ok_iff] at hvalues
    obtain ⟨-, padding, hpadding, quotient, hquotient, -⟩ := hvalues
    exact ⟨padding, padding_eq_ok_iff.mp (Result.mapError_eq_ok_iff.mp hpadding),
      (exists_memoryQuotient_iff hfit).mp ⟨quotient, hquotient⟩⟩
  · rintro ⟨padding, hpadding, hdenominator⟩
    obtain ⟨quotient, hquotient⟩ := (exists_memoryQuotient_iff hfit).mpr hdenominator
    have hpadding : i.padding.mapError LayoutError.input = .ok padding :=
      Result.mapError_eq_ok_iff.mpr (padding_eq_ok_iff.mpr hpadding)
    have hvalues : ∃ values, l.hintValues i challenges = .ok values := by
      rw [hintValues, if_neg (not_not.mpr hchallenges), hpadding, Result.ok_bind, hquotient,
        Result.ok_bind, hstarts, Result.ok_bind]
      exact ⟨_, rfl⟩
    obtain ⟨values, hvalues⟩ := hvalues
    exact ⟨Hint.all.map (List.lookup · values), by rw [hints, hvalues, Result.ok_bind]; rfl⟩

theorem getElem?_all_index (h : Hint) : Hint.all[h.index]? = some h := by
  cases h <;> rfl

/-- Hints that have been found give everything that the layout supplies its value. -/
theorem hasValues_of_hints {hints : List (Option Felt)}
    (hchallenges : challenges.length = l.challengeCount) (h : l.hints i challenges = .ok hints) :
    l.supply.HasValues ⟨challenges, hints, l.periodic.length⟩ := by
  obtain ⟨values, hvalues, heq⟩ := Result.bind_eq_ok_iff.mp h
  obtain rfl := Except.ok.inj heq
  refine ⟨rfl, hchallenges, fun hint hmem => ?_⟩
  have hkeys : hint ∈ values.map (·.1) := map_fst_hintValues hvalues ▸ hmem
  obtain ⟨⟨key, v⟩, hvalue, rfl⟩ := List.mem_map.mp hkeys
  have hsome : (List.lookup key values).isSome = true :=
    List.lookup_isSome_iff.mpr ⟨(key, v), hvalue, beq_self_eq_true key⟩
  obtain ⟨v', hlookup⟩ := Option.isSome_iff_exists.mp hsome
  exact ⟨v', by rw [List.getElem?_map, getElem?_all_index, Option.map_some, hlookup]⟩

/-! ## Compositions and checks -/

namespace WellFormed

/-- The mask of a layout holds the cells that one of its constraints reads, each once. -/
theorem mask_exact (h : l.WellFormed) :
    l.mask.Nodup ∧ ∀ cell, cell ∈ l.mask ↔ ∃ c ∈ l.constraints, c.Reads cell := by
  rw [h.mask_eq]
  exact ⟨nodup_deriveMask _, fun _ => mem_deriveMask_iff⟩

theorem composable (h : l.WellFormed) (hdegree : 2 ≤ l.config.constraintDegree)
    {b : Bindings} (hb : l.supply.HasValues b) {c : Constraint} (hc : c ∈ l.constraints) :
    c.Composable l.traceLength l.mask l.periodic b l.degreeBound :=
  (h.isPlaced c hc).composable h.isPowerOfTwo h.periodic (Nat.mul_le_mul_right _ hdegree) hb
    fun cell hread => (h.mask_exact.2 cell).mpr ⟨c, hc, hread⟩

end WellFormed

theorem exists_composition_iff (h : l.WellFormed) (hdegree : 2 ≤ l.config.constraintDegree)
    (hvalid : l.validate i = .ok ()) (hchallenges : challenges.length = l.challengeCount) :
    (∃ comp, l.composition i challenges = .ok comp) ↔ l.HasMemoryQuotient i challenges := by
  rw [← exists_hints_iff hvalid hchallenges]
  constructor
  · rintro ⟨comp, hcomp⟩
    rw [composition, hvalid, Result.ok_bind] at hcomp
    obtain ⟨hints, hhints, -⟩ := Result.bind_eq_ok_iff.mp hcomp
    exact ⟨hints, hhints⟩
  · rintro ⟨hints, hhints⟩
    have hb := hasValues_of_hints hchallenges hhints
    obtain ⟨comp, hcomp⟩ := Composition.exists_ofMask_eq_ok_iff.mpr ⟨h.isPowerOfTwo,
      fun c hc => h.composable hdegree hb hc, h.mask_exact.1,
      fun cell hcell => (h.mask_exact.2 cell).mp hcell⟩
    refine ⟨comp, ?_⟩
    rw [composition, hvalid, Result.ok_bind, hhints, Result.ok_bind]
    exact Result.mapError_eq_ok_iff.mpr hcomp

theorem exists_checkTrace_iff (h : l.WellFormed) (hvalid : l.validate i = .ok ())
    (hchallenges : challenges.length = l.challengeCount) {columns : List (Array Felt)}
    (hcolumns : columns.length = l.columnNames.length)
    (hsize : ∀ column ∈ columns, column.size = l.traceLength) :
    (∃ violations, l.checkTrace columns i challenges = .ok violations) ↔
      l.HasMemoryQuotient i challenges := by
  rw [← exists_hints_iff hvalid hchallenges]
  constructor
  · rintro ⟨violations, hviolations⟩
    obtain ⟨hints, hhints, -⟩ := Result.bind_eq_ok_iff.mp hviolations
    exact ⟨hints, hhints⟩
  · rintro ⟨hints, hhints⟩
    have hb := hasValues_of_hints hchallenges hhints
    have hcheckable (c : Constraint) (hc : c ∈ l.constraints) : c.Checkable l.traceLength
        columns.length ⟨challenges, hints, l.periodic.length⟩ := by
      rw [hcolumns]
      exact (h.isPlaced c hc).checkable hb
    obtain ⟨violations, hviolations⟩ := exists_checkConstraints_eq_ok_iff.mpr
      ⟨h.isPowerOfTwo, hsize, hcheckable⟩
    refine ⟨violations, ?_⟩
    rw [checkTrace, hhints, Result.ok_bind]
    exact Result.mapError_eq_ok_iff.mpr hviolations

/-! ## Layouts that have been built -/

/-- A layout with range checks and bitwise operations. -/
def wordsConfig : LayoutConfig where
  name := "words"
  output := true
  rangeCheck := some { ratio := 8 }
  bitwise := some { ratio := 8 }

/-- The public input of a run of eight steps whose public memory is its padding. -/
def wordsInput : PublicInput where
  rangeCheckMin := 0
  rangeCheckMax := 65535
  steps := 8
  layout := "words"
  segments := {
    program := ⟨1, 5⟩
    execution := ⟨5, 20⟩
    builtin := fun b => if wordsConfig.has b then some ⟨100, 200⟩ else none }
  memory := [⟨1, .ofNat 7⟩]

def wordsChallenges : List Felt := [2, 3, 5, 7, 11, 13].map .ofNat

/-- A layout that has been built and a public input that it accepts have a composition polynomial
for every list of challenges, unless the public memory has no entry for padding or a quotient with a
denominator of zero. The rows of all constraints fit, their exclusions are parts of their domains
and their degrees are below the bound; everything that they read is there, and the mask is exact. A
trace with the columns of the layout can be checked under the same condition. -/
theorem composition_and_checkTrace_of_build {c : LayoutConfig} {n modulus : Nat}
    {params : Option Pedersen.Params} (hbuild : build c n params modulus = .ok l)
    (hdegree : 2 ≤ c.constraintDegree) (hvalid : l.validate i = .ok ())
    (hchallenges : challenges.length = l.challengeCount) :
    ((∃ comp, l.composition i challenges = .ok comp) ↔ l.HasMemoryQuotient i challenges) ∧
    (∀ k ∈ l.constraints, k.domain.fits l.traceLength = true ∧
      (∀ rows ∈ k.exclusions, rows.fits l.traceLength = true ∧
        rows.isSubset l.traceLength k.domain = true) ∧
      k.degree l.traceLength l.periodic < l.degreeBound) ∧
    (∀ hints, l.hints i challenges = .ok hints → ∀ k ∈ l.constraints, ∀ leaf ∈ k.expr.leaves,
      leaf.IsBound ⟨challenges, hints, l.periodic.length⟩ (· ∈ l.mask)) ∧
    (l.mask.Nodup ∧ ∀ cell, cell ∈ l.mask ↔ ∃ k ∈ l.constraints, k.Reads cell) ∧
    ∀ columns : List (Array Felt), columns.length = l.columnNames.length →
      (∀ column ∈ columns, column.size = l.traceLength) →
      ((∃ violations, l.checkTrace columns i challenges = .ok violations) ↔
        l.HasMemoryQuotient i challenges) := by
  obtain ⟨rfl, -, hwell⟩ := build_eq_ok hbuild
  refine ⟨exists_composition_iff hwell hdegree hvalid hchallenges, fun k hk => ?_,
    fun hints hhints k hk => ?_, hwell.mask_exact, fun columns hcolumns hsize => ?_⟩
  · have hrows := (hwell.isPlaced k hk).rows
    exact ⟨hrows.domain_fits,
      fun rows hmem => ⟨hrows.exclusions_fit rows hmem, hrows.exclusions_subset rows hmem⟩,
      (hwell.isPlaced k hk).degree_lt hwell.isPowerOfTwo hwell.periodic
        (Nat.mul_le_mul_right _ hdegree)⟩
  · exact (hwell.composable hdegree (hasValues_of_hints hchallenges hhints) hk).leaves_bound
  · exact exists_checkTrace_iff hwell hvalid hchallenges hcolumns hsize

theorem composition_and_checkTrace_words : ∃ l, build wordsConfig 128 none = .ok l ∧
    (∃ comp, l.composition wordsInput wordsChallenges = .ok comp) ∧
    ∃ violations, l.checkTrace (List.replicate 12 (Array.replicate 128 0)) wordsInput
      wordsChallenges = .ok violations := by
  have hbuild : ∃ l, build wordsConfig 128 none = .ok l ∧ l.validate wordsInput = .ok () ∧
      wordsChallenges.length = l.challengeCount ∧ l.HasMemoryQuotient wordsInput wordsChallenges ∧
      12 = l.columnNames.length ∧ l.traceLength = 128 := by
    refine ⟨_, rfl, rfl, rfl, ?_, rfl, rfl⟩
    exact ⟨⟨1, 7⟩, rfl, by decide⟩
  obtain ⟨l, hl, hvalid, hchallenges, hquotient, hcolumns, hlength⟩ := hbuild
  obtain ⟨hcomposition, -, -, -, hcheck⟩ :=
    composition_and_checkTrace_of_build hl (by decide) hvalid hchallenges
  refine ⟨l, hl, hcomposition.mpr hquotient, (hcheck _ ?_ ?_).mpr hquotient⟩
  · rw [List.length_replicate, hcolumns]
  · intro column hmem
    rw [List.eq_of_mem_replicate hmem, hlength, Array.size_replicate]

end Layout

end CairoTrace
