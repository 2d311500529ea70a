import CairoTrace.Proofs.Component.AddressRows
import CairoTrace.Proofs.Layout.Allotment
import CairoTrace.Proofs.Layout.Binding
import CairoTrace.Proofs.Trace.Interaction

/-!
# The addresses of builtins in a trace

In a layout that has been built, each builtin of the configuration has a component, and its first
address is a hint with the start of its segment as value (`Layout.startHint_value`). So the
constraints on addresses say that the builtin accesses the cells of its segment in order
(`Layout.addressConstraints_of_build`).
-/

namespace CairoTrace

/-- The constraints on the addresses of a builtin, wherever its cells are arranged. -/
theorem Component.holds_addressConstraints_iff {config : LayoutConfig} {n start : Nat}
    {columns : List (Array Felt)} {periodic : List PeriodicColumn} {bindings : Bindings}
    {component : Component} {b : Builtin} (hn : isPowerOfTwo n = true) (hword : n < 2 ^ 64)
    (hbuiltin : component.builtin = some b) (houtput : b ≠ .output)
    (h : component.IsArranged config n)
    (hstart : ∀ hint, (b, hint) ∈ Layout.startHints → hint.value bindings.hints = (start : Felt)) :
    (∀ k ∈ component.addressConstraints, k.Holds n columns periodic bindings) ↔
      ∀ i < n / component.height, component.addressCells columns i =
        (b.addresses start i).map Residue.ofNat := by
  cases component with
  | cpu | memory | rangeCheck16 | dilutedCheck => cases hbuiltin
  | output => exact absurd (Option.some.inj hbuiltin).symm houtput
  | pedersen cells =>
    obtain rfl := Option.some.inj hbuiltin
    exact PedersenCells.holds_addressConstraints_iff hn hword h (hstart _ (by decide))
  | rangeCheck cells =>
    obtain rfl := Option.some.inj hbuiltin
    exact RangeCheckCells.holds_addressConstraints_iff hn hword h (hstart _ (by decide))
  | ecdsa cells =>
    obtain rfl := Option.some.inj hbuiltin
    exact EcdsaCells.holds_addressConstraints_iff hn hword h (hstart _ (by decide))
  | bitwise cells =>
    obtain rfl := Option.some.inj hbuiltin
    exact BitwiseCells.holds_addressConstraints_iff hn hword h (hstart _ (by decide))
  | ecOp cells =>
    obtain rfl := Option.some.inj hbuiltin
    exact EcOpCells.holds_addressConstraints_iff hn hword h (hstart _ (by decide))

namespace Layout

variable {l : Layout} {i : PublicInput} {challenges : List Felt}

theorem mem_startValues_iff {starts : List (Hint × Felt)} (h : l.startValues i = .ok starts)
    {hint : Hint} {v : Felt} : (hint, v) ∈ starts ↔ ∃ b segment, (b, hint) ∈ startHints ∧
      l.config.has b = true ∧ i.segments.builtin b = some segment ∧
      v = (segment.start : Felt) := by
  rw [startValues] at h
  rw [Result.mem_iff_of_mapM_eq_ok h]
  constructor
  · rintro ⟨⟨b, hint'⟩, hmem, heq⟩
    obtain ⟨hmem, hhas⟩ := List.mem_filter.mp hmem
    simp only at heq
    split at heq
    · next segment hsegment =>
      obtain ⟨rfl, rfl⟩ := Prod.ext_iff.mp (Except.ok.inj heq)
      exact ⟨b, segment, hmem, hhas, hsegment, rfl⟩
    · cases heq
  · rintro ⟨b, segment, hmem, hhas, hsegment, rfl⟩
    refine ⟨(b, hint), List.mem_filter.mpr ⟨hmem, hhas⟩, ?_⟩
    simp only [hsegment]
    rfl

/-- The hint of the first address of a builtin has the start of its segment as value. -/
theorem startHint_value {hints : List (Option Felt)} (h : l.hints i challenges = .ok hints)
    {b : Builtin} {hint : Hint} (hmem : (b, hint) ∈ startHints) (hhas : l.config.has b = true)
    {segment : Segment} (hsegment : i.segments.builtin b = some segment) :
    hint.value hints = (segment.start : Felt) := by
  obtain ⟨values, hvalues, heq⟩ := Result.bind_eq_ok_iff.mp h
  obtain rfl := Except.ok.inj heq
  simp only [hintValues, Result.throw_bind, Result.ite_error_eq_ok_iff,
    Result.bind_eq_ok_iff] at hvalues
  obtain ⟨-, padding, -, quotient, -, starts, hstarts, hvalues⟩ := hvalues
  obtain rfl := Except.ok.inj hvalues
  refine Hint.value_eq ?_
  rw [List.getElem?_map, getElem?_all_index, Option.map_some]
  refine congrArg some (lookup_eq_of_mem (List.mem_append_right _
    ((mem_startValues_iff hstarts).mpr ⟨b, segment, hmem, hhas, hsegment, rfl⟩)) fun v hv => ?_)
  rcases List.mem_append.mp hv with hother | hstart
  · -- the hints before the starts are not those of builtins
    have hdistinct : ∀ p ∈ startHints, p.2 ∉ [Hint.initialAp, .initialPc, .finalAp, .finalPc,
        .memoryQuotient, .rangeCheckMin, .rangeCheckMax, .dilutedAggregate] := by decide
    refine absurd (List.mem_map_of_mem (f := (·.1)) hother) fun hkey => hdistinct _ hmem ?_
    cases hdilution : l.config.dilution <;> simp [hdilution] at hkey ⊢ <;> tauto
  · obtain ⟨b', segment', hmem', -, hsegment', rfl⟩ := (mem_startValues_iff hstarts).mp hstart
    have hinjective : ∀ p ∈ startHints, ∀ q ∈ startHints, p.2 = q.2 → p = q := by decide
    cases hinjective _ hmem _ hmem' rfl
    rw [hsegment] at hsegment'
    cases hsegment'
    rfl

variable {c : LayoutConfig} {n modulus : Nat} {params : Option Pedersen.Params}

theorem exists_component_of_build (h : build c n params modulus = .ok l) {b : Builtin}
    (hhas : c.has b = true) : ∃ component ∈ l.components, component.builtin = some b := by
  have hmem : b ∈ c.builtins := List.mem_filter.mpr ⟨b.mem_all, hhas⟩
  rw [← builtins_of_build h] at hmem
  exact List.mem_filterMap.mp hmem

/-- In a layout that has been built, each builtin of the configuration that accesses memory, with a
segment of the public input for it, has a component, and the constraints of that component on
addresses hold in a trace if and only if for every instance the cells of its addresses are, in
order, the addresses of the instance in the segment. -/
theorem addressConstraints_of_build (hbuild : build c n params modulus = .ok l)
    (hword : n < 2 ^ 64) {b : Builtin} (houtput : b ≠ .output) (hhas : c.has b = true)
    {segment : Segment} (hsegment : i.segments.builtin b = some segment)
    {hints : List (Option Felt)} (hhints : l.hints i challenges = .ok hints) :
    (∃ component ∈ l.components, component.builtin = some b) ∧
      ∀ component ∈ l.components, component.builtin = some b → ∀ columns : List (Array Felt),
        (∀ k ∈ component.addressConstraints,
          k.Holds n columns l.periodic ⟨challenges, hints, l.periodic.length⟩) ↔
        ∀ j < n / component.height, component.addressCells columns j =
          (b.addresses segment.start j).map Residue.ofNat := by
  obtain ⟨rfl, rfl, -⟩ := build_eq_ok hbuild
  obtain ⟨hn, -, harranged⟩ := isArranged_of_build hbuild
  refine ⟨exists_component_of_build hbuild hhas, fun component hmem hbuiltin columns => ?_⟩
  exact Component.holds_addressConstraints_iff hn hword hbuiltin houtput
    (harranged component hmem) fun hint hstart => startHint_value hhints hstart hhas hsegment

theorem addressConstraints_words : ∃ l hints, build wordsConfig 128 none = .ok l ∧
    l.hints wordsInput wordsChallenges = .ok hints ∧
    (∃ component ∈ l.components, component.builtin = some .bitwise) ∧
      ∀ component ∈ l.components, component.builtin = some .bitwise →
        ∀ columns : List (Array Felt), (∀ k ∈ component.addressConstraints,
            k.Holds 128 columns l.periodic ⟨wordsChallenges, hints, l.periodic.length⟩) ↔
          ∀ j < 128 / component.height, component.addressCells columns j =
            (Builtin.bitwise.addresses 100 j).map Residue.ofNat := by
  have hbuild : ∃ l, build wordsConfig 128 none = .ok l ∧ l.validate wordsInput = .ok () ∧
      wordsChallenges.length = l.challengeCount ∧
        l.HasMemoryQuotient wordsInput wordsChallenges := by
    refine ⟨_, rfl, rfl, rfl, ?_⟩
    exact ⟨⟨1, 7⟩, rfl, by decide⟩
  obtain ⟨l, hl, hvalid, hchallenges, hquotient⟩ := hbuild
  obtain ⟨hints, hhints⟩ := (exists_hints_iff hvalid hchallenges).mpr hquotient
  have hsegment : wordsInput.segments.builtin .bitwise = some ⟨100, 200⟩ := rfl
  exact ⟨l, hints, hl, hhints,
    addressConstraints_of_build hl (by decide) (by decide) rfl hsegment hhints⟩

end Layout

end CairoTrace
