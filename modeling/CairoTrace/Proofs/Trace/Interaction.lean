import CairoTrace.Proofs.Layout.Assembly
import CairoTrace.Proofs.Trace.Writes

/-!
# The columns that depend on challenges

The components that are made of pools have their columns of products and of the aggregate after the
main columns, each a column of its own (`Layout.pool_of_build`). The full trace of a filling has
them there (`Layout.isCompletedBy_of_fullTrace`).
-/

namespace CairoTrace

theorem lookup_eq_of_mem {κ α : Type} [BEq κ] [LawfulBEq κ] {l : List (κ × α)} {k : κ} {v : α}
    (h : (k, v) ∈ l) (hsame : ∀ w, (k, w) ∈ l → w = v) : l.lookup k = some v := by
  induction l with
  | nil => cases h
  | cons e l ih =>
    obtain ⟨k', w⟩ := e
    by_cases hk : k = k'
    · subst hk
      rw [List.lookup_cons_self, hsame w List.mem_cons_self]
    · have hrest : (k, v) ∈ l := (List.mem_cons.mp h).resolve_left fun heq =>
        hk (congrArg (·.1) heq)
      rw [List.lookup_cons, beq_eq_false_iff_ne.mpr hk]
      exact ih hrest fun w hw => hsame w (List.mem_cons_of_mem _ hw)

theorem Component.isPool_of_mem_interaction {main : Array (Array Felt)} {challenges : List Felt}
    {component : Component} {e : Nat × List Felt}
    (h : e ∈ component.interaction main challenges) : component.isPool = true := by
  cases component with
  | memory | rangeCheck16 | dilutedCheck => rfl
  | _ => cases h

namespace Layout

variable {c : LayoutConfig} {n modulus : Nat} {params : Option Pedersen.Params} {l : Layout}

/-- The components that are made of pools, with their columns. -/
theorem pool_of_build (h : build c n params modulus = .ok l) {component : Component}
    (hmem : component ∈ l.components) (hpool : component.isPool = true) :
    component = .memory (l.mainColumns + 1) ∨ component = .rangeCheck16 l.mainColumns ∨
      ∃ dilution, c.dilution = some dilution ∧
        component = .dilutedCheck ⟨dilution, (ColumnStarts.ofConfig c).diluted,
          (ColumnStarts.ofConfig c).diluted + 1, l.mainColumns + 2, l.mainColumns + 3⟩ := by
  obtain ⟨hmain, -, hpools⟩ := pools_of_build h
  have hinitial : component ∈ (Assembly.initial c n).components := by
    have hfilter := List.mem_filter.mpr ⟨hmem, hpool⟩
    rw [hpools] at hfilter
    exact (List.mem_filter.mp hfilter).1
  rw [hmain]
  simp only [Assembly.initial, List.mem_append, List.mem_cons, List.not_mem_nil, or_false,
    Option.mem_toList, Option.map_eq_some_iff] at hinitial
  rcases hinitial with ((rfl | rfl | rfl) | ⟨dilution, hdilution, rfl⟩) | houtput
  · cases hpool
  · exact Or.inl rfl
  · exact Or.inr (Or.inl rfl)
  · exact Or.inr (Or.inr ⟨_, hdilution, rfl⟩)
  · split at houtput
    · obtain rfl := List.mem_singleton.mp houtput
      cases hpool
    · cases houtput

/-- The columns that depend on challenges are in the trace. -/
theorem exists_eq_of_mem_interaction (h : build c n params modulus = .ok l)
    {main : Array (Array Felt)} {challenges : List Felt} {component : Component}
    (hmem : component ∈ l.components) {e : Nat × List Felt}
    (he : e ∈ component.interaction main challenges) :
    ∃ k < l.interactionColumns, e.1 = l.mainColumns + k := by
  obtain ⟨hmain, hnames, -⟩ := pools_of_build h
  have hcolumn {k : Nat} (hlt : (ColumnStarts.ofConfig c).interaction + k < (namesOf c).length) :
      k < l.interactionColumns := by
    rw [interactionColumns, hnames, hmain]
    omega
  rcases pool_of_build h hmem (Component.isPool_of_mem_interaction he) with
    rfl | rfl | ⟨dilution, hdilution, rfl⟩
  · obtain rfl := List.mem_singleton.mp he
    exact ⟨1, hcolumn (ColumnStarts.interaction_lt (by decide)), rfl⟩
  · obtain rfl := List.mem_singleton.mp he
    exact ⟨0, hcolumn (ColumnStarts.interaction_lt (by decide)), rfl⟩
  · have hsome : c.dilution.isSome = true := by rw [hdilution, Option.isSome_some]
    rcases List.mem_pair.mp he with rfl | rfl
    · exact ⟨2, hcolumn (ColumnStarts.interaction_lt_of_dilution hsome (by decide)), rfl⟩
    · exact ⟨3, hcolumn (ColumnStarts.interaction_lt_of_dilution hsome (by decide)), rfl⟩

/-- No two of them are the same. -/
theorem eq_of_mem_interaction (h : build c n params modulus = .ok l) {main : Array (Array Felt)}
    {challenges : List Felt} {component component' : Component} (hmem : component ∈ l.components)
    (hmem' : component' ∈ l.components) {k : Nat} {v w : List Felt}
    (hv : (k, v) ∈ component.interaction main challenges)
    (hw : (k, w) ∈ component'.interaction main challenges) : w = v := by
  rcases pool_of_build h hmem (Component.isPool_of_mem_interaction hv) with
    rfl | rfl | ⟨_, -, rfl⟩ <;>
  rcases pool_of_build h hmem' (Component.isPool_of_mem_interaction hw) with
    rfl | rfl | ⟨_, -, rfl⟩ <;>
  simp only [Component.interaction, List.mem_cons, List.not_mem_nil, or_false,
    Prod.mk.injEq] at hv hw
  case inl.inl => exact hw.2.trans hv.2.symm
  case inr.inl.inr.inl => exact hw.2.trans hv.2.symm
  case inr.inr.inr.inr =>
    rcases hv with ⟨hk, rfl⟩ | ⟨hk, rfl⟩ <;> rcases hw with ⟨hk', rfl⟩ | ⟨hk', rfl⟩
    · rfl
    · omega
    · omega
    · rfl
  -- the columns of different components are not at one index
  all_goals omega

/-- The full trace has the columns of a component that depend on challenges after the main ones. -/
theorem isCompletedBy_of_fullTrace (h : build c n params modulus = .ok l) {f : Filling}
    (hf : f.IsShaped n l.mainColumns) {challenges : List Felt} {columns : List (Array Felt)}
    (hfull : fullTrace l f.columns.toList challenges = .ok columns) {component : Component}
    (hmem : component ∈ l.components) : f.IsCompletedBy challenges component columns := by
  rw [fullTrace, Result.bind_eq_ok_iff] at hfull
  obtain ⟨interaction, hinteraction, hcolumns⟩ := hfull
  obtain rfl := Except.ok.inj hcolumns
  simp only [interactionTrace, Result.throw_bind, Result.ite_error_eq_ok_iff] at hinteraction
  obtain ⟨-, hinteraction⟩ := hinteraction
  obtain rfl := Except.ok.inj hinteraction
  refine ⟨List.prefix_append _ _, fun e he => ?_⟩
  have hlookup : (l.components.flatMap (·.interaction f.columns challenges)).lookup e.1 =
      some e.2 := by
    refine lookup_eq_of_mem (List.mem_flatMap.mpr ⟨component, hmem, he⟩) fun w hw => ?_
    obtain ⟨other, hother, hw⟩ := List.mem_flatMap.mp hw
    exact eq_of_mem_interaction h hmem hother he hw
  obtain ⟨k, hk, hindex⟩ := exists_eq_of_mem_interaction h hmem he
  have hwidth : f.columns.toList.length = l.mainColumns := by
    rw [Array.length_toList, hf.size_eq]
  rw [hindex] at hlookup ⊢
  rw [List.getElem?_append_right (by omega), hwidth, Nat.add_sub_cancel_left, List.getElem?_map,
    List.getElem?_range hk, Option.map_some, Array.toArray_toList, hlookup, Option.getD_some]

end Layout

end CairoTrace
