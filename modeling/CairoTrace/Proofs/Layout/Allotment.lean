import CairoTrace.Proofs.Layout.Assembly

/-!
# Nothing is allotted twice

Slots that do not meet have no row in common (`Slots.pairwise_separate`), and a slot that is
allocated meets none that was taken before it (`Slots.extends_of_allocate`). As the slots that are
taken in a layout are those of its components (`Layout.pairwise_separate_of_build`), no two of them
share a row. The other cells of a builtin are in columns of its own, and a layout has each of the
builtins of its configuration once (`Layout.builtins_of_build`).
-/

namespace CairoTrace

/-! ## Slots -/

namespace Slots

variable {s s' s'' : Slots} {slots slots' : List VirtualColumn}

/-- Whether no two slots meet. -/
def AreApart (taken : List (Nat × Nat)) : Prop := taken.Pairwise fun a b => meets b.1 b.2 a = false

instance (taken : List (Nat × Nat)) : Decidable (AreApart taken) :=
  inferInstanceAs (Decidable (taken.Pairwise _))

/-- Whether slots have been taken after those that were taken before, and meet none of these. -/
structure Extends (s s' : Slots) (slots : List VirtualColumn) : Prop where
  taken_eq : s'.taken = s.taken ++ slots.map fun c => (c.step, c.offset)
  isPowerOfTwo_step : ∀ c ∈ slots, isPowerOfTwo c.step = true
  areApart : AreApart s.taken → AreApart s'.taken

theorem Extends.refl : s.Extends s [] where
  taken_eq := (List.append_nil _).symm
  isPowerOfTwo_step := nofun
  areApart h := h

theorem Extends.trans (h : s.Extends s' slots) (h' : s'.Extends s'' slots') :
    s.Extends s'' (slots ++ slots') where
  taken_eq := by rw [h'.taken_eq, h.taken_eq, List.map_append, List.append_assoc]
  isPowerOfTwo_step := List.forall_mem_append.mpr ⟨h.isPowerOfTwo_step, h'.isPowerOfTwo_step⟩
  areApart hs := h'.areApart (h.areApart hs)

/-- Slots that do not meet have no row in common. -/
theorem pairwise_separate (hpow : ∀ c ∈ slots, isPowerOfTwo c.step = true)
    (h : AreApart (slots.map fun c => (c.step, c.offset))) :
    slots.Pairwise VirtualColumn.Separate := by
  rw [AreApart, List.pairwise_map] at h
  exact h.imp_of_mem fun hc hd hmeets =>
    VirtualColumn.separate_of_not_meets (hpow _ hc) (hpow _ hd) hmeets

theorem extends_of_allocate {step : Nat} {owner : String} {slot : VirtualColumn}
    (h : s.allocate step owner = .ok (slot, s')) : s.Extends s' [slot] := by
  obtain ⟨⟨hpow, -⟩, -, rfl, ⟨⟨-, -, hfree⟩, -⟩, rfl⟩ :=
    (allocate_eq_ok_iff (granularity_pos_of_allocate h)).mp h
  rw [collides, List.any_eq_false] at hfree
  refine ⟨rfl, List.forall_mem_singleton.mpr hpow, fun hs => ?_⟩
  rw [reserve, AreApart, List.pairwise_append]
  refine ⟨hs, List.pairwise_singleton _ _, fun a ha b hb => ?_⟩
  obtain rfl := List.mem_singleton.mp hb
  exact eq_false_of_ne_true (hfree a ha)

end Slots

/-! ## Components -/

namespace Component

/-- The slots of memory that a component takes. -/
def memorySlots : Component → List VirtualColumn
  | cpu => [Cpu.pc, Cpu.op0Address, Cpu.dstAddress, Cpu.op1Address]
  | memory _ => [MemoryCheck.publicAddress]
  | pedersen c => [c.input0, c.input1, c.output]
  | rangeCheck c => [c.memory]
  | ecdsa c => [c.pubkey, c.message]
  | bitwise c => [c.values, c.disjunction]
  | ecOp c => [c.memory]
  | _ => []

/-- The slots of range checked values that a component takes. -/
def rangeCheckSlots : Component → List VirtualColumn
  | cpu => [Cpu.dstOffset, Cpu.op1Offset, Cpu.op0Offset]
  | rangeCheck c => [c.parts]
  | _ => []

/-- The columns that only the cells of one component are in, apart from those of finished pools. -/
def ownColumns : Component → List Nat
  | cpu => [Column.flags, Column.registers]
  | pedersen c => [c.sum.x, c.sum.y, c.sum.suffix, c.sum.slope, c.unpacking].map (·.column)
  | ecdsa c =>
    [c.key.x, c.key.y, c.key.suffix, c.key.slope, c.keyXDiffInv, c.doubling.x, c.doubling.y,
      c.doubling.slope, c.generator.x, c.generator.y, c.generator.suffix, c.generator.slope,
      c.generatorXDiffInv].map (·.column) ++ [c.cells]
  | bitwise c => [c.pool]
  | ecOp c =>
    [c.sum.x, c.sum.y, c.sum.slope, c.xDiffInv, c.sum.suffix, c.doubling.x, c.doubling.y,
      c.doubling.slope, c.unpacking].map (·.column)
  | _ => []

/-- Whether the slots of a builtin have no row in common, and its columns are its own. -/
structure IsAllotted (c : Component) : Prop where
  separate : c.memorySlots.Pairwise VirtualColumn.Separate
  nodup_ownColumns : c.ownColumns.Nodup
  lt_of_mem_ownColumns : ∀ k ∈ c.ownColumns, Column.registers < k

end Component

namespace Layout

/-- The columns of a builtin, apart from the sorted copy of the pool of diluted numbers. -/
def ColumnStarts.ofBuiltin (s : ColumnStarts) : Builtin → List Nat
  | .pedersen => List.range' s.pedersen 5
  | .ecdsa => List.range' s.ecdsa 14
  | .bitwise => [s.diluted]
  | .ecOp => List.range' s.ecOp 9
  | _ => []

namespace ColumnStarts

variable {c : LayoutConfig} {b b' : Builtin} {k : Nat}

/-- The first column of a builtin, and the first one after its columns. -/
def bounds (s : ColumnStarts) : Builtin → Nat × Nat
  | .pedersen => (s.pedersen, s.diluted)
  | .bitwise => (s.diluted, s.ecdsa)
  | .ecdsa => (s.ecdsa, s.ecOp)
  | .ecOp => (s.ecOp, s.interaction)
  | _ => (0, 0)

/-- The groups of columns follow each other. -/
theorem monotone_ofConfig : Column.registers < (ofConfig c).pedersen ∧
    (ofConfig c).pedersen ≤ (ofConfig c).diluted ∧ (ofConfig c).diluted ≤ (ofConfig c).ecdsa ∧
      (ofConfig c).ecdsa ≤ (ofConfig c).ecOp ∧ (ofConfig c).ecOp ≤ (ofConfig c).interaction :=
  ⟨Nat.lt_succ_self 5, Nat.le_add_right _ _, Nat.le_add_right _ _, Nat.le_add_right _ _,
    Nat.le_add_right _ _⟩

/-- The pool of diluted numbers and its sorted copy are the columns of the bitwise builtin. -/
theorem bounds_of_dilution (h : c.dilution.isSome = true) (hk : k < 2) :
    ((ofConfig c).bounds .bitwise).1 ≤ (ofConfig c).diluted + k ∧
      (ofConfig c).diluted + k < ((ofConfig c).bounds .bitwise).2 := by
  have hnames : (namesIf c.dilution.isSome dilutedNames).length = 2 := by
    rw [h]
    rfl
  simp only [bounds, ofConfig]
  omega

theorem bounds_of_mem (hb : c.has b = true) (hk : k ∈ (ofConfig c).ofBuiltin b) :
    ((ofConfig c).bounds b).1 ≤ k ∧ k < ((ofConfig c).bounds b).2 := by
  have hrange {first count : Nat} {wanted : Bool} {names : List String} (hwanted : wanted = true)
      (hnames : names.length = count) (hk : k ∈ List.range' first count) :
      first ≤ k ∧ k < first + (namesIf wanted names).length := by
    rw [hwanted, namesIf, if_pos rfl, hnames]
    exact List.mem_range'_1.mp hk
  cases b with
  | pedersen => exact hrange hb rfl hk
  | ecdsa => exact hrange hb rfl hk
  | ecOp => exact hrange hb rfl hk
  | bitwise =>
    rw [List.mem_singleton.mp hk]
    exact bounds_of_dilution ((LayoutConfig.isSome_dilution c).trans hb) two_pos
  | _ => cases hk

/-- Builtins have no column in common. -/
theorem ne_of_bounds (hne : b ≠ b') {k' : Nat}
    (hk : ((ofConfig c).bounds b).1 ≤ k ∧ k < ((ofConfig c).bounds b).2)
    (hk' : ((ofConfig c).bounds b').1 ≤ k' ∧ k' < ((ofConfig c).bounds b').2) : k ≠ k' := by
  obtain ⟨-, hpedersen, hdiluted, hecdsa, hecOp⟩ := monotone_ofConfig (c := c)
  cases b <;> cases b' <;> simp only [bounds] at hk hk' <;>
    first | exact absurd rfl hne | omega

theorem lt_of_mem (hb : c.has b = true) (hk : k ∈ (ofConfig c).ofBuiltin b) :
    Column.registers < k ∧ k < (ofConfig c).interaction := by
  obtain ⟨hplain, hpedersen, hdiluted, hecdsa, hecOp⟩ := monotone_ofConfig (c := c)
  have hbounds := bounds_of_mem hb hk
  cases b <;> simp only [bounds] at hbounds <;> omega

theorem nodup_ofBuiltin {s : ColumnStarts} : (s.ofBuiltin b).Nodup := by
  cases b with
  | pedersen | ecdsa | ecOp => exact List.nodup_range'
  | bitwise => exact List.nodup_singleton _
  | _ => exact List.nodup_nil

end ColumnStarts

namespace Assembly

variable {c : LayoutConfig} {n : Nat} {a a' a'' : Assembly}
  {components components' : List Component}

/-- Whether components have been added, with their slots and in their own columns. -/
structure Adds (a a' : Assembly) (components : List Component) : Prop where
  starts_eq : a'.starts = a.starts
  components_eq : a'.components = a.components ++ components
  memory : a.memory.Extends a'.memory (components.flatMap (·.memorySlots))
  rangeCheck : a.rangeCheck.Extends a'.rangeCheck (components.flatMap (·.rangeCheckSlots))
  ownColumns : ∀ component ∈ components, ∀ b, component.builtin = some b →
    component.ownColumns = a.starts.ofBuiltin b

theorem Adds.refl : a.Adds a [] where
  starts_eq := rfl
  components_eq := (List.append_nil _).symm
  memory := .refl
  rangeCheck := .refl
  ownColumns := nofun

theorem Adds.trans (h : a.Adds a' components) (h' : a'.Adds a'' components') :
    a.Adds a'' (components ++ components') where
  starts_eq := h'.starts_eq.trans h.starts_eq
  components_eq := by rw [h'.components_eq, h.components_eq, List.append_assoc]
  memory := List.flatMap_append ▸ h.memory.trans h'.memory
  rangeCheck := List.flatMap_append ▸ h.rangeCheck.trans h'.rangeCheck
  ownColumns := List.forall_mem_append.mpr ⟨h.ownColumns, h.starts_eq ▸ h'.ownColumns⟩

theorem Adds.single {component : Component} {b : Builtin} (hstarts : a'.starts = a.starts)
    (hcomponents : a'.components = a.components ++ [component])
    (hmemory : a.memory.Extends a'.memory component.memorySlots)
    (hrange : a.rangeCheck.Extends a'.rangeCheck component.rangeCheckSlots)
    (hbuiltin : component.builtin = some b)
    (hcolumns : component.ownColumns = a.starts.ofBuiltin b) : a.Adds a' [component] where
  starts_eq := hstarts
  components_eq := hcomponents
  memory := by rwa [List.flatMap_singleton]
  rangeCheck := by rwa [List.flatMap_singleton]
  ownColumns := by
    rw [List.forall_mem_singleton]
    intro b' hb'
    obtain rfl := Option.some.inj (hbuiltin.symm.trans hb')
    exact hcolumns

theorem extends_of_allocateMemory {step : Nat} {b : Builtin} {slot : VirtualColumn}
    (h : a.allocateMemory step b = .ok (slot, a')) :
    ∃ memory, a' = { a with memory } ∧ a.memory.Extends memory [slot] := by
  obtain ⟨⟨slot', memory⟩, hallocate, heq⟩ := Result.bind_eq_ok_iff.mp h
  obtain ⟨rfl, rfl⟩ := Prod.ext_iff.mp (Except.ok.inj heq)
  exact ⟨memory, rfl, Slots.extends_of_allocate hallocate⟩

theorem extends_of_allocateRangeCheck {step : Nat} {b : Builtin} {slot : VirtualColumn}
    (h : a.allocateRangeCheck step b = .ok (slot, a')) :
    ∃ rangeCheck, a' = { a with rangeCheck } ∧ a.rangeCheck.Extends rangeCheck [slot] := by
  obtain ⟨⟨slot', rangeCheck⟩, hallocate, heq⟩ := Result.bind_eq_ok_iff.mp h
  obtain ⟨rfl, rfl⟩ := Prod.ext_iff.mp (Except.ok.inj heq)
  exact ⟨rangeCheck, rfl, Slots.extends_of_allocate hallocate⟩

/-! ### Builtins -/

theorem addPedersen_adds {params : Option Pedersen.Params} {ratio : Nat}
    (hadd : addPedersen params ratio a = .ok a') :
    ∃ component, a.Adds a' [component] ∧ component.builtin = some .pedersen := by
  cases params with
  | none => cases hadd
  | some params =>
    simp only [addPedersen, Result.bind_eq_ok_iff, Prod.exists] at hadd
    obtain ⟨height, -, input0, a0, h0, input1, a1, h1, output, a2, h2, heq⟩ := hadd
    obtain ⟨memory0, rfl, hmemory0⟩ := extends_of_allocateMemory h0
    obtain ⟨memory1, rfl, hmemory1⟩ := extends_of_allocateMemory h1
    obtain ⟨memory2, rfl, hmemory2⟩ := extends_of_allocateMemory h2
    obtain rfl := Except.ok.inj heq
    exact ⟨_, .single rfl rfl ((hmemory0.trans hmemory1).trans hmemory2) .refl rfl rfl, rfl⟩

theorem addRangeCheck_adds {config : RangeCheckConfig} (hadd : addRangeCheck config a = .ok a') :
    ∃ component, a.Adds a' [component] ∧ component.builtin = some .rangeCheck := by
  simp only [addRangeCheck, Result.bind_eq_ok_iff, Prod.exists] at hadd
  obtain ⟨height, -, memory, a0, h0, parts, a1, h1, heq⟩ := hadd
  obtain ⟨memory0, rfl, hmemory0⟩ := extends_of_allocateMemory h0
  obtain ⟨rangeCheck1, rfl, hrange⟩ := extends_of_allocateRangeCheck h1
  obtain rfl := Except.ok.inj heq
  exact ⟨_, .single rfl rfl hmemory0 hrange rfl rfl, rfl⟩

theorem addEcdsa_adds {ratio : Nat} (hadd : addEcdsa ratio a = .ok a') :
    ∃ component, a.Adds a' [component] ∧ component.builtin = some .ecdsa := by
  simp only [addEcdsa, Result.bind_eq_ok_iff, Prod.exists] at hadd
  obtain ⟨height, -, pubkey, a0, h0, message, a1, h1, heq⟩ := hadd
  obtain ⟨memory0, rfl, hmemory0⟩ := extends_of_allocateMemory h0
  obtain ⟨memory1, rfl, hmemory1⟩ := extends_of_allocateMemory h1
  obtain rfl := Except.ok.inj heq
  exact ⟨_, .single rfl rfl (hmemory0.trans hmemory1) .refl rfl rfl, rfl⟩

theorem addBitwise_adds {dilution : Dilution} {ratio : Nat}
    (hadd : addBitwise dilution ratio a = .ok a') :
    ∃ component, a.Adds a' [component] ∧ component.builtin = some .bitwise := by
  simp only [addBitwise, Result.bind_eq_ok_iff, Prod.exists, Result.throw_bind,
    Result.ite_error_eq_ok_iff] at hadd
  obtain ⟨height, -, -, values, a0, h0, disjunction, a1, h1, heq⟩ := hadd
  obtain ⟨memory0, rfl, hmemory0⟩ := extends_of_allocateMemory h0
  obtain ⟨memory1, rfl, hmemory1⟩ := extends_of_allocateMemory h1
  obtain rfl := Except.ok.inj heq
  exact ⟨_, .single rfl rfl (hmemory0.trans hmemory1) .refl rfl rfl, rfl⟩

theorem addEcOp_adds {ratio : Nat} (hadd : addEcOp ratio a = .ok a') :
    ∃ component, a.Adds a' [component] ∧ component.builtin = some .ecOp := by
  simp only [addEcOp, Result.bind_eq_ok_iff, Prod.exists] at hadd
  obtain ⟨height, -, memory, a0, h0, heq⟩ := hadd
  obtain ⟨memory0, rfl, hmemory0⟩ := extends_of_allocateMemory h0
  obtain rfl := Except.ok.inj heq
  exact ⟨_, .single rfl rfl hmemory0 .refl rfl rfl, rfl⟩

/-- A builtin is added if there is one. -/
theorem adds_of_whenSome {α : Type} {x : Option α} {step : α → Except LayoutError Assembly}
    {b : Builtin} (hb : c.has b = x.isSome)
    (hstep : ∀ v, step v = .ok a' → ∃ component, a.Adds a' [component] ∧
      component.builtin = some b)
    (hadd : (match x with
      | some v => step v
      | none => .ok a) = .ok a') :
    ∃ components, a.Adds a' components ∧
      components.map (·.builtin) = ([b].filter c.has).map some := by
  rw [List.filter_singleton, hb]
  cases x with
  | none =>
    obtain rfl := Except.ok.inj hadd
    exact ⟨[], .refl, rfl⟩
  | some v =>
    obtain ⟨component, hadds, hbuiltin⟩ := hstep v hadd
    exact ⟨[component], hadds, congrArg ([·]) hbuiltin⟩

theorem addBuiltins_adds {params : Option Pedersen.Params}
    (hadd : a.addBuiltins c params = .ok a') :
    ∃ components, a.Adds a' components ∧ components.map (·.builtin) =
      ([Builtin.pedersen, .rangeCheck, .ecdsa, .bitwise, .ecOp].filter c.has).map some := by
  simp only [addBuiltins, Result.bind_eq_ok_iff] at hadd
  obtain ⟨a0, h0, a1, h1, a2, h2, a3, h3, h4⟩ := hadd
  obtain ⟨pedersen, h0, hpedersen⟩ := adds_of_whenSome (c := c) rfl (fun _ => addPedersen_adds) h0
  obtain ⟨range, h1, hrange⟩ := adds_of_whenSome (c := c) rfl (fun _ => addRangeCheck_adds) h1
  obtain ⟨ecdsa, h2, hecdsa⟩ := adds_of_whenSome (c := c) rfl (fun _ => addEcdsa_adds) h2
  obtain ⟨bitwise, h3, hbitwise⟩ := adds_of_whenSome (c := c) (b := .bitwise) (by
    cases hbitwise : c.bitwise <;> simp [LayoutConfig.has, LayoutConfig.dilution, hbitwise])
    (fun _ => addBitwise_adds) h3
  obtain ⟨ecOp, h4, hecOp⟩ := adds_of_whenSome (c := c) rfl (fun _ => addEcOp_adds) h4
  refine ⟨_, (((h0.trans h1).trans h2).trans h3).trans h4, ?_⟩
  simp only [List.map_append, hpedersen, hrange, hecdsa, hbitwise, hecOp]
  simp only [← List.map_append, ← List.filter_append]
  rfl

/-- Of the components that are added, one without the builtin of Pedersen hashes is no such
component. -/
theorem Adds.mem_of_pedersen_mem {b : Builtin} (h : a.Adds a' components)
    (hbuiltins : components.map (·.builtin) = ([b].filter c.has).map some) (hb : b ≠ .pedersen)
    {cells : PedersenCells} (hmem : .pedersen cells ∈ a'.components) :
    .pedersen cells ∈ a.components := by
  rw [h.components_eq, List.mem_append] at hmem
  refine hmem.resolve_right fun hadded => hb ?_
  have hbuiltin : some Builtin.pedersen ∈ components.map (·.builtin) :=
    List.mem_map.mpr ⟨_, hadded, rfl⟩
  rw [hbuiltins, List.mem_map] at hbuiltin
  obtain ⟨b', hb', heq⟩ := hbuiltin
  rw [← List.mem_singleton.mp (List.mem_of_mem_filter hb'), Option.some.inj heq]

theorem addPedersen_params {params : Option Pedersen.Params} {ratio : Nat}
    (hadd : addPedersen params ratio a = .ok a') {cells : PedersenCells}
    (hmem : .pedersen cells ∈ a'.components) :
    .pedersen cells ∈ a.components ∨ params = some cells.params := by
  cases params with
  | none => cases hadd
  | some params =>
    simp only [addPedersen, Result.bind_eq_ok_iff, Prod.exists] at hadd
    obtain ⟨height, -, input0, a0, h0, input1, a1, h1, output, a2, h2, heq⟩ := hadd
    obtain ⟨memory0, rfl, -⟩ := extends_of_allocateMemory h0
    obtain ⟨memory1, rfl, -⟩ := extends_of_allocateMemory h1
    obtain ⟨memory2, rfl, -⟩ := extends_of_allocateMemory h2
    obtain rfl := Except.ok.inj heq
    refine (List.mem_append.mp hmem).imp_right fun hadded => ?_
    obtain rfl := Component.pedersen.inj (List.mem_singleton.mp hadded)
    rfl

/-- The points of Pedersen hashes are those that are given. -/
theorem addBuiltins_params {params : Option Pedersen.Params}
    (hadd : a.addBuiltins c params = .ok a') {cells : PedersenCells}
    (hmem : .pedersen cells ∈ a'.components) (hinitial : .pedersen cells ∉ a.components) :
    params = some cells.params := by
  simp only [addBuiltins, Result.bind_eq_ok_iff] at hadd
  obtain ⟨a0, h0, a1, h1, a2, h2, a3, h3, h4⟩ := hadd
  obtain ⟨range, h1, hrange⟩ := adds_of_whenSome (c := c) rfl (fun _ => addRangeCheck_adds) h1
  obtain ⟨ecdsa, h2, hecdsa⟩ := adds_of_whenSome (c := c) rfl (fun _ => addEcdsa_adds) h2
  obtain ⟨bitwise, h3, hbitwise⟩ := adds_of_whenSome (c := c) (b := .bitwise) (by
    cases hbitwise : c.bitwise <;> simp [LayoutConfig.has, LayoutConfig.dilution, hbitwise])
    (fun _ => addBitwise_adds) h3
  obtain ⟨ecOp, h4, hecOp⟩ := adds_of_whenSome (c := c) rfl (fun _ => addEcOp_adds) h4
  have h0mem : .pedersen cells ∈ a0.components :=
    h1.mem_of_pedersen_mem hrange (by decide) (h2.mem_of_pedersen_mem hecdsa (by decide)
      (h3.mem_of_pedersen_mem hbitwise (by decide) (h4.mem_of_pedersen_mem hecOp (by decide) hmem)))
  cases hpedersen : c.pedersen with
  | none =>
    rw [hpedersen] at h0
    obtain rfl := Except.ok.inj h0
    exact absurd h0mem hinitial
  | some ratio =>
    rw [hpedersen] at h0
    exact (addPedersen_params h0 h0mem).resolve_left hinitial

/-! ### The components without instances -/

theorem initial_filterMap_builtin :
    (initial c n).components.filterMap (·.builtin) = [Builtin.output].filter c.has := by
  cases hdilution : c.dilution <;> cases houtput : c.output <;>
    simp [initial, hdilution, houtput, Component.builtin, LayoutConfig.has]

theorem initial_memorySlots : (initial c n).components.flatMap (·.memorySlots) =
    [Cpu.pc, Cpu.op0Address, Cpu.dstAddress, Cpu.op1Address, MemoryCheck.publicAddress] := by
  cases hdilution : c.dilution <;> cases houtput : c.output <;>
    simp only [initial, hdilution, houtput] <;> rfl

theorem initial_rangeCheckSlots : (initial c n).components.flatMap (·.rangeCheckSlots) =
    [Cpu.dstOffset, Cpu.op1Offset, Cpu.op0Offset] := by
  cases hdilution : c.dilution <;> cases houtput : c.output <;>
    simp only [initial, hdilution, houtput] <;> rfl

end Assembly

/-! ## Layouts -/

variable {c : LayoutConfig} {n modulus : Nat} {params : Option Pedersen.Params} {l : Layout}

/-- The components of a layout are those without instances, and after them the builtins. -/
theorem exists_adds_of_build (h : build c n params modulus = .ok l) :
    ∃ (a : Assembly) (components : List Component), (Assembly.initial c n).Adds a components ∧
      l.components = a.components ∧ l.mainColumns = a.starts.interaction ∧
      components.map (·.builtin) =
        ([Builtin.pedersen, .rangeCheck, .ecdsa, .bitwise, .ecOp].filter c.has).map some := by
  simp only [build, Result.throw_bind, Result.ite_error_eq_ok_iff, Result.bind_eq_ok_iff] at h
  obtain ⟨-, _, -, -, assembly, hadd, periodic, -, heq⟩ := h
  obtain rfl := Except.ok.inj heq
  obtain ⟨components, hadds, hbuiltins⟩ := Assembly.addBuiltins_adds hadd
  exact ⟨assembly, components, hadds, rfl, rfl, hbuiltins⟩

/-- The points of Pedersen hashes are those that a layout is built with. -/
theorem params_of_build (h : build c n params modulus = .ok l) {cells : PedersenCells}
    (hmem : .pedersen cells ∈ l.components) : params = some cells.params := by
  simp only [build, Result.throw_bind, Result.ite_error_eq_ok_iff, Result.bind_eq_ok_iff] at h
  obtain ⟨-, _, -, -, assembly, hadd, periodic, -, heq⟩ := h
  obtain rfl := Except.ok.inj heq
  refine Assembly.addBuiltins_params hadd hmem ?_
  cases hdilution : c.dilution <;> cases houtput : c.output <;>
    simp [Assembly.initial, hdilution, houtput]

/-- A layout has each builtin of its configuration once. -/
theorem builtins_of_build (h : build c n params modulus = .ok l) :
    l.components.filterMap (·.builtin) = c.builtins := by
  obtain ⟨-, hc, -⟩ := isArranged_of_build h
  obtain ⟨a, components, hadds, hcomponents, -, hbuiltins⟩ := exists_adds_of_build h
  have hadded : components.filterMap (·.builtin) =
      [Builtin.pedersen, .rangeCheck, .ecdsa, .bitwise, .ecOp].filter c.has := by
    have hid := congrArg (List.filterMap id) hbuiltins
    rwa [List.filterMap_map, List.filterMap_map, Function.id_comp, Function.id_comp,
      List.filterMap_some] at hid
  have hnone : [Builtin.keccak, .poseidon].filter c.has = [] := by
    simp [LayoutConfig.has, hc.keccak, hc.poseidon]
  have hall : Builtin.all = [.output] ++ [.pedersen, .rangeCheck, .ecdsa, .bitwise, .ecOp] ++
      [.keccak, .poseidon] := rfl
  rw [hcomponents, hadds.components_eq, List.filterMap_append, Assembly.initial_filterMap_builtin,
    hadded, LayoutConfig.builtins, hall, List.filter_append, hnone, List.append_nil,
    List.filter_append]

theorem has_of_build (h : build c n params modulus = .ok l) {component : Component}
    (hmem : component ∈ l.components) {b : Builtin} (hb : component.builtin = some b) :
    c.has b = true := by
  have hbuiltin : b ∈ l.components.filterMap (·.builtin) := List.mem_filterMap.mpr ⟨_, hmem, hb⟩
  rw [builtins_of_build h] at hbuiltin
  exact (List.mem_filter.mp hbuiltin).2

/-- The columns of a builtin are where they start for the configuration. -/
theorem ownColumns_of_build (h : build c n params modulus = .ok l) {component : Component}
    (hmem : component ∈ l.components) {b : Builtin} (hb : component.builtin = some b) :
    component.ownColumns = (ColumnStarts.ofConfig c).ofBuiltin b := by
  obtain ⟨a, components, hadds, hcomponents, -⟩ := exists_adds_of_build h
  rw [hcomponents, hadds.components_eq, List.mem_append] at hmem
  rcases hmem with hinitial | hadded
  · have hplain : ∀ component ∈ (Assembly.initial c n).components,
        component.builtin = none ∨ component = .output := by
      cases hdilution : c.dilution <;> cases houtput : c.output <;>
        simp [Assembly.initial, hdilution, houtput, Component.builtin]
    rcases hplain component hinitial with hnone | rfl
    · rw [hnone] at hb
      cases hb
    · obtain rfl := Option.some.inj hb
      rfl
  · exact hadds.ownColumns component hadded b hb

/-- The columns of a component are those of the processor or of a builtin. -/
theorem mem_ownColumns_of_build (h : build c n params modulus = .ok l) {component : Component}
    (hmem : component ∈ l.components) {k : Nat} (hk : k ∈ component.ownColumns) :
    (component = .cpu ∧ k ∈ [Column.flags, Column.registers]) ∨
      ∃ b, component.builtin = some b ∧ c.has b = true ∧
        k ∈ (ColumnStarts.ofConfig c).ofBuiltin b := by
  cases hbuiltin : component.builtin with
  | some b =>
    rw [ownColumns_of_build h hmem hbuiltin] at hk
    exact Or.inr ⟨b, rfl, has_of_build h hmem hbuiltin, hk⟩
  | none =>
    cases component with
    | cpu => exact Or.inl ⟨rfl, hk⟩
    | memory | rangeCheck16 | dilutedCheck => cases hk
    | _ => cases hbuiltin

/-- No two slots of a layout have a row in common. -/
theorem pairwise_separate_of_build (h : build c n params modulus = .ok l) :
    (l.components.flatMap (·.memorySlots)).Pairwise VirtualColumn.Separate ∧
      (l.components.flatMap (·.rangeCheckSlots)).Pairwise VirtualColumn.Separate := by
  obtain ⟨a, components, hadds, hcomponents, -⟩ := exists_adds_of_build h
  have hmemory : Slots.AreApart (Assembly.initial c n).memory.taken := by
    change Slots.AreApart Assembly.memorySlots.taken
    decide
  have hrange : Slots.AreApart (Assembly.initial c n).rangeCheck.taken := by
    change Slots.AreApart Assembly.rangeCheckSlots.taken
    decide
  rw [hcomponents, hadds.components_eq, List.flatMap_append, List.flatMap_append,
    Assembly.initial_memorySlots, Assembly.initial_rangeCheckSlots]
  constructor
  · refine Slots.pairwise_separate
      (List.forall_mem_append.mpr ⟨by decide, hadds.memory.isPowerOfTwo_step⟩) ?_
    rw [List.map_append]
    exact hadds.memory.taken_eq ▸ hadds.memory.areApart hmemory
  · refine Slots.pairwise_separate
      (List.forall_mem_append.mpr ⟨by decide, hadds.rangeCheck.isPowerOfTwo_step⟩) ?_
    rw [List.map_append]
    exact hadds.rangeCheck.taken_eq ▸ hadds.rangeCheck.areApart hrange

theorem isAllotted_of_build (h : build c n params modulus = .ok l) {component : Component}
    (hmem : component ∈ l.components) {b : Builtin} (hb : component.builtin = some b) :
    component.IsAllotted where
  separate := (List.pairwise_flatMap.mp (pairwise_separate_of_build h).1).1 component hmem
  nodup_ownColumns := ownColumns_of_build h hmem hb ▸ ColumnStarts.nodup_ofBuiltin
  lt_of_mem_ownColumns _ hk :=
    (ColumnStarts.lt_of_mem (has_of_build h hmem hb) (ownColumns_of_build h hmem hb ▸ hk)).1

end Layout

end CairoTrace
