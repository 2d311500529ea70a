import CairoTrace.Proofs.Completeness.Bitwise
import CairoTrace.Proofs.Completeness.Signature
import CairoTrace.Proofs.Trace.Addresses

/-!
# Instances in a trace

The private input lists the instances of a builtin with their indices. A builtin puts them in the
order of their indices (`Component.instancesByIndex_eq_ok_iff`), and accesses the operands of each
instance at the addresses of its index (`Component.accesses_of_listed`). An index keeps the last of
its instances only. So a trace holds the operands of an instance exactly if they are those of the
last instance with its index, and of all instances exactly if instances with one index agree
(`Layout.holdsOperands_iff`).
-/

namespace CairoTrace

open Cpu (jumpWord)
open Pool (lastPushed)

/-- The instances of a builtin that are listed, by their index and the operands in memory. -/
def PrivateInput.listed (p : PrivateInput) : Builtin → List (Nat × List Word)
  | .pedersen => p.pedersen.map fun a => (a.index, [a.a, a.b])
  | .rangeCheck => p.rangeCheck.map fun a => (a.index, [a.value])
  | .ecdsa => p.ecdsa.map fun a => (a.index, [a.keyX, a.message])
  | .bitwise => p.bitwise.map fun a => (a.index, [a.x, a.y])
  | .ecOp => p.ecOp.map fun a => (a.index, [a.pX, a.pY, a.qX, a.qY, a.m])
  | _ => []

/-- The instances of a builtin have the same number of operands. -/
theorem PrivateInput.length_eq_of_mem_listed {p : PrivateInput} {b : Builtin}
    {inst other : Nat × List Word} (h : inst ∈ p.listed b) (hother : other ∈ p.listed b) :
    inst.2.length = other.2.length := by
  cases b with
  | output | keccak | poseidon => cases h
  | pedersen | rangeCheck | ecdsa | bitwise | ecOp =>
    obtain ⟨a, -, rfl⟩ := List.mem_map.mp h
    obtain ⟨a', -, rfl⟩ := List.mem_map.mp hother
    rfl

/-! ## Accesses -/

/-- Accesses to memory in slots that come with an index. -/
def Write.accesses (slots : List (VirtualColumn × Nat)) (addresses : List Nat)
    (values : List Felt) : List Write :=
  (slots.zip (addresses.zip values)).map fun (slot, address, value) =>
    .memory (slot.1.row slot.2) address value

/-- The slots of accesses that are held have the addresses and the values. -/
theorem Write.AreHeld.accesses_eq {check : Option DilutedCheck} {columns : List (Array Felt)}
    {slots : List (VirtualColumn × Nat)} {addresses : List Nat} {values : List Felt}
    (h : Write.AreHeld check columns (Write.accesses slots addresses values))
    (hcolumns : ∀ slot ∈ slots, slot.1.column = Column.memoryPool)
    (haddresses : addresses.length = slots.length) (hvalues : values.length = slots.length) :
    slots.map (fun slot => slot.1.cellAt columns slot.2) = addresses.map .ofNat ∧
      slots.map (fun slot => slot.1.valueColumn.cellAt columns slot.2) = values := by
  induction slots generalizing addresses values with
  | nil =>
    rw [List.length_nil, List.length_eq_zero_iff] at haddresses hvalues
    rw [haddresses, hvalues]
    exact ⟨rfl, rfl⟩
  | cons slot slots ih =>
    obtain ⟨address, addresses, rfl⟩ := List.exists_cons_of_length_eq_add_one haddresses
    obtain ⟨value, values, rfl⟩ := List.exists_cons_of_length_eq_add_one hvalues
    rw [List.forall_mem_cons] at hcolumns
    have hfirst : .memory (slot.1.row slot.2) address value ∈
        Write.accesses (slot :: slots) (address :: addresses) (value :: values) :=
      List.mem_cons_self
    obtain ⟨hcells, hrest⟩ := ih (h.mono (List.subset_cons_self _ _)) hcolumns.2
      (Nat.succ.inj haddresses) (Nat.succ.inj hvalues)
    simp only [List.map_cons, hcells, hrest, h.slot_cellAt_eq hcolumns.1 hfirst,
      h.valueColumn_cellAt_eq hcolumns.1 hfirst, and_self]

namespace Component

/-- The slots of the accesses of instance `k` of a builtin, in the order of its addresses. -/
def accessSlots (k : Nat) : Component → List (VirtualColumn × Nat)
  | pedersen c => [(c.input0, k), (c.input1, k), (c.output, k)]
  | rangeCheck c => [(c.memory, k)]
  | ecdsa c => [(c.pubkey, k), (c.message, k)]
  | bitwise c => (List.range 4).map (fun j => (c.values, 4 * k + j)) ++ [(c.disjunction, k)]
  | ecOp c => (List.range 7).map fun j => (c.memory, 8 * k + j)
  | _ => []

/-- The cells of the values of an instance of a builtin, in the order of its addresses. -/
def valueCells (columns : List (Array Felt)) (k : Nat) (c : Component) : List Felt :=
  (c.accessSlots k).map fun slot => slot.1.valueColumn.cellAt columns slot.2

/-- Whether the first cells of the values of an instance hold its operands. -/
def HoldsOperands (c : Component) (columns : List (Array Felt)) (inst : Nat × List Word) : Prop :=
  inst.2.map .ofNat <+: c.valueCells columns inst.1

variable {c : Component} {columns : List (Array Felt)} {k : Nat}

theorem addressCells_eq : c.addressCells columns k =
    (c.accessSlots k).map fun slot => slot.1.cellAt columns slot.2 := by
  cases c with
  | bitwise | ecOp => simp only [addressCells, accessSlots, List.map_append, List.map_map]; rfl
  | _ => rfl

theorem length_addresses {b : Builtin} (h : c.builtin = some b) (start : Nat) :
    (b.addresses start k).length = (c.accessSlots k).length := by
  cases c with
  | cpu | memory | rangeCheck16 | dilutedCheck => cases h
  | output | pedersen | rangeCheck | ecdsa | bitwise | ecOp =>
    obtain rfl := Option.some.inj h
    rfl

theorem IsArranged.column_of_mem_accessSlots {config : LayoutConfig} {n : Nat}
    (h : c.IsArranged config n) {slot : VirtualColumn × Nat} (hslot : slot ∈ c.accessSlots k) :
    slot.1.column = Column.memoryPool := by
  cases c with
  | cpu | memory | rangeCheck16 | dilutedCheck | output => cases hslot
  | pedersen cells =>
    simp only [accessSlots, List.mem_cons, List.not_mem_nil, or_false] at hslot
    rcases hslot with rfl | rfl | rfl
    · exact h.input0.column_eq
    · exact h.input1.column_eq
    · exact h.output.column_eq
  | rangeCheck cells =>
    obtain rfl := List.mem_singleton.mp hslot
    exact h.memory.column_eq
  | ecdsa cells =>
    rcases List.mem_pair.mp hslot with rfl | rfl
    · exact h.pubkey.column_eq
    · exact h.message.column_eq
  | bitwise cells =>
    rcases List.mem_append.mp hslot with hslot | hslot
    · obtain ⟨j, -, rfl⟩ := List.mem_map.mp hslot
      exact h.values.column_eq
    · obtain rfl := List.mem_singleton.mp hslot
      exact h.disjunction.column_eq
  | ecOp cells =>
    obtain ⟨j, -, rfl⟩ := List.mem_map.mp hslot
    exact h.memory.column_eq

/-- Whether a script accesses the operands of an instance, with results after them, at the addresses
of the instance. -/
def Accesses (c : Component) (b : Builtin) (start k : Nat) (operands : List Word)
    (script : List Write) : Prop :=
  ∃ results : List Felt, operands.length + results.length = (c.accessSlots k).length ∧
    Write.accesses (c.accessSlots k) (b.addresses start k) (operands.map .ofNat ++ results) ⊆ script

theorem Accesses.mono {b : Builtin} {start : Nat} {operands : List Word}
    {script script' : List Write} (h : c.Accesses b start k operands script)
    (hsubset : script ⊆ script') : c.Accesses b start k operands script' :=
  let ⟨results, hlength, hscript⟩ := h
  ⟨results, hlength, List.Subset.trans hscript hsubset⟩

/-- Operands that are read as field elements. -/
theorem Accesses.of_residues {b : Builtin} {start : Nat} {script : List Write}
    (values results : List Felt)
    (hlength : values.length + results.length = (c.accessSlots k).length)
    (hscript : Write.accesses (c.accessSlots k) (b.addresses start k) (values ++ results) ⊆ script) :
    c.Accesses b start k (values.map (·.val)) script := by
  have hvalues : (values.map (·.val)).map .ofNat = values := by
    rw [List.map_map]
    exact (List.map_congr_left fun a _ => Residue.natCast_val a).trans (List.map_id' values)
  refine ⟨results, ?_, ?_⟩
  · rw [List.length_map, hlength]
  · rw [hvalues]
    exact hscript

/-- What is accessed is held beside the addresses. -/
theorem Accesses.cells_of_areHeld {b : Builtin} {start : Nat} {operands : List Word}
    {script : List Write} (h : c.Accesses b start k operands script) {config : LayoutConfig}
    {n : Nat} (harranged : c.IsArranged config n) (hbuiltin : c.builtin = some b)
    {check : Option DilutedCheck} (hheld : Write.AreHeld check columns script) :
    c.addressCells columns k = (b.addresses start k).map .ofNat ∧
      c.HoldsOperands columns (k, operands) := by
  obtain ⟨results, hlength, hscript⟩ := h
  rw [← List.length_map (f := (.ofNat : Nat → Felt)), ← List.length_append] at hlength
  obtain ⟨haddresses, hvalues⟩ := (hheld.mono hscript).accesses_eq
    (fun slot => harranged.column_of_mem_accessSlots) (length_addresses hbuiltin start) hlength
  rw [addressCells_eq, HoldsOperands, valueCells, hvalues]
  exact ⟨haddresses, List.prefix_append _ _⟩

end Component

/-! ## Builtins -/

section Builtins

variable {start : Nat}

theorem PedersenCells.accesses_of_placed {cells : PedersenCells} {inst : PedersenInstance}
    {placed : List (Option PedersenInstance)}
    (hok : ∀ error, .refuse error ∉ cells.writes start placed)
    (hinst : placed[inst.index]? = some (some inst)) :
    (Component.pedersen cells).Accesses .pedersen start inst.index [inst.a, inst.b]
      (cells.writes start placed) := by
  rw [writes_eq_ofWitnesses] at hok ⊢
  obtain ⟨w, (hw : Pedersen.Witness.ofInstance cells.params inst = .ok w), hsubset⟩ :=
    Write.exists_subset_ofWitnesses (cells.instanceWrites start)
      (Write.exists_witness_of_refuse_notMem hok) hinst
  obtain ⟨ha, hb, rfl, -⟩ := Pedersen.Witness.ofInstance_eq_ok_iff.mp hw
  rw [feltOfWord_eq_ok_iff.mp ha, feltOfWord_eq_ok_iff.mp hb]
  refine .of_residues [w.a, w.b] [w.output] rfl ?_
  exact List.Subset.trans (List.subset_append_right _ _) hsubset

theorem EcdsaCells.accesses_of_placed {cells : EcdsaCells} {inst : EcdsaInstance}
    {placed : List (Option EcdsaInstance)}
    (hok : ∀ error, .refuse error ∉ cells.writes start placed)
    (hinst : placed[inst.index]? = some (some inst)) :
    (Component.ecdsa cells).Accesses .ecdsa start inst.index [inst.keyX, inst.message]
      (cells.writes start placed) := by
  rw [writes_eq_ofWitnesses] at hok ⊢
  obtain ⟨w, (hw : Ecdsa.Witness.ofInstance inst = .ok w), hsubset⟩ :=
    Write.exists_subset_ofWitnesses (cells.instanceWrites start)
      (Write.exists_witness_of_refuse_notMem hok) hinst
  obtain ⟨Q, hQ, rfl, hmessage, -⟩ := Ecdsa.Witness.ofInstance_eq_ok hw
  have hkey : w.inst.keyX = w.key.x.val := by
    rw [hQ.keyX_eq, hQ.eq_ofSignature]
    rfl
  rw [hkey, hmessage]
  refine .of_residues [w.key.x, w.message] [] rfl ?_
  exact List.Subset.trans (List.subset_append_right _ _) hsubset

theorem EcOpCells.accesses_of_placed {cells : EcOpCells} {inst : EcOpInstance}
    {placed : List (Option EcOpInstance)}
    (hok : ∀ error, .refuse error ∉ cells.writes start placed)
    (hinst : placed[inst.index]? = some (some inst)) :
    (Component.ecOp cells).Accesses .ecOp start inst.index
      [inst.pX, inst.pY, inst.qX, inst.qY, inst.m] (cells.writes start placed) := by
  rw [writes_eq_ofWitnesses] at hok ⊢
  obtain ⟨w, (hw : EcOp.Witness.ofInstance inst = .ok w), hsubset⟩ :=
    Write.exists_subset_ofWitnesses (cells.instanceWrites start)
      (Write.exists_witness_of_refuse_notMem hok) hinst
  obtain ⟨hp, hq, hm, rfl, -⟩ := EcOp.Witness.ofInstance_eq_ok hw
  obtain ⟨-, -, -, hpX, hpY⟩ := Point.ofWords_eq_ok_iff.mp hp
  obtain ⟨-, -, -, hqX, hqY⟩ := Point.ofWords_eq_ok_iff.mp hq
  rw [hpX, hpY, hqX, hqY, feltOfWord_eq_ok_iff.mp hm]
  refine .of_residues [w.p.x, w.p.y, w.q.x, w.q.y, w.m] [w.r.x, w.r.y] rfl ?_
  exact List.Subset.trans (List.subset_append_right _ _) hsubset

theorem RangeCheckCells.accesses_of_placed {cells : RangeCheckCells} {inst : RangeCheckInstance}
    {placed : List (Option RangeCheckInstance)}
    (hok : ∀ error, .refuse error ∉ cells.writes start placed)
    (hinst : placed[inst.index]? = some (some inst)) :
    (Component.rangeCheck cells).Accesses .rangeCheck start inst.index [inst.value]
      (cells.writes start placed) := by
  have hsubset : cells.instanceWrites start inst.index inst ⊆ cells.writes start placed :=
    instanceWrites_subset hinst
  refine .mono ?_ hsubset
  replace hok := fun error hmem => hok error (hsubset hmem)
  unfold instanceWrites at *
  split at hok
  · exact absurd List.mem_cons_self (hok _)
  · exact ⟨[], rfl, List.cons_subset_cons _ (List.nil_subset _)⟩

theorem BitwiseCells.accesses_of_placed {cells : BitwiseCells} {inst : BitwiseInstance}
    {placed : List (Option BitwiseInstance)}
    (hok : ∀ error, .refuse error ∉ cells.writes start placed)
    (hinst : placed[inst.index]? = some (some inst)) :
    (Component.bitwise cells).Accesses .bitwise start inst.index [inst.x, inst.y]
      (cells.writes start placed) := by
  have hsubset : cells.instanceWrites start inst.index inst ⊆ cells.writes start placed :=
    Result.subset_flatMap_zipIdx hinst fun q =>
      cells.instanceWrites start q.2 (q.1.getD ⟨q.2, 0, 0⟩)
  refine .mono ?_ hsubset
  replace hok := fun error hmem => hok error (hsubset hmem)
  unfold instanceWrites at *
  split at hok
  · exact absurd List.mem_cons_self (hok _)
  · next w hw =>
    obtain ⟨-, rfl⟩ := Bitwise.Witness.ofInstance_eq_ok_iff.mp hw
    refine ⟨[.ofNat (inst.x &&& inst.y), .ofNat (inst.x ^^^ inst.y), .ofNat (inst.x ||| inst.y)],
      rfl, ?_⟩
    exact List.subset_append_right _ _

end Builtins

namespace Component

variable {component : Component} {b : Builtin} {n : Nat} {i : PublicInput} {e : Execution}

/-- A builtin accesses the operands of the last instance of each index that is listed. -/
theorem accesses_of_builtinScript {α : Type} {index : α → Nat} {operands : α → List Word}
    {instances : List α} {writes : Nat → List (Option α) → List Write} {count : Nat}
    (hok : ∀ error, .refuse error ∉ builtinScript b i count index instances writes)
    (hwrites : ∀ start placed (a : α), (∀ error, .refuse error ∉ writes start placed) →
      placed[index a]? = some (some a) →
        component.Accesses b start (index a) (operands a) (writes start placed))
    {inst : Nat × List Word} (hinst : inst ∈ instances.map fun a => (index a, operands a)) :
    inst.1 < count ∧ ∃ segment last, i.segments.builtin b = some segment ∧
      lastPushed (instances.map fun a => (index a, operands a)) inst.1 = some last ∧
      component.Accesses b segment.start inst.1 last
        (builtinScript b i count index instances writes) := by
  obtain ⟨a, ha, rfl⟩ := List.mem_map.mp hinst
  rw [builtinScript] at *
  split at hok
  · exact absurd (List.mem_singleton_self _) (hok _)
  split at hok
  · exact absurd (List.mem_singleton_self _) (hok _)
  next segment hsegment _ placed hplaced =>
  obtain ⟨hcount, rfl⟩ := instancesByIndex_eq_ok_iff.mp hplaced
  -- the place of the index has an instance, which need not be the one that is listed
  obtain ⟨last, hlast⟩ := Pool.exists_lastPushed
    (List.mem_map.mpr ⟨a, ha, rfl⟩ : (index a, a) ∈ instances.map fun a => (index a, a))
  have hindex : index last = index a := by
    obtain ⟨a', -, heq⟩ := List.mem_map.mp (Pool.mem_of_lastPushed hlast)
    obtain ⟨hindex, rfl⟩ := Prod.ext_iff.mp heq
    exact hindex
  refine ⟨hcount a ha, segment, operands last, hsegment, ?_, ?_⟩
  · have hmap := Pool.lastPushed_map operands (instances.map fun a => (index a, a)) (index a)
    rwa [List.map_map, hlast] at hmap
  · rw [← hindex]
    refine hwrites _ _ last hok ?_
    rw [hindex, List.getElem?_map, List.getElem?_range (hcount a ha), Option.map_some, hlast]

theorem accesses_of_listed (hbuiltin : component.builtin = some b)
    (hok : ∀ error, .refuse error ∉ component.script n i e) {inst : Nat × List Word}
    (hinst : inst ∈ e.inputs.listed b) :
    inst.1 < n / component.height ∧ ∃ segment last, i.segments.builtin b = some segment ∧
      lastPushed (e.inputs.listed b) inst.1 = some last ∧
      component.Accesses b segment.start inst.1 last (component.script n i e) := by
  cases component with
  | cpu | memory | rangeCheck16 | dilutedCheck => cases hbuiltin
  | output =>
    obtain rfl := Option.some.inj hbuiltin
    cases hinst
  | pedersen cells | rangeCheck cells | ecdsa cells | bitwise cells | ecOp cells =>
    obtain rfl := Option.some.inj hbuiltin
    exact accesses_of_builtinScript hok (fun _ _ _ => cells.accesses_of_placed) hinst

end Component

/-! ## Traces -/

namespace Layout

variable {c : LayoutConfig} {n modulus : Nat} {params : Option Pedersen.Params} {l : Layout}
  {e : Execution} {i : PublicInput} {columns : List (Array Felt)} {component : Component}
  {b : Builtin}

/-- A trace holds the addresses of each instance that is listed, and the operands of the last one
with its index. -/
theorem holdsOperands_last (h : build c n params modulus = .ok l)
    (htrace : mainTrace l e i = .ok columns) (hmem : component ∈ l.components)
    (hbuiltin : component.builtin = some b) {inst : Nat × List Word}
    (hinst : inst ∈ e.inputs.listed b) :
    inst.1 < n / component.height ∧
      (∃ segment, i.segments.builtin b = some segment ∧
        component.addressCells columns inst.1 = (b.addresses segment.start inst.1).map .ofNat) ∧
      ∃ last, lastPushed (e.inputs.listed b) inst.1 = some last ∧
        component.HoldsOperands columns (inst.1, last) := by
  obtain ⟨-, -, harranged⟩ := isArranged_of_build h
  obtain ⟨-, hlength, -⟩ := build_eq_ok h
  have hrun := htrace
  simp only [mainTrace, foldlM_writeAll_script, Result.throw_bind, Result.ite_error_eq_ok_iff,
    Result.bind_eq_ok_iff] at hrun
  obtain ⟨hsteps, f, hf, -⟩ := hrun
  have hsubset : component.script n i e ⊆ l.script i e :=
    fun write hwrite => List.mem_flatMap.mpr ⟨component, hmem, hlength ▸ hwrite⟩
  have hheld := (areHeld_of_mainTrace h (not_not.mp hsteps) htrace).mono hsubset
  obtain ⟨hlt, segment, last, hsegment, hlast, haccesses⟩ := Component.accesses_of_listed hbuiltin
    (fun error hrefuse => Filling.refuse_notMem_of_writeAll hf error (hsubset hrefuse)) hinst
  obtain ⟨haddresses, hholds⟩ :=
    haccesses.cells_of_areHeld (harranged component hmem) hbuiltin hheld
  exact ⟨hlt, ⟨segment, hsegment, haddresses⟩, last, hlast, hholds⟩

/-- Instances with one index have the same cells. -/
theorem map_ofNat_eq_of_holdsOperands {k : Nat} {words words' : List Word}
    (h : component.HoldsOperands columns (k, words))
    (h' : component.HoldsOperands columns (k, words')) (hlength : words.length = words'.length) :
    (words.map .ofNat : List Felt) = words'.map .ofNat := by
  have hlengths : (words.map .ofNat : List Felt).length = (words'.map .ofNat : List Felt).length :=
    by rw [List.length_map, List.length_map, hlength]
  exact (List.prefix_of_prefix_length_le h h' hlengths.le).eq_of_length hlengths

/-- In a trace, the indices of all instances that are listed for a builtin are in range, and the
cells of each are at the addresses of its index. They hold the operands of an instance if and only
if these are, as field elements, those of the last instance with its index; and so those of all
instances if and only if instances with one index agree. -/
theorem holdsOperands_iff (h : build c n params modulus = .ok l)
    (htrace : mainTrace l e i = .ok columns) (hhas : c.has b = true) :
    (∃ component ∈ l.components, component.builtin = some b) ∧
      ∀ component ∈ l.components, component.builtin = some b →
        (∀ inst ∈ e.inputs.listed b, inst.1 < n / component.height ∧
          (∃ segment, i.segments.builtin b = some segment ∧ component.addressCells columns inst.1 =
            (b.addresses segment.start inst.1).map .ofNat) ∧
          ∃ last, lastPushed (e.inputs.listed b) inst.1 = some last ∧
            (component.HoldsOperands columns inst ↔
              (inst.2.map .ofNat : List Felt) = last.map .ofNat)) ∧
        ((∀ inst ∈ e.inputs.listed b, component.HoldsOperands columns inst) ↔
          ∀ inst ∈ e.inputs.listed b, ∀ other ∈ e.inputs.listed b, inst.1 = other.1 →
            (inst.2.map .ofNat : List Felt) = other.2.map .ofNat) := by
  refine ⟨exists_component_of_build h hhas, fun component hmem hbuiltin => ⟨?each, ?all⟩⟩
  case each =>
    intro inst hinst
    obtain ⟨hlt, haddresses, last, hlast, hholds⟩ :=
      holdsOperands_last h htrace hmem hbuiltin hinst
    refine ⟨hlt, haddresses, last, hlast, fun hown => ?_, fun heq => ?_⟩
    · exact map_ofNat_eq_of_holdsOperands hown hholds
        (PrivateInput.length_eq_of_mem_listed hinst (Pool.mem_of_lastPushed hlast))
    · rwa [Component.HoldsOperands, heq]
  case all =>
    constructor
    · intro hall inst hinst other hother hindex
      have hown := hall inst hinst
      rw [← Prod.eta inst, hindex] at hown
      exact map_ofNat_eq_of_holdsOperands hown (hall other hother)
        (PrivateInput.length_eq_of_mem_listed hinst hother)
    · intro hagree inst hinst
      obtain ⟨-, -, last, hlast, hholds⟩ := holdsOperands_last h htrace hmem hbuiltin hinst
      rwa [Component.HoldsOperands, hagree inst hinst _ (Pool.mem_of_lastPushed hlast) rfl]

/-- A layout with a range check of words of one part. -/
def checkedConfig : LayoutConfig where
  name := "checked"
  rangeCheck := some ⟨1, 1⟩

/-- A program of one jump, with two words to check that have the same index. -/
def twiceExecution : Execution where
  inputs := {
    registersPath := "registers", memoryPath := "memory", rangeCheck := [⟨0, 32765⟩, ⟨0, 32767⟩] }
  registers := gapExecution.registers
  memory := gapExecution.memory

def twiceInput : PublicInput where
  rangeCheckMin := 32765
  rangeCheckMax := 32769
  steps := 1
  layout := "checked"
  segments := ⟨⟨1, 3⟩, ⟨10, 11⟩, fun b => if b = .rangeCheck then some ⟨5, 6⟩ else none⟩
  memory := [⟨1, .ofNat jumpWord⟩]

/-- What is written of the two words. -/
def twiceWrites : List Write := [.memory 6 5 (.ofNat 32767), .rangeCheck 1 32767]

theorem script_twice : (Component.rangeCheck ⟨1, ⟨3, 16, 6⟩, ⟨0, 16, 1⟩⟩).script 16 twiceInput
    twiceExecution = twiceWrites := rfl

theorem agrees_twiceWrites : ∀ w ∈ twiceWrites, w.Agrees twiceExecution.memory := by
  have hfree : twiceExecution.memory.get? 5 = none := by
    simp [twiceExecution, gapExecution, Memory.ofList, Memory.get?_insert]
  simp [twiceWrites, Write.Agrees, Filling.contradicts, hfree]

theorem exists_mainTrace_twice : ∃ l columns, build checkedConfig 16 none = .ok l ∧
    mainTrace l twiceExecution twiceInput = .ok columns := by
  obtain ⟨l, hl, hlength, hsteps, hcomponents⟩ : ∃ l, build checkedConfig 16 none = .ok l ∧
      l.traceLength = 16 ∧ twiceExecution.registers.length = l.steps ∧
      l.components = [.cpu, .memory 7, .rangeCheck16 6,
        .rangeCheck ⟨1, ⟨3, 16, 6⟩, ⟨0, 16, 1⟩⟩] := ⟨_, rfl, rfl, rfl, rfl⟩
  have hscript : l.script twiceInput twiceExecution = gapStep.writes 0 ++ twiceWrites := by
    have hsteps : twiceExecution.registers.mapM (Cpu.Step.ofRegisters twiceExecution.memory) =
        .ok [gapStep] := ofRegisters_gapExecution
    rw [script, hcomponents, hlength]
    simp only [List.flatMap_cons, script_twice]
    simp only [Component.script, Cpu.writes, hsteps]
    rfl
  obtain ⟨columns, hcolumns⟩ : ∃ columns, mainTrace l twiceExecution twiceInput = .ok columns := by
    refine exists_mainTrace hsteps (by rw [hcomponents]; rfl) ?agrees ?fits rfl ?ranges
    case agrees =>
      rw [hscript]
      exact List.forall_mem_append.mpr ⟨agrees_gapStep, agrees_twiceWrites⟩
    case fits =>
      rw [hscript, hlength]
      refine ⟨?_, ?_, ?_⟩ <;> decide
    case ranges =>
      rw [hscript, hlength, RangeCheckPool.exists_finish_eq_ok_iff]
      decide
  exact ⟨l, columns, hl, hcolumns⟩

/-- Only the second word is in the trace. -/
theorem holdsOperands_iff_twice : ∃ l columns, build checkedConfig 16 none = .ok l ∧
    mainTrace l twiceExecution twiceInput = .ok columns ∧
    checkedConfig.has .rangeCheck = true ∧
    ∃ component ∈ l.components, component.builtin = some .rangeCheck ∧
      component.HoldsOperands columns (0, [32767]) ∧
      ¬ ∀ inst ∈ twiceExecution.inputs.listed .rangeCheck, component.HoldsOperands columns inst := by
  obtain ⟨l, columns, hl, htrace⟩ := exists_mainTrace_twice
  have hhas : checkedConfig.has .rangeCheck = true := rfl
  obtain ⟨⟨component, hmem, hbuiltin⟩, hall⟩ := holdsOperands_iff hl htrace hhas
  obtain ⟨heach, hagree⟩ := hall component hmem hbuiltin
  refine ⟨l, columns, hl, htrace, hhas, component, hmem, hbuiltin, ?_, ?_⟩
  · obtain ⟨-, -, last, hlast, hholds⟩ := heach (0, [32767]) (by decide)
    obtain rfl : [32767] = last := Option.some.inj hlast
    exact hholds.mpr rfl
  · rw [hagree]
    decide

/-- An index that is listed twice has a place for one of its instances only. -/
theorem exists_not_holdsOperands : ∃ l columns component, build checkedConfig 16 none = .ok l ∧
    mainTrace l twiceExecution twiceInput = .ok columns ∧ component ∈ l.components ∧
    component.builtin = some .rangeCheck ∧
    (0, [32765]) ∈ twiceExecution.inputs.listed .rangeCheck ∧
    ¬ component.HoldsOperands columns (0, [32765]) := by
  obtain ⟨l, columns, hl, htrace⟩ := exists_mainTrace_twice
  obtain ⟨component, hmem, hbuiltin⟩ := exists_component_of_build hl (b := .rangeCheck) rfl
  have hlisted : (0, [32765]) ∈ twiceExecution.inputs.listed .rangeCheck := by decide
  refine ⟨l, columns, component, hl, htrace, hmem, hbuiltin, hlisted, fun hholds => ?_⟩
  obtain ⟨-, -, last, hlast, hlastHolds⟩ := holdsOperands_last hl htrace hmem hbuiltin hlisted
  obtain rfl : [32767] = last := Option.some.inj hlast
  have heq := map_ofNat_eq_of_holdsOperands hholds hlastHolds rfl
  revert heq
  decide

end Layout

end CairoTrace
