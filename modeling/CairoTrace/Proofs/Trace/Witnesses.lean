import CairoTrace.Component.EcOpCells
import CairoTrace.Component.EcdsaCells
import CairoTrace.Component.PedersenCells
import CairoTrace.Proofs.Result

/-!
# Witnesses of places

Hashes, signatures and multiples need a witness for each place, and all witnesses are computed before
the first write (`Write.ofWitnesses`). So what is written for each place is part of the script if all
places have witnesses (`Write.exists_subset_ofWitnesses`), as they have if the script refuses nothing
(`Write.exists_witness_of_refuse_notMem`). A place without an instance has the witness of the dummy
instance, with its own index.
-/

namespace CairoTrace

namespace Write

variable {α β : Type}

/-- What is written for the witnesses of all places, or the refusal of a place that has none. -/
def ofWitnesses (witness : α × Nat → Except BuiltinError β) (writes : Nat → β → List Write)
    (places : List α) : List Write :=
  match places.zipIdx.mapM witness with
  | .error e => [.refuse (.builtin e)]
  | .ok witnesses => witnesses.zipIdx.flatMap fun (w, i) => writes i w

variable {witness : α × Nat → Except BuiltinError β} {writes : Nat → β → List Write}
  {places : List α}

theorem ofWitnesses_of_mapM_eq_error {e : BuiltinError}
    (h : places.zipIdx.mapM witness = .error e) :
    ofWitnesses witness writes places = [.refuse (.builtin e)] := by
  rw [ofWitnesses, h]

theorem ofWitnesses_of_mapM_eq_ok {witnesses : List β}
    (h : places.zipIdx.mapM witness = .ok witnesses) :
    ofWitnesses witness writes places = witnesses.zipIdx.flatMap fun q => writes q.2 q.1 := by
  rw [ofWitnesses, h]

theorem exists_witness_of_refuse_notMem
    (h : ∀ e, .refuse e ∉ ofWitnesses witness writes places) :
    ∀ q ∈ places.zipIdx, ∃ w, witness q = .ok w := by
  rw [← Result.exists_mapM_eq_ok_iff]
  cases hwitnesses : places.zipIdx.mapM witness with
  | error e =>
    rw [ofWitnesses_of_mapM_eq_error hwitnesses] at h
    exact absurd List.mem_cons_self (h (.builtin e))
  | ok witnesses => exact ⟨witnesses, rfl⟩

/-- The witness of a place, and what is written with it. -/
theorem exists_subset_ofWitnesses (writes : Nat → β → List Write)
    (h : ∀ q ∈ places.zipIdx, ∃ w, witness q = .ok w) {k : Nat} {a : α}
    (ha : places[k]? = some a) :
    ∃ w, witness (a, k) = .ok w ∧ writes k w ⊆ ofWitnesses witness writes places := by
  obtain ⟨witnesses, hwitnesses⟩ := Result.exists_mapM_eq_ok_iff.mpr h
  have hplace : places.zipIdx[k]? = some (a, k) := by
    rw [List.getElem?_zipIdx, ha, Option.map_some, Nat.zero_add]
  obtain ⟨w, hw, heq⟩ := Result.exists_getElem?_of_mapM_eq_ok hwitnesses hplace
  refine ⟨w, heq, ?_⟩
  rw [ofWitnesses_of_mapM_eq_ok hwitnesses]
  exact Result.subset_flatMap_zipIdx hw fun q => writes q.2 q.1

end Write

/-! ## Places without an instance -/

section Place

variable {ι β : Type} (ofInstance : ι → Except BuiltinError β) (dummy : Except BuiltinError β)
  (withIndex : β → Nat → β)

/-- The witness of a place. One without an instance has that of the dummy instance, with the index
of the place. -/
def witnessOfPlace (q : Option ι × Nat) : Except BuiltinError β :=
  match q.1 with
  | some inst => ofInstance inst
  | none => do return withIndex (← dummy) q.2

variable {ofInstance dummy withIndex}

theorem exists_witnessOfPlace {instances : List (Option ι)}
    (h : ∀ inst, some inst ∈ instances → ∃ w, ofInstance inst = .ok w)
    (hdummy : ∃ w, dummy = .ok w) :
    ∀ q ∈ instances.zipIdx, ∃ w, witnessOfPlace ofInstance dummy withIndex q = .ok w := by
  rintro ⟨inst?, k⟩ hq
  cases inst? with
  | some inst => exact h inst (List.fst_mem_of_mem_zipIdx hq)
  | none =>
    obtain ⟨w, hw⟩ := hdummy
    exact ⟨withIndex w k, Result.bind_eq_ok_iff.mpr ⟨w, hw, rfl⟩⟩

theorem witnessOfPlace_eq_ok {q : Option ι × Nat} {w : β}
    (h : witnessOfPlace ofInstance dummy withIndex q = .ok w) :
    (∃ inst, ofInstance inst = .ok w) ∨ ∃ v, dummy = .ok v ∧ w = withIndex v q.2 := by
  obtain ⟨inst?, k⟩ := q
  cases inst? with
  | some inst => exact .inl ⟨inst, h⟩
  | none =>
    obtain ⟨v, hv, heq⟩ := Result.bind_eq_ok_iff.mp h
    exact .inr ⟨v, hv, (Except.ok.inj heq).symm⟩

end Place

/-! ## Multiples -/

def EcOp.Witness.withIndex (w : Witness) (i : Nat) : Witness :=
  { w with inst := { w.inst with index := i } }

def EcOp.Witness.ofPlace : Option EcOpInstance × Nat → Except BuiltinError Witness :=
  witnessOfPlace ofInstance (dummy 0) withIndex

theorem EcOpCells.writes_eq_ofWitnesses (c : EcOpCells) (start : Nat)
    (instances : List (Option EcOpInstance)) : c.writes start instances =
      Write.ofWitnesses EcOp.Witness.ofPlace (c.instanceWrites start) instances := by
  unfold writes
  dsimp only
  rw [Result.mapM_congr (g := EcOp.Witness.ofPlace)]
  · split
    · next h => exact (Write.ofWitnesses_of_mapM_eq_error h).symm
    · next h => exact (Write.ofWitnesses_of_mapM_eq_ok h).symm
  · rintro ⟨inst?, k⟩ -
    cases inst? with
    | some inst => rfl
    | none =>
      rw [EcOp.Witness.ofPlace, witnessOfPlace, Thunk.get]
      rfl

/-- The witness of a place is that of an instance, up to its index. -/
theorem EcOp.Witness.ofPlace_eq_ok {q : Option EcOpInstance × Nat} {w : Witness}
    (h : ofPlace q = .ok w) : ∃ inst v i, ofInstance inst = .ok v ∧ w = v.withIndex i := by
  rcases witnessOfPlace_eq_ok h with ⟨inst, hw⟩ | ⟨v, hv, rfl⟩
  · exact ⟨inst, w, w.inst.index, hw, rfl⟩
  · exact ⟨dummyInstance 0, v, q.2, hv, rfl⟩

/-! ## Signatures -/

def Ecdsa.Witness.withIndex (w : Witness) (i : Nat) : Witness :=
  { w with inst := { w.inst with index := i } }

def Ecdsa.Witness.ofPlace : Option EcdsaInstance × Nat → Except BuiltinError Witness :=
  witnessOfPlace ofInstance (dummy 0) withIndex

theorem EcdsaCells.writes_eq_ofWitnesses (c : EcdsaCells) (start : Nat)
    (instances : List (Option EcdsaInstance)) : c.writes start instances =
      Write.ofWitnesses Ecdsa.Witness.ofPlace (c.instanceWrites start) instances := by
  unfold writes
  dsimp only
  rw [Result.mapM_congr (g := Ecdsa.Witness.ofPlace)]
  · split
    · next h => exact (Write.ofWitnesses_of_mapM_eq_error h).symm
    · next h => exact (Write.ofWitnesses_of_mapM_eq_ok h).symm
  · rintro ⟨inst?, k⟩ -
    cases inst? with
    | some inst => rfl
    | none =>
      rw [Ecdsa.Witness.ofPlace, witnessOfPlace, Thunk.get]
      rfl

/-- The witness of a place is that of an instance, up to its index. -/
theorem Ecdsa.Witness.ofPlace_eq_ok {q : Option EcdsaInstance × Nat} {w : Witness}
    (h : ofPlace q = .ok w) : ∃ inst v i, ofInstance inst = .ok v ∧ w = v.withIndex i := by
  rcases witnessOfPlace_eq_ok h with ⟨inst, hw⟩ | ⟨v, hv, rfl⟩
  · exact ⟨inst, w, w.inst.index, hw, rfl⟩
  · obtain ⟨inst, -, hv⟩ := Result.bind_eq_ok_iff.mp hv
    exact ⟨inst, v, q.2, hv, rfl⟩

/-! ## Hashes -/

/-- The witness of a place; one without an instance hashes zeros. -/
def Pedersen.Witness.ofPlace (params : Params) (q : Option PedersenInstance × Nat) :
    Except BuiltinError Witness :=
  ofInstance params (q.1.getD ⟨q.2, 0, 0⟩)

theorem PedersenCells.writes_eq_ofWitnesses (c : PedersenCells) (start : Nat)
    (instances : List (Option PedersenInstance)) : c.writes start instances =
      Write.ofWitnesses (Pedersen.Witness.ofPlace c.params) (c.instanceWrites start) instances := by
  unfold writes
  dsimp only
  split
  · next h => exact (Write.ofWitnesses_of_mapM_eq_error h).symm
  · next h => exact (Write.ofWitnesses_of_mapM_eq_ok h).symm

end CairoTrace
