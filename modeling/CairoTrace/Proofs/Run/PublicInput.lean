import CairoTrace.Proofs.Json.Reader
import CairoTrace.Run.PublicInput

/-!
# Public inputs are read back

A public input whose numbers are in range is read from the text that it is written as
(`PublicInput.ofJson_toJson`). The members of its records are read in the order in which they are
written, which for the entries of memory is not the declared one, and the segments of builtins
that the program does not use are left out.
-/

namespace CairoTrace

open Json (Reads ReadsMembers)

/-! ## Segments -/

theorem reads_address {n : Nat} (h : n < 2 ^ 32) :
    Reads (Json.nat (1 <<< 32)) (Json.writeNat n) n :=
  .nat (by rwa [Nat.one_shiftLeft]) (h.trans (by norm_num))

/-- Addresses are numbers of four bytes. -/
structure Segment.InRange (s : Segment) : Prop where
  start_lt : s.start < 2 ^ 32
  stop_lt : s.stop < 2 ^ 32

theorem Segment.reads_write {s : Segment} (h : s.InRange) : Reads Segment.read s.write s := by
  refine .record (s := [("stop_ptr", s.stop), ("begin_addr", s.start)]) ?_ rfl
  exact .put rfl rfl (reads_address h.start_lt) (.put rfl rfl (reads_address h.stop_lt) (.done _))

namespace MemorySegments

structure InRange (s : MemorySegments) : Prop where
  program : s.program.InRange
  execution : s.execution.InRange
  builtin : ∀ b x, s.builtin b = some x → x.InRange

theorem find?_builtin (b : Builtin) : members.find? (·.name == b.name) =
    some (.optional b.name (·.builtin b) (Json.option Segment.read) fun s x =>
      { s with builtin := fun b' => if b' = b then some x else s.builtin b' }) := by
  cases b <;> rfl

/-- What has been read after the builtins of a list. -/
def Partial.withBuiltins (read : Partial) (s : MemorySegments) (builtins : List Builtin) :
    Partial :=
  { read with builtin := fun b =>
      if b ∈ builtins ∧ (s.builtin b).isSome then some (s.builtin b) else read.builtin b }

theorem Partial.withBuiltins_nil (read : Partial) (s : MemorySegments) :
    read.withBuiltins s [] = read := by
  simp [Partial.withBuiltins]

theorem Partial.withBuiltins_cons_none {read : Partial} {s : MemorySegments} {b : Builtin}
    (builtins : List Builtin) (h : s.builtin b = none) :
    read.withBuiltins s (b :: builtins) = read.withBuiltins s builtins := by
  unfold Partial.withBuiltins
  congr
  funext b'
  by_cases hb : b' = b
  · subst hb
    simp [h]
  · simp [hb]

theorem Partial.withBuiltins_cons_some {read : Partial} {s : MemorySegments} {b : Builtin}
    {x : Segment} (builtins : List Builtin) (h : s.builtin b = some x) :
    read.withBuiltins s (b :: builtins) =
      ({ read with
        builtin := fun b' => if b' = b then some (some x) else read.builtin b' } :
          Partial).withBuiltins s builtins := by
  unfold Partial.withBuiltins
  congr
  funext b'
  by_cases hb : b' = b
  · subst hb
    simp [h]
  · simp [hb]

/-- The segments of builtins are read one after the other, where none has been read yet. -/
theorem readsMembers_builtins {s : MemorySegments} (h : s.InRange) (builtins : List Builtin)
    (hnodup : builtins.Nodup) (read : Partial) (hnone : ∀ b ∈ builtins, read.builtin b = none) :
    ReadsMembers members (builtins.map fun b => (b.name, (s.builtin b).map (·.write))) read
      (read.withBuiltins s builtins) := by
  induction builtins generalizing read with
  | nil =>
    rw [Partial.withBuiltins_nil]
    exact .done read
  | cons b builtins ih =>
    obtain ⟨hb, hnodup⟩ := List.nodup_cons.mp hnodup
    obtain ⟨hnone_b, hnone⟩ := List.forall_mem_cons.mp hnone
    rw [List.map_cons]
    cases hx : s.builtin b with
    | none =>
      rw [Partial.withBuiltins_cons_none builtins hx]
      exact .absent b.name (ih hnodup read hnone)
    | some x =>
      rw [Partial.withBuiltins_cons_some builtins hx]
      refine .put (find?_builtin b) hnone_b (Segment.reads_write (h.builtin b x hx)).option
        (ih hnodup _ fun b' hb' => ?_)
      exact (if_neg (ne_of_mem_of_not_mem hb' hb)).trans (hnone b' hb')

theorem reads_write {s : MemorySegments} (h : s.InRange) : Reads MemorySegments.read s.write s := by
  have hbuiltins := readsMembers_builtins h Builtin.all (by decide)
    ⟨s.program, s.execution, fun _ => none⟩ fun _ _ => rfl
  refine .record (.put rfl rfl (Segment.reads_write h.program)
    (.put rfl rfl (Segment.reads_write h.execution) hbuiltins)) ?_
  have hjoin (b : Builtin) : (if b ∈ Builtin.all ∧ (s.builtin b).isSome then some (s.builtin b)
      else none).join = s.builtin b := by
    cases hx : s.builtin b <;> simp [Builtin.mem_all]
  simp [Partial.withBuiltins, hjoin]

end MemorySegments

/-! ## Entries of memory -/

namespace MemoryEntry

theorem reads_write {e : MemoryEntry} (h : e.address < 2 ^ 32) :
    Reads readWord e.write (e.address, e.value.val) := by
  have hlarge : starkPrime < 2 ^ 256 := by decide
  refine .record (s := [("value", e.value.val), ("address", e.address)]) ?_ rfl
  exact .put rfl rfl (reads_address h)
    (.put rfl rfl (.numeral (e.value.isLt.trans hlarge)) (.done _))

theorem reads_writeList {entries : List MemoryEntry} (h : ∀ e ∈ entries, e.address < 2 ^ 32) :
    Reads readList (Json.writeList (entries.map (·.write))) entries := by
  have hwords : List.Forall₂ (Reads readWord) (entries.map (·.write))
      (entries.map fun e => (e.address, e.value.val)) := by
    rw [List.forall₂_map_left_iff, List.forall₂_map_right_iff, List.forall₂_same]
    exact fun e he => reads_write (h e he)
  refine (Reads.list hwords).bind fun rest => ?_
  have hvalue (e : MemoryEntry) : Residue.ofCanonical? e.value.val = some e.value :=
    Residue.ofCanonical?_eq_some_iff.mpr rfl
  clear h hwords
  induction entries with
  | nil => rfl
  | cons e entries ih =>
    rw [List.map_cons, List.mapM_cons]
    simp only [hvalue, pure_bind]
    rw [Json.bind_apply ih]
    rfl

end MemoryEntry

/-! ## Public inputs -/

namespace PublicInput

/-- The bounds of range checked offsets are numbers of two bytes, and the steps are counted by one
of eight. -/
structure InRange (i : PublicInput) : Prop where
  rangeCheckMin_lt : i.rangeCheckMin < 2 ^ 16
  rangeCheckMax_lt : i.rangeCheckMax < 2 ^ 16
  steps_lt : i.steps < 2 ^ 64
  segments : i.segments.InRange
  memory : ∀ e ∈ i.memory, e.address < 2 ^ 32

theorem readsMembers_write {i : PublicInput} (h : i.InRange) :
    ReadsMembers members [
      ("rc_min", some (Json.writeNat i.rangeCheckMin)),
      ("rc_max", some (Json.writeNat i.rangeCheckMax)),
      ("n_steps", some (Json.writeNat i.steps)),
      ("layout", some (Json.writeString i.layout)),
      ("memory_segments", some i.segments.write),
      ("public_memory", some (Json.writeList (i.memory.map (·.write))))]
      {} ⟨i.rangeCheckMin, i.rangeCheckMax, i.steps, i.layout, i.segments, i.memory⟩ := by
  have hoffset {n : Nat} (hn : n < 2 ^ 16) : Reads (Json.nat (1 <<< 16)) (Json.writeNat n) n :=
    .nat (by rwa [Nat.one_shiftLeft]) (hn.trans (by norm_num))
  have hsteps : Reads (Json.nat (1 <<< 64)) (Json.writeNat i.steps) i.steps :=
    .nat (by rw [Nat.one_shiftLeft]; exact h.steps_lt) h.steps_lt
  refine .put rfl rfl (hoffset h.rangeCheckMin_lt) ?_
  refine .put rfl rfl (hoffset h.rangeCheckMax_lt) ?_
  refine .put rfl rfl hsteps ?_
  refine .put rfl rfl (.string i.layout) ?_
  refine .put rfl rfl (MemorySegments.reads_write h.segments) ?_
  exact .put rfl rfl (MemoryEntry.reads_writeList h.memory) (.done _)

/-- A public input is read from the text that it is written as. -/
theorem ofJson_toJson (i : PublicInput) (h : i.InRange) : ofJson i.toJson = .ok i := by
  have hreads : Reads read _ i := .record (readsMembers_write h) rfl
  rw [ofJson, toJson, Json.parse_eq_ok hreads]
  rfl

/-- A public input at the limits of its numbers, with a layout that has to be escaped, segments of
two builtins and an address that has two values. -/
def limits : PublicInput where
  rangeCheckMin := 2 ^ 16 - 1
  rangeCheckMax := 0
  steps := 2 ^ 64 - 1
  layout := "a\"b\\c\n\x01é/😀"
  segments :=
    { program := ⟨2 ^ 32 - 1, 0⟩
      execution := ⟨0, 2 ^ 32 - 1⟩
      builtin := fun b =>
        if b = .output then some ⟨2 ^ 32 - 1, 2 ^ 32 - 1⟩
        else if b = .poseidon then some ⟨0, 0⟩ else none }
  memory := [⟨1, -1⟩, ⟨1, 0⟩, ⟨2 ^ 32 - 1, .ofNat 16⟩]

theorem inRange_limits : limits.InRange where
  rangeCheckMin_lt := by decide
  rangeCheckMax_lt := by decide
  steps_lt := by decide
  segments :=
    { program := ⟨by decide, by decide⟩
      execution := ⟨by decide, by decide⟩
      builtin := by
        intro b x hx
        cases b <;> cases hx <;> exact ⟨by decide, by decide⟩ }
  memory := by decide

theorem ofJson_toJson_limits : limits.InRange ∧ ofJson limits.toJson = .ok limits :=
  ⟨inRange_limits, ofJson_toJson limits inRange_limits⟩

end PublicInput

end CairoTrace
