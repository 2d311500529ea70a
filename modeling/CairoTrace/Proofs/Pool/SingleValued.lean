import CairoTrace.Proofs.Pool.MemoryPool

/-!
# Memory with one value at each address

What a pool has recorded without a refusal is single-valued. More entries are refused exactly if
they are not single-valued together with those that it has (`MemoryPool.Records.recordAll_iff`),
whether they are those of the public memory or of accesses (`MemoryPool.exists_pushAll_iff`).
-/

namespace CairoTrace

namespace MemoryPool

/-- Whether no two entries have different values at one address. -/
def SingleValued (entries : List MemoryEntry) : Prop :=
  ∀ e ∈ entries, ∀ e' ∈ entries, e.address = e'.address → e.value = e'.value

instance (entries : List MemoryEntry) : Decidable (SingleValued entries) :=
  inferInstanceAs (Decidable (∀ e ∈ entries, ∀ e' ∈ entries, e.address = e'.address →
    e.value = e'.value))

variable {p : MemoryPool} {entries more : List MemoryEntry} {e : MemoryEntry}

theorem SingleValued.of_append (h : SingleValued (entries ++ more)) : SingleValued entries :=
  fun e he e' he' => h e (List.mem_append_left _ he) e' (List.mem_append_left _ he')

namespace Records

theorem singleValued (h : p.Records entries) : SingleValued entries := by
  intro e he e' he' haddress
  have hvalue := (h.values_iff e.address e.value).mpr he
  rw [haddress, (h.values_iff e'.address e'.value).mpr he'] at hvalue
  exact (Option.some.inj hvalue).symm

/-- An entry is recorded unless it makes the memory ambiguous. -/
theorem record_iff (h : p.Records entries) :
    (∃ p', p.record e = (p', .ok ())) ↔ SingleValued (entries ++ [e]) := by
  constructor
  · rintro ⟨p', hok⟩
    exact (h.record hok).singleValued
  · intro hsingle
    refine ⟨_, record_eq_ok_iff.mpr ⟨fun value hvalue => ?_, rfl⟩⟩
    have hmem := (h.values_iff e.address value).mp hvalue
    exact hsingle _ (List.mem_append_left _ hmem) e
      (List.mem_append_right _ (List.mem_singleton_self e)) rfl

theorem recordAll_iff (h : p.Records entries) :
    (∃ p', p.recordAll more = (p', .ok ())) ↔ SingleValued (entries ++ more) := by
  induction more generalizing p entries with
  | nil =>
    rw [List.append_nil]
    exact iff_of_true ⟨p, rfl⟩ h.singleValued
  | cons e more ih =>
    rw [List.append_cons]
    cases hrecord : p.record e with
    | mk q result =>
      rw [MemoryPool.recordAll, hrecord]
      cases result with
      | ok => exact ih (h.record hrecord)
      | error =>
        have hrefused : ¬ SingleValued (entries ++ [e]) := by
          rw [← h.record_iff, hrecord]
          rintro ⟨p', hok⟩
          cases hok
        refine iff_of_false ?_ fun hsingle => hrefused hsingle.of_append
        rintro ⟨p', hok⟩
        cases hok

theorem pushAll_iff (h : p.Records entries) {pushes : List (Nat × MemoryEntry)} :
    (∃ p', p.pushAll pushes = .ok p') ↔ SingleValued (entries ++ pushes.map (·.2)) := by
  induction pushes generalizing p entries with
  | nil =>
    rw [List.map_nil, List.append_nil]
    exact iff_of_true ⟨p, rfl⟩ h.singleValued
  | cons q pushes ih =>
    rw [List.map_cons, List.append_cons]
    cases hpush : p.push q.1 q.2 with
    | mk r result =>
      rw [MemoryPool.pushAll, List.foldlM_cons, hpush]
      cases result with
      | ok => exact ih (h.push hpush).1
      | error =>
        have hrefused : ¬ SingleValued (entries ++ [q.2]) := by
          rw [← h.record_iff]
          rintro ⟨p', hok⟩
          rw [MemoryPool.push, hok] at hpush
          cases hpush
        refine iff_of_false ?_ fun hsingle => hrefused hsingle.of_append
        rintro ⟨p', hok⟩
        cases hok

end Records

/-- Accesses that are single-valued can be pushed, wherever they are. -/
theorem exists_pushAll_iff {positions publicStep publicOffset : Nat}
    {pushes : List (Nat × MemoryEntry)} :
    (∃ p, (ofSize positions publicStep publicOffset).pushAll pushes = .ok p) ↔
      SingleValued (pushes.map (·.2)) :=
  (records_ofSize _ _ _).pushAll_iff

end MemoryPool

end CairoTrace
