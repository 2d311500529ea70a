import CairoTrace.Proofs.Pool.SingleValued
import CairoTrace.Proofs.StarkField

/-!
# Accesses that are refused

An access that is refused is not stored, but its value is recorded. What is refused next at its
address is what differs from it (`MemoryPool.values_pushEach`). A pool keeps to the first value of
an address, and is single-valued there, as long as none of the accesses at the address is refused
(`MemoryPool.push_eq_error_iff_and_singleValued`). From then on it may store a second one
(`MemoryPool.recorded_refusal`).
-/

namespace CairoTrace

open Pool

namespace MemoryPool

variable {p : MemoryPool} {pushes : List (Nat × MemoryEntry)} {q : Nat × MemoryEntry}
  {e : MemoryEntry} {address position : Nat}

/-! ## Runs that go on after a refusal -/

/-- A pool after a number of accesses, some of which may have been refused. -/
def pushEach (p : MemoryPool) (pushes : List (Nat × MemoryEntry)) : MemoryPool :=
  pushes.foldl (fun p q => (p.push q.1 q.2).1) p

/-- The accesses of a run, each with its result. -/
def outcomes (p : MemoryPool) :
    List (Nat × MemoryEntry) → List ((Nat × MemoryEntry) × Except LayoutError Unit)
  | [] => []
  | q :: pushes => (q, (p.push q.1 q.2).2) :: outcomes (p.push q.1 q.2).1 pushes

/-- The entries that a pool has stored, at any position. -/
def Stores (p : MemoryPool) (e : MemoryEntry) : Prop := some e ∈ p.accesses.toList

/-- An access of the run was accepted that has another value at the address of an entry. -/
def AcceptedOther (p : MemoryPool) (pushes : List (Nat × MemoryEntry)) (e : MemoryEntry) : Prop :=
  ∃ q, (q, .ok ()) ∈ p.outcomes pushes ∧ q.2.address = e.address ∧ q.2.value ≠ e.value

/-- An access of the run was refused at an address. -/
def RefusedAt (p : MemoryPool) (pushes : List (Nat × MemoryEntry)) (address : Nat) : Prop :=
  ∃ q error, (q, .error error) ∈ p.outcomes pushes ∧ q.2.address = address

theorem pushEach_append_singleton :
    p.pushEach (pushes ++ [q]) = ((p.pushEach pushes).push q.1 q.2).1 := by
  rw [pushEach, List.foldl_append]
  rfl

theorem outcomes_append_singleton :
    p.outcomes (pushes ++ [q]) =
      p.outcomes pushes ++ [(q, ((p.pushEach pushes).push q.1 q.2).2)] := by
  induction pushes generalizing p with
  | nil => rfl
  | cons r pushes ih => exact congrArg (_ :: ·) ih

theorem map_fst_outcomes (p : MemoryPool) (pushes : List (Nat × MemoryEntry)) :
    (p.outcomes pushes).map (·.1) = pushes := by
  induction pushes generalizing p with
  | nil => rfl
  | cons q pushes ih => exact congrArg (q :: ·) (ih _)

/-! ## One access -/

/-- The value is recorded in any case, and the access is stored if it is not refused. -/
theorem push_eq :
    p.push position e =
      if ∃ value, p.values[e.address]? = some value ∧ value ≠ e.value then
        ({ p with
          values := p.values.insert e.address e.value
          maxAddress := max p.maxAddress e.address }, .error (.memoryMismatch e.address))
      else
        ({ p with
          accesses := p.accesses.setIfInBounds position (some e)
          values := p.values.insert e.address e.value
          maxAddress := max p.maxAddress e.address }, .ok ()) := by
  unfold push record
  cases p.values[e.address]? with
  | none => simp
  | some value =>
    by_cases hvalue : value = e.value
    · simp [hvalue]
    · simp [hvalue]

theorem push_fst_values :
    (p.push position e).1.values = p.values.insert e.address e.value := by
  rw [push_eq]
  split <;> rfl

theorem push_eq_error_iff : (p.push position e).2 = .error (.memoryMismatch e.address) ↔
    ∃ value, p.values[e.address]? = some value ∧ value ≠ e.value := by
  rw [push_eq]
  split
  · next hother => exact iff_of_true rfl hother
  · next hsame => exact iff_of_false nofun hsame

/-- Only an access that is accepted is stored. -/
theorem Stores.of_push {stored : MemoryEntry} (h : (p.push position e).1.Stores stored) :
    p.Stores stored ∨ stored = e ∧ (p.push position e).2 = .ok () := by
  rw [push_eq] at h ⊢
  split at h
  · exact Or.inl h
  · next hsame =>
    rw [if_neg hsame]
    rw [Stores, Array.toList_setIfInBounds] at h
    rcases List.mem_or_eq_of_mem_set h with hold | hnew
    · exact Or.inl hold
    · exact Or.inr ⟨Option.some.inj hnew, rfl⟩

/-! ## Whole runs -/

section Runs

variable {positions publicStep publicOffset : Nat}

/-- What is recorded of an address is its last value, whether or not it was refused. -/
theorem values_pushEach :
    ((ofSize positions publicStep publicOffset).pushEach pushes).values[address]? =
      lastPushed (pushes.map fun q => (q.2.address, q.2.value)) address := by
  induction pushes using List.reverseRecOn with
  | nil => simp [pushEach, ofSize, lastPushed]
  | append_singleton pushes q ih =>
    rw [pushEach_append_singleton, push_fst_values, Std.HashMap.getElem?_insert, ih,
      List.map_append, List.map_singleton, lastPushed_append_singleton]
    simp only [beq_iff_eq]

/-- What is stored was accepted. -/
theorem Stores.mem_outcomes
    (h : ((ofSize positions publicStep publicOffset).pushEach pushes).Stores e) :
    ∃ position, ((position, e), .ok ()) ∈
      (ofSize positions publicStep publicOffset).outcomes pushes := by
  induction pushes using List.reverseRecOn with
  | nil =>
    rw [Stores, pushEach, List.foldl_nil, ofSize, Array.toList_replicate] at h
    cases List.eq_of_mem_replicate h
  | append_singleton pushes q ih =>
    rw [pushEach_append_singleton] at h
    rw [outcomes_append_singleton]
    rcases h.of_push with hold | ⟨rfl, hok⟩
    · obtain ⟨position, hposition⟩ := ih hold
      exact ⟨position, List.mem_append_left _ hposition⟩
    · refine ⟨q.1, List.mem_append_right _ ?_⟩
      rw [hok]
      exact List.mem_singleton_self _

/-- As long as no access is refused at an address, all of them have the value that is recorded. -/
theorem value_eq_of_not_refusedAt
    (h : ¬ (ofSize positions publicStep publicOffset).RefusedAt pushes address)
    (hq : q ∈ pushes) (haddress : q.2.address = address) :
    lastPushed (pushes.map fun q => (q.2.address, q.2.value)) address = some q.2.value := by
  induction pushes using List.reverseRecOn with
  | nil => cases hq
  | append_singleton pushes r ih =>
    have hbefore : ¬ (ofSize positions publicStep publicOffset).RefusedAt pushes address := by
      rintro ⟨s, error, hs, hsaddress⟩
      refine h ⟨s, error, ?_, hsaddress⟩
      rw [outcomes_append_singleton]
      exact List.mem_append_left _ hs
    rw [List.map_append, List.map_singleton, lastPushed_append_singleton]
    by_cases hr : r.2.address = address
    · rw [if_pos hr]
      have haccepted : ¬ ∃ value, lastPushed (pushes.map fun q => (q.2.address, q.2.value))
          address = some value ∧ value ≠ r.2.value := by
        rintro ⟨value, hlast, hne⟩
        have herror :
            (((ofSize positions publicStep publicOffset).pushEach pushes).push r.1 r.2).2 =
              .error (.memoryMismatch r.2.address) :=
          push_eq_error_iff.mpr ⟨value, values_pushEach.trans (hr ▸ hlast), hne⟩
        refine h ⟨r, .memoryMismatch r.2.address, ?_, hr⟩
        rw [outcomes_append_singleton, herror]
        exact List.mem_append_right _ (List.mem_singleton_self _)
      rcases List.mem_append.mp hq with hq | hq
      · by_contra hne
        exact haccepted ⟨_, ih hbefore hq, fun heq => hne (congrArg some heq.symm)⟩
      · rw [List.mem_singleton.mp hq]
    · rw [if_neg hr]
      rcases List.mem_append.mp hq with hq | hq
      · exact ih hbefore hq
      · exact absurd (List.mem_singleton.mp hq ▸ haddress) hr

theorem mem_outcomes_of_not_refusedAt (h : ¬ p.RefusedAt pushes q.2.address) (hq : q ∈ pushes) :
    (q, .ok ()) ∈ p.outcomes pushes := by
  rw [← map_fst_outcomes p pushes] at hq
  obtain ⟨⟨r, result⟩, hmem, rfl⟩ := List.mem_map.mp hq
  cases result with
  | ok => exact hmem
  | error error => exact absurd ⟨r, error, hmem, rfl⟩ h

theorem mem_of_mem_outcomes {result : Except LayoutError Unit}
    (h : (q, result) ∈ p.outcomes pushes) : q ∈ pushes := by
  rw [← map_fst_outcomes p pushes]
  exact List.mem_map_of_mem h

/-- An access is refused if the last one at its address has another value. Unless one of these was
refused, this is so exactly if one that was accepted has another value, and the entries that are
stored at the address have one value. -/
theorem push_eq_error_iff_and_singleValued (positions publicStep publicOffset : Nat)
    (pushes : List (Nat × MemoryEntry)) (position : Nat) (e : MemoryEntry) :
    let start := ofSize positions publicStep publicOffset
    (((start.pushEach pushes).push position e).2 = .error (.memoryMismatch e.address) ↔
      ∃ value, lastPushed (pushes.map fun q => (q.2.address, q.2.value)) e.address = some value ∧
        value ≠ e.value) ∧
    (¬ start.RefusedAt pushes e.address →
      (((start.pushEach pushes).push position e).2 = .error (.memoryMismatch e.address) ↔
        start.AcceptedOther pushes e)) ∧
    ∀ stored stored', (start.pushEach pushes).Stores stored →
      (start.pushEach pushes).Stores stored' → stored.address = stored'.address →
        ¬ start.RefusedAt pushes stored.address → stored.value = stored'.value := by
  intro start
  have hrefused : ((start.pushEach pushes).push position e).2 = .error (.memoryMismatch e.address) ↔
      ∃ value, lastPushed (pushes.map fun q => (q.2.address, q.2.value)) e.address = some value ∧
        value ≠ e.value := by
    rw [push_eq_error_iff, values_pushEach]
  refine ⟨hrefused, fun hnone => ?accepted,
    fun stored stored' hstored hstored' haddress hnone => ?single⟩
  case accepted =>
    rw [hrefused]
    constructor
    · rintro ⟨value, hlast, hne⟩
      obtain ⟨q, hq, hqe⟩ := List.mem_map.mp (mem_of_lastPushed hlast)
      obtain ⟨haddress, rfl⟩ := Prod.mk.inj hqe
      exact ⟨q, mem_outcomes_of_not_refusedAt (haddress ▸ hnone) hq, haddress, hne⟩
    · rintro ⟨q, hq, haddress, hne⟩
      exact ⟨_, value_eq_of_not_refusedAt hnone (mem_of_mem_outcomes hq) haddress, hne⟩
  case single =>
    obtain ⟨i, hi⟩ := hstored.mem_outcomes
    obtain ⟨j, hj⟩ := hstored'.mem_outcomes
    have hlast := value_eq_of_not_refusedAt hnone (mem_of_mem_outcomes hi) rfl
    rw [value_eq_of_not_refusedAt hnone (mem_of_mem_outcomes hj) haddress.symm] at hlast
    exact (Option.some.inj hlast).symm

end Runs

/-- The second of two values is refused. -/
theorem refused_and_acceptedOther :
    (((ofSize 8 4 1).pushEach [(0, ⟨1, 5⟩)]).push 2 ⟨1, 6⟩).2 = .error (.memoryMismatch 1) ∧
      (ofSize 8 4 1).AcceptedOther [(0, ⟨1, 5⟩)] ⟨1, 6⟩ := by
  obtain ⟨hrefused, haccepted, -⟩ :=
    push_eq_error_iff_and_singleValued 8 4 1 [(0, ⟨1, 5⟩)] 2 ⟨1, 6⟩
  have hnone : ¬ (ofSize 8 4 1).RefusedAt [(0, ⟨1, 5⟩)] 1 := by
    simp [RefusedAt, outcomes, push_eq, ofSize]
  have herror := hrefused.mpr ⟨5, by decide, by decide⟩
  exact ⟨herror, (haccepted hnone).mp herror⟩

/-- A value that was refused is accepted the second time, so that two values of an address are
stored, and the first one is refused after it. -/
theorem recorded_refusal :
    (ofSize 8 4 1).AcceptedOther [(0, ⟨1, 5⟩), (2, ⟨1, 6⟩)] ⟨1, 6⟩ ∧
    (((ofSize 8 4 1).pushEach [(0, ⟨1, 5⟩), (2, ⟨1, 6⟩)]).push 3 ⟨1, 6⟩).2 = .ok () ∧
    ((ofSize 8 4 1).pushEach [(0, ⟨1, 5⟩), (2, ⟨1, 6⟩), (3, ⟨1, 6⟩)]).Stores ⟨1, 5⟩ ∧
    ((ofSize 8 4 1).pushEach [(0, ⟨1, 5⟩), (2, ⟨1, 6⟩), (3, ⟨1, 6⟩)]).Stores ⟨1, 6⟩ ∧
    ¬ (ofSize 8 4 1).AcceptedOther [(0, ⟨1, 5⟩), (2, ⟨1, 6⟩)] ⟨1, 5⟩ ∧
    (((ofSize 8 4 1).pushEach [(0, ⟨1, 5⟩), (2, ⟨1, 6⟩)]).push 3 ⟨1, 5⟩).2 =
      .error (.memoryMismatch 1) := by
  have hne : (5 : Felt) ≠ 6 := by decide
  refine ⟨⟨(0, ⟨1, 5⟩), ?_, rfl, hne⟩, ?_, ?_, ?_, ?_, ?_⟩ <;>
    simp [AcceptedOther, Stores, outcomes, pushEach, push_eq, ofSize, hne, hne.symm,
      Array.replicate_succ]

end MemoryPool

end CairoTrace
