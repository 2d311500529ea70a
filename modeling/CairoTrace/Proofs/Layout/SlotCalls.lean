import CairoTrace.Proofs.Layout.Slots

/-!
# Calls for slots

Slots are asked for one after another, some of them whether or not they are free. A slot that can be
allocated has no row in common with any that was handed out before (`Slots.freeOffsets_serveAll`),
and it is the one of the least offset (`Slots.allocates_least_free`). Calls that failed do not
count.
-/

namespace CairoTrace.Slots

variable {s s' : Slots} {step : Nat} {owner : String} {slot : VirtualColumn}

/-! ## Calls -/

/-- What may be asked for: a slot whether or not it is free, or a free one. -/
inductive Call
  | reserve (step offset : Nat)
  | allocate (step : Nat) (owner : String)

/-- Whether a slot that is asked for has a step, and starts before its second row. -/
def Call.IsValid : Call → Prop
  | .reserve step offset => isPowerOfTwo step = true ∧ offset < step
  | .allocate _ _ => True

instance : DecidablePred Call.IsValid
  | .reserve step offset => inferInstanceAs (Decidable (isPowerOfTwo step = true ∧ offset < step))
  | .allocate _ _ => inferInstanceAs (Decidable True)

/-- A call is answered with the slot that it takes, unless it fails. -/
def serve (s : Slots) : Call → Slots × Except LayoutError VirtualColumn
  | .reserve step offset => (s.reserve step offset, .ok ⟨s.column, step, offset⟩)
  | .allocate step owner =>
    match s.allocate step owner with
    | .ok (slot, s') => (s', .ok slot)
    | .error e => (s, .error e)

/-- The slots after a number of calls, some of which may have failed. -/
def serveAll (s : Slots) (calls : List Call) : Slots := calls.foldl (fun s c => (s.serve c).1) s

def answers (s : Slots) : List Call → List (Except LayoutError VirtualColumn)
  | [] => []
  | call :: calls => (s.serve call).2 :: answers (s.serve call).1 calls

variable {call : Call} {calls calls' : List Call} {t : Nat × Nat}

theorem answers_append :
    s.answers (calls ++ calls') = s.answers calls ++ (s.serveAll calls).answers calls' := by
  induction calls generalizing s with
  | nil => rfl
  | cons call calls ih => exact congrArg (_ :: ·) ih

theorem length_answers : (s.answers calls).length = calls.length := by
  induction calls generalizing s with
  | nil => rfl
  | cons call calls ih => exact congrArg Nat.succ ih

theorem serve_allocate_snd :
    (s.serve (.allocate step owner)).2 = (s.allocate step owner).map Prod.fst := by
  rw [serve]
  cases s.allocate step owner <;> rfl

/-- A call takes the slot that it is answered with, and nothing if it fails. -/
theorem serve_cases (hpos : 0 < s.granularity) (call : Call) :
    (∃ slot, s.serve call = (s.reserve slot.step slot.offset, .ok slot) ∧
      (call.IsValid → isPowerOfTwo slot.step = true)) ∨ ∃ e, s.serve call = (s, .error e) := by
  cases call with
  | reserve step offset => exact .inl ⟨⟨s.column, step, offset⟩, rfl, And.left⟩
  | allocate step owner =>
    rw [serve]
    split
    · next slot s' hok =>
      obtain ⟨⟨hstep, -⟩, -, rfl, -, rfl⟩ := (allocate_eq_ok_iff hpos).mp hok
      exact .inl ⟨slot, rfl, fun _ => hstep⟩
    · next e _ => exact .inr ⟨e, rfl⟩

/-- Slots have been taken as calls were answered. -/
structure Serves (s s' : Slots) (answers : List (Except LayoutError VirtualColumn)) : Prop where
  column_eq : s'.column = s.column
  granularity_eq : s'.granularity = s.granularity
  mem_taken_iff : ∀ t, t ∈ s'.taken ↔
    t ∈ s.taken ∨ ∃ slot, .ok slot ∈ answers ∧ (slot.step, slot.offset) = t
  isPowerOfTwo_step : ∀ slot, .ok slot ∈ answers → isPowerOfTwo slot.step = true

theorem Serves.refl : s.Serves s [] where
  column_eq := rfl
  granularity_eq := rfl
  mem_taken_iff t := by simp
  isPowerOfTwo_step := nofun

/-- One more call is answered before all others. -/
theorem Serves.cons {answers : List (Except LayoutError VirtualColumn)}
    (hpos : 0 < s.granularity) (hcall : call.IsValid)
    (h : (s.serve call).1.Serves s' answers) : s.Serves s' ((s.serve call).2 :: answers) := by
  rcases serve_cases hpos call with ⟨slot, hserve, hstep⟩ | ⟨e, hserve⟩
  · rw [hserve] at h ⊢
    refine ⟨h.column_eq, h.granularity_eq, fun t => ?_, ?_⟩
    · rw [h.mem_taken_iff]
      simp [reserve, or_assoc, eq_comm]
    · simpa using ⟨hstep hcall, h.isPowerOfTwo_step⟩
  · rw [hserve] at h ⊢
    refine ⟨h.column_eq, h.granularity_eq, fun t => ?_, ?_⟩
    · simpa using h.mem_taken_iff t
    · simpa using h.isPowerOfTwo_step

theorem serves_serveAll (hpos : 0 < s.granularity) (hcalls : ∀ call ∈ calls, call.IsValid) :
    s.Serves (s.serveAll calls) (s.answers calls) := by
  induction calls generalizing s with
  | nil => exact .refl
  | cons call calls ih =>
    obtain ⟨hcall, hcalls⟩ := List.forall_mem_cons.mp hcalls
    have hpos' : 0 < (s.serve call).1.granularity := by
      rcases serve_cases hpos call with ⟨slot, hserve, -⟩ | ⟨e, hserve⟩
      · rwa [hserve]
      · rwa [hserve]
    exact (ih hpos' hcalls).cons hpos hcall

/-- A slot is free if it has no row in common with those that were handed out. -/
theorem freeOffsets_serveAll {column granularity : Nat} (hpos : 0 < granularity)
    (hcalls : ∀ call ∈ calls, call.IsValid) (hstep : isPowerOfTwo step = true) :
    (serveAll { column, granularity } calls).freeOffsets step =
      {offset | granularity ∣ offset ∧ offset < step ∧
        ∀ slot, .ok slot ∈ answers { column, granularity } calls →
          slot.Separate ⟨column, step, offset⟩} := by
  have hserves : Serves { column, granularity } _ _ := serves_serveAll hpos hcalls
  ext offset
  simp only [freeOffsets, Set.mem_ofPred_eq, hserves.granularity_eq, collides, List.any_eq_false,
    hserves.mem_taken_iff, List.not_mem_nil, false_or]
  refine and_congr_right fun _ => and_congr_right fun _ => ?_
  constructor
  · intro h slot hslot
    rw [VirtualColumn.separate_iff_not_meets (hserves.isPowerOfTwo_step slot hslot) hstep]
    exact eq_false_of_ne_true (h _ ⟨slot, hslot, rfl⟩)
  · rintro h - ⟨slot, hslot, rfl⟩
    have hseparate := h slot hslot
    rw [VirtualColumn.separate_iff_not_meets (hserves.isPowerOfTwo_step slot hslot) hstep]
      at hseparate
    exact ne_true_of_eq_false hseparate

/-- An allocation takes the slot of the first offset, among the multiples of the granularity below
the step, at which it has no row in common with any slot that was handed out before. It fails if
there is none, and then the calls after it are answered as they would be without it. -/
theorem allocates_least_free {column granularity : Nat} (hpos : 1 ≤ granularity)
    {before : List Call} (hbefore : ∀ call ∈ before, call.IsValid) (step : Nat) (owner : String)
    (after : List Call) :
    let start : Slots := { column, granularity }
    let answer := ((start.serveAll before).serve (.allocate step owner)).2
    let free := {offset | granularity ∣ offset ∧ offset < step ∧
      ∀ slot, .ok slot ∈ start.answers before → slot.Separate ⟨column, step, offset⟩}
    (∀ slot, answer = .ok slot ↔ (isPowerOfTwo step = true ∧ granularity ≤ step) ∧
      slot.column = column ∧ slot.step = step ∧ IsLeast free slot.offset) ∧
    (∀ e, answer = .error e ↔ e = .poolExhausted owner ∧
      (isPowerOfTwo step = false ∨ step < granularity ∨ free = ∅)) ∧
    ∀ e, answer = .error e → start.answers (before ++ .allocate step owner :: after) =
      start.answers before ++ .error e :: (start.answers (before ++ after)).drop before.length := by
  intro start answer free
  have hserves : start.Serves (start.serveAll before) _ := serves_serveAll hpos hbefore
  have hpos' : 0 < (start.serveAll before).granularity := hserves.granularity_eq ▸ hpos
  have hfree (hstep : isPowerOfTwo step = true) :
      (start.serveAll before).freeOffsets step = free := freeOffsets_serveAll hpos hbefore hstep
  refine ⟨fun slot => ?ok, fun e => ?error, fun e herror => ?later⟩
  case ok =>
    simp only [answer, serve_allocate_snd, Result.map_eq_ok_iff, Prod.exists,
      allocate_eq_ok_iff hpos', hserves.column_eq, hserves.granularity_eq]
    constructor
    · rintro ⟨slot, s', ⟨hstep, hcolumn, hslot, hleast, -⟩, rfl⟩
      exact ⟨hstep, hcolumn, hslot, hfree hstep.1 ▸ hleast⟩
    · rintro ⟨hstep, hcolumn, hslot, hleast⟩
      exact ⟨slot, _, ⟨hstep, hcolumn, hslot, (hfree hstep.1).symm ▸ hleast, rfl⟩, rfl⟩
  case error =>
    simp only [answer, serve_allocate_snd, Result.map_eq_error_iff, allocate_eq_error_iff hpos',
      hserves.granularity_eq]
    cases hstep : isPowerOfTwo step with
    | false => simp
    | true => rw [hfree hstep]
  case later =>
    rcases serve_cases hpos' (.allocate step owner) with ⟨slot, hserve, -⟩ | ⟨e', hserve⟩
    · cases (congrArg Prod.snd hserve).symm.trans herror
    · obtain rfl := Except.error.inj ((congrArg Prod.snd hserve).symm.trans herror)
      rw [answers_append, answers_append, answers, hserve, ← length_answers (s := start),
        List.drop_left]

/-- Calls after which the first three multiples of the granularity are not free. The last one
fails. -/
def interleavedCalls : List Call :=
  [.reserve 16 0, .reserve 8 2, .allocate 16 "output", .allocate 4 "output"]

theorem allocates_least_free_interleaved : (∀ call ∈ interleavedCalls, call.IsValid) ∧
    IsLeast {offset | 2 ∣ offset ∧ offset < 32 ∧ ∀ slot,
      .ok slot ∈ answers { column := 3, granularity := 2 } interleavedCalls →
        slot.Separate ⟨3, 32, offset⟩} 6 := by
  have hvalid : ∀ call ∈ interleavedCalls, call.IsValid := by decide
  obtain ⟨hok, -, -⟩ := @allocates_least_free 3 2 (by decide) _ hvalid 32 "output" []
  exact ⟨hvalid, ((hok ⟨3, 32, 6⟩).mp rfl).2.2.2⟩

end CairoTrace.Slots
