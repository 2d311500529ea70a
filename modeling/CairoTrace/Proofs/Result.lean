import Mathlib.Tactic

/-!
# Computations that may fail

A computation in `Except` succeeds exactly when each of its steps does. A fold that succeeds keeps
what its steps keep (`foldlM_induction`), and it succeeds if no step can fail
(`exists_foldlM_eq_ok`); a list is traversed with success exactly when every element is
(`mapM_eq_ok_iff`).
-/

namespace CairoTrace

namespace Result

variable {ε α β σ : Type}

/-! ## Single steps -/

theorem bind_eq_ok_iff {x : Except ε α} {f : α → Except ε β} {b : β} :
    (x >>= f) = .ok b ↔ ∃ a, x = .ok a ∧ f a = .ok b := by
  cases x with
  | error e => simp [bind, Except.bind]
  | ok a => simp [bind, Except.bind]

/-- A check is passed before what comes after it. -/
theorem check_bind_eq_ok_iff {x : Except ε Unit} {f : Unit → Except ε β} {b : β} :
    (x >>= f) = .ok b ↔ x = .ok () ∧ f () = .ok b := by
  rw [bind_eq_ok_iff]
  exact ⟨fun ⟨_, hx, hf⟩ => ⟨hx, hf⟩, fun ⟨hx, hf⟩ => ⟨(), hx, hf⟩⟩

theorem bind_eq_error_iff {x : Except ε α} {f : α → Except ε β} {e : ε} :
    (x >>= f) = .error e ↔ x = .error e ∨ ∃ a, x = .ok a ∧ f a = .error e := by
  cases x with
  | error e' => simp [bind, Except.bind]
  | ok a => simp [bind, Except.bind]

@[simp] theorem ok_bind (a : α) (f : α → Except ε β) : (Except.ok a >>= f) = f a := rfl

theorem pure_eq_ok (a : α) : (pure a : Except ε α) = .ok a := rfl

theorem throw_eq_error (e : ε) : (throw e : Except ε α) = .error e := rfl

theorem map_eq_ok_iff {f : α → β} {x : Except ε α} {b : β} :
    x.map f = .ok b ↔ ∃ a, x = .ok a ∧ f a = b := by
  cases x <;> simp [Except.map]

theorem map_eq_error_iff {f : α → β} {x : Except ε α} {e : ε} :
    x.map f = .error e ↔ x = .error e := by
  cases x <;> simp [Except.map]

theorem mapError_eq_ok_iff {δ : Type} {f : ε → δ} {x : Except ε α} {a : α} :
    x.mapError f = .ok a ↔ x = .ok a := by
  cases x <;> simp [Except.mapError]

@[simp] theorem throw_bind (e : ε) (f : α → Except ε β) :
    ((throw e : Except ε α) >>= f) = .error e := rfl

/-- A refusal that does not happen is passed over. -/
theorem ite_error_eq_ok_iff {p : Prop} [Decidable p] {e : ε} {x : Except ε α} {a : α} :
    (if p then .error e else x) = .ok a ↔ ¬ p ∧ x = .ok a := by
  split <;> simp_all

/-- A value that may not be there is checked if it is. -/
theorem option_forM_eq_ok_iff {o : Option α} {check : α → Except ε Unit} :
    o.forM check = .ok () ↔ ∀ a, o = some a → check a = .ok () := by
  cases o with
  | none => simp [Option.forM, pure_eq_ok]
  | some a => simp [Option.forM]

/-! ## Lists -/

/-- What holds at the start of a fold and is kept by each of its steps holds at its end. The
motive speaks of the elements that have been folded. -/
theorem foldlM_induction {f : σ → α → Except ε σ} {motive : List α → σ → Prop} {start : σ}
    (init : motive [] start)
    (step : ∀ done a s s', motive done s → f s a = .ok s' → motive (done ++ [a]) s') :
    ∀ {l : List α} {s : σ}, l.foldlM f start = .ok s → motive l s := by
  have run : ∀ (l done : List α) (s s' : σ), motive done s → l.foldlM f s = .ok s' →
      motive (done ++ l) s' := by
    intro l
    induction l with
    | nil =>
      intro done s s' hs h
      rw [List.foldlM_nil, pure_eq_ok, Except.ok.injEq] at h
      rwa [List.append_nil, ← h]
    | cons a l ih =>
      intro done s s' hs h
      rw [List.foldlM_cons] at h
      obtain ⟨t, ht, hrest⟩ := bind_eq_ok_iff.mp h
      have hmotive := ih (done ++ [a]) t s' (step done a s t hs ht) hrest
      rwa [List.append_assoc] at hmotive
  intro l s h
  exact run l [] start s init h

theorem exists_foldlM_eq_ok {f : σ → α → Except ε σ} {l : List α}
    (h : ∀ a ∈ l, ∀ s, ∃ s', f s a = .ok s') (s : σ) : ∃ s', l.foldlM f s = .ok s' := by
  induction l generalizing s with
  | nil => exact ⟨s, rfl⟩
  | cons a l ih =>
    obtain ⟨t, ht⟩ := h a List.mem_cons_self s
    obtain ⟨s', hs'⟩ := ih (fun b hb => h b (List.mem_cons_of_mem a hb)) t
    exact ⟨s', by rw [List.foldlM_cons, ht, ok_bind, hs']⟩

/-- What two folds over one list have in common at their starts, and each pair of their steps keeps,
they have in common at their ends. -/
theorem foldlM_relation {τ : Type} {f : σ → α → Except ε σ} {g : τ → α → Except ε τ}
    {r : σ → τ → Prop}
    (step : ∀ a s t s' t', r s t → f s a = .ok s' → g t a = .ok t' → r s' t') {l : List α}
    {s s' : σ} {t t' : τ} (init : r s t) (hf : l.foldlM f s = .ok s')
    (hg : l.foldlM g t = .ok t') : r s' t' := by
  induction l generalizing s t with
  | nil =>
    obtain rfl := Except.ok.inj hf
    obtain rfl := Except.ok.inj hg
    exact init
  | cons a l ih =>
    rw [List.foldlM_cons] at hf hg
    obtain ⟨u, hu, hf⟩ := bind_eq_ok_iff.mp hf
    obtain ⟨v, hv, hg⟩ := bind_eq_ok_iff.mp hg
    exact ih (step a s t u v init hu hv) hf hg

/-- A fold fails as one of its steps does. -/
theorem exists_of_foldlM_eq_error {f : σ → α → Except ε σ} {l : List α} {s : σ} {e : ε}
    (h : l.foldlM f s = .error e) : ∃ a ∈ l, ∃ t, f t a = .error e := by
  induction l generalizing s with
  | nil => cases h
  | cons a l ih =>
    rw [List.foldlM_cons] at h
    rcases bind_eq_error_iff.mp h with ha | ⟨t, -, h⟩
    · exact ⟨a, List.mem_cons_self, s, ha⟩
    · obtain ⟨a', ha', hstep⟩ := ih h
      exact ⟨a', List.mem_cons_of_mem a ha', hstep⟩

theorem mapM_eq_ok_iff {f : α → Except ε β} {l : List α} {r : List β} :
    l.mapM f = .ok r ↔ List.Forall₂ (fun a b => f a = .ok b) l r := by
  induction l generalizing r with
  | nil =>
    rw [List.mapM_nil, pure_eq_ok, Except.ok.injEq, List.forall₂_nil_left_iff]
    exact eq_comm
  | cons a l ih =>
    rw [List.mapM_cons, bind_eq_ok_iff, List.forall₂_cons_left_iff]
    constructor
    · rintro ⟨b, hb, h⟩
      obtain ⟨r', hr', h⟩ := bind_eq_ok_iff.mp h
      exact ⟨b, r', hb, ih.mp hr', (Except.ok.inj h).symm⟩
    · rintro ⟨b, r', hb, hr', rfl⟩
      exact ⟨b, hb, bind_eq_ok_iff.mpr ⟨r', ih.mpr hr', rfl⟩⟩

/-- The results of a traversal are those of the elements. -/
theorem mem_iff_of_mapM_eq_ok {f : α → Except ε β} {l : List α} {r : List β}
    (h : l.mapM f = .ok r) (b : β) : b ∈ r ↔ ∃ a ∈ l, f a = .ok b := by
  rw [mapM_eq_ok_iff] at h
  induction h with
  | nil => simp
  | cons ha _ ih =>
    rw [List.mem_cons, List.exists_mem_cons_iff, ih, ha, Except.ok.injEq, eq_comm]

theorem exists_getElem?_of_mapM_eq_ok {f : α → Except ε β} {l : List α} {r : List β}
    (h : l.mapM f = .ok r) {k : Nat} {a : α} (ha : l[k]? = some a) :
    ∃ b, r[k]? = some b ∧ f a = .ok b := by
  obtain ⟨hlength, hall⟩ := List.forall₂_iff_get.mp (mapM_eq_ok_iff.mp h)
  obtain ⟨hk, rfl⟩ := List.getElem?_eq_some_iff.mp ha
  exact ⟨r[k], List.getElem?_eq_getElem (hlength ▸ hk), hall k hk (hlength ▸ hk)⟩

theorem mapM_congr {f g : α → Except ε β} {l : List α} (h : ∀ a ∈ l, f a = g a) :
    l.mapM f = l.mapM g := by
  induction l with
  | nil => rfl
  | cons a l ih =>
    obtain ⟨ha, hl⟩ := List.forall_mem_cons.mp h
    rw [List.mapM_cons, List.mapM_cons, ha, ih hl]

/-- A traversal with a step that succeeds on every element is a map. -/
theorem mapM_eq_map {f : α → Except ε β} {g : α → β} {l : List α}
    (h : ∀ a ∈ l, f a = .ok (g a)) : l.mapM f = .ok (l.map g) := by
  rw [mapM_eq_ok_iff, List.forall₂_map_right_iff, List.forall₂_same]
  exact h

/-- A traversal by a function that is given where a condition holds. -/
theorem mapM_eq_ok_iff_of {f : α → Except ε β} {p : α → Prop} {g : α → β}
    (h : ∀ a b, f a = .ok b ↔ p a ∧ g a = b) {l : List α} {r : List β} :
    l.mapM f = .ok r ↔ (∀ a ∈ l, p a) ∧ l.map g = r := by
  simp only [mapM_eq_ok_iff, h]
  rw [List.forall₂_and_left, ← List.forall₂_map_left_iff, List.forall₂_eq_eq_eq]

theorem exists_mapM_eq_ok_iff {f : α → Except ε β} {l : List α} :
    (∃ r, l.mapM f = .ok r) ↔ ∀ a ∈ l, ∃ b, f a = .ok b := by
  simp only [mapM_eq_ok_iff]
  induction l with
  | nil => simp
  | cons a l ih =>
    rw [List.forall_mem_cons, ← ih]
    constructor
    · rintro ⟨r, hr⟩
      obtain ⟨b, r', hb, hr', -⟩ := List.forall₂_cons_left_iff.mp hr
      exact ⟨⟨b, hb⟩, r', hr'⟩
    · rintro ⟨⟨b, hb⟩, r, hr⟩
      exact ⟨b :: r, .cons hb hr⟩

/-- A traversal fails with the error of the first element that does. -/
theorem mapM_eq_error_iff {f : α → Except ε β} {l : List α} {e : ε} :
    l.mapM f = .error e ↔
      ∃ before a after, l = before ++ a :: after ∧ (∀ b ∈ before, ∃ c, f b = .ok c) ∧
        f a = .error e := by
  induction l with
  | nil =>
    rw [List.mapM_nil, pure_eq_ok]
    exact iff_of_false nofun fun ⟨before, a, after, h, _⟩ =>
      List.append_ne_nil_of_right_ne_nil before (List.cons_ne_nil a after) h.symm
  | cons a l ih =>
    rw [List.mapM_cons, bind_eq_error_iff]
    constructor
    · rintro (ha | ⟨b, hb, h⟩)
      · exact ⟨[], a, l, rfl, List.forall_mem_nil _, ha⟩
      · rcases bind_eq_error_iff.mp h with hl | ⟨r, -, h⟩
        · obtain ⟨before, a', after, rfl, hbefore, ha'⟩ := ih.mp hl
          exact ⟨a :: before, a', after, rfl, List.forall_mem_cons.mpr ⟨⟨b, hb⟩, hbefore⟩, ha'⟩
        · cases h
    · rintro ⟨before, a', after, hl, hbefore, ha'⟩
      cases before with
      | nil =>
        obtain ⟨rfl, rfl⟩ := List.cons.inj hl
        exact .inl ha'
      | cons b before =>
        obtain ⟨rfl, rfl⟩ := List.cons.inj hl
        obtain ⟨⟨c, hc⟩, hbefore⟩ := List.forall_mem_cons.mp hbefore
        have hrest := ih.mpr ⟨before, a', after, rfl, hbefore, ha'⟩
        exact .inr ⟨c, hc, bind_eq_error_iff.mpr (.inl hrest)⟩

/-- A traversal fails as one of its elements does. -/
theorem exists_of_mapM_eq_error {f : α → Except ε β} {l : List α} {e : ε}
    (h : l.mapM f = .error e) : ∃ a ∈ l, f a = .error e := by
  obtain ⟨before, a, after, rfl, -, ha⟩ := mapM_eq_error_iff.mp h
  exact ⟨a, List.mem_append_right before List.mem_cons_self, ha⟩

theorem forM_eq_ok_iff {f : α → Except ε Unit} {l : List α} :
    l.forM f = .ok () ↔ ∀ a ∈ l, f a = .ok () := by
  induction l with
  | nil => exact ⟨fun _ a ha => (List.not_mem_nil ha).elim, fun _ => rfl⟩
  | cons a l ih =>
    rw [List.forall_mem_cons, ← ih, show (a :: l).forM f = (f a >>= fun _ => l.forM f) from rfl,
      bind_eq_ok_iff]
    constructor
    · rintro ⟨⟨⟩, ha, hl⟩
      exact ⟨ha, hl⟩
    · rintro ⟨ha, hl⟩
      exact ⟨⟨⟩, ha, hl⟩

/-- A loop that refuses the elements with a property. -/
theorem forIn_refusing_eq_ok_iff {p : α → Prop} [DecidablePred p] {error : α → ε} {l : List α} :
    (forIn l () fun a _ => if p a then .error (error a) else .ok (ForInStep.yield ())) =
        (.ok () : Except ε Unit) ↔ ∀ a ∈ l, ¬ p a := by
  induction l with
  | nil => exact iff_of_true rfl (List.forall_mem_nil _)
  | cons a l ih =>
    rw [List.forIn_cons, List.forall_mem_cons, ← ih]
    split
    · next h => exact iff_of_false nofun fun hall => hall.1 h
    · next h => exact (and_iff_right h).symm

/-! ## Lists with indices -/

theorem map_zipIdx_comp (f : α → β) (l : List α) : (l.zipIdx.map fun p => f p.1) = l.map f := by
  rw [← Function.comp_def f, ← List.map_map, List.zipIdx_map_fst]

theorem subset_flatMap_zipIdx {l : List α} {k : Nat} {a : α} (h : l[k]? = some a)
    (f : α × Nat → List β) : f (a, k) ⊆ l.zipIdx.flatMap f := fun _ hb =>
  List.mem_flatMap.mpr ⟨(a, k), List.mk_mem_zipIdx_iff_getElem?.mpr h, hb⟩

theorem exists_mem_zipIdx_iff {p : α → Prop} {l : List α} :
    (∃ q ∈ l.zipIdx, p q.1) ↔ ∃ a ∈ l, p a := by
  constructor
  · rintro ⟨⟨a, i⟩, hmem, hp⟩
    exact ⟨a, List.fst_mem_of_mem_zipIdx hmem, hp⟩
  · rintro ⟨a, ha, hp⟩
    obtain ⟨i, hi⟩ := List.mem_iff_getElem?.mp ha
    exact ⟨(a, i), List.mk_mem_zipIdx_iff_getElem?.mpr hi, hp⟩

theorem forall_mem_zipIdx_iff {p : α → Prop} {l : List α} :
    (∀ q ∈ l.zipIdx, p q.1) ↔ ∀ a ∈ l, p a := by
  have hnot := (exists_mem_zipIdx_iff (p := fun a => ¬ p a) (l := l)).not
  simpa only [not_exists, not_and, not_not] using hnot

end Result

end CairoTrace
