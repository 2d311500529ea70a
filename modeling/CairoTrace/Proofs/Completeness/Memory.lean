import CairoTrace.Proofs.Completeness.Products
import CairoTrace.Proofs.Pool.MemoryPool
import CairoTrace.Proofs.Soundness.Memory
import CairoTrace.Proofs.Trace.Interaction

/-!
# Completeness of the memory

The products of a memory pool that is finished end with the quotient of its public memory
(`MemoryPool.IsFinished.exists_isProductColumn`): the entries of its own are on both sides, so that
the places of the public memory are left. If no address is zero, the sorted entries are those of a
memory that starts at address one, and all constraints hold on the trace that the pool is written to
(`MemoryPool.constraints_of_finish`).
-/

namespace CairoTrace

open Permutation (memoryTerm memoryQuotient cumulativeProduct IsProductColumn)

/-! ## Columns of entries -/

namespace MemoryCheck

/-- The cells of entries in the column of a pool. -/
def entryCells (entries : List MemoryEntry) : List Felt :=
  entries.flatMap fun e => [.ofNat e.address, e.value]

theorem entryCells_cons (e : MemoryEntry) (entries : List MemoryEntry) :
    entryCells (e :: entries) = .ofNat e.address :: e.value :: entryCells entries := rfl

theorem getElem?_flatMap_pair {α : Type} (f g : α → Felt) (l : List α) (i : Nat) :
    (l.flatMap fun a => [f a, g a])[2 * i]? = l[i]?.map f ∧
      (l.flatMap fun a => [f a, g a])[2 * i + 1]? = l[i]?.map g := by
  induction l generalizing i with
  | nil => exact ⟨rfl, rfl⟩
  | cons a l ih =>
    cases i with
    | zero => exact ⟨rfl, rfl⟩
    | succ i => exact ih i

theorem length_entryCells (entries : List MemoryEntry) :
    (entryCells entries).length = memoryStep * entries.length := by
  simp [entryCells, memoryStep, List.length_flatMap, mul_comm]

theorem pairs_entryCells (entries : List MemoryEntry) :
    pairs (entryCells entries) = entries.map fun e => (.ofNat e.address, e.value) := by
  induction entries with
  | nil => rfl
  | cons e entries ih => exact congrArg ((.ofNat e.address, e.value) :: ·) ih

theorem flatMap_entry_eq (column i : Nat) (entries : List MemoryEntry) :
    ((entries.zipIdx i).flatMap fun (e, k) =>
        [Write.at' ⟨column, memoryStep, 0⟩ k (.ofNat e.address),
          Write.at' ⟨column, memoryStep, 1⟩ k e.value]) =
      ((entryCells entries).zipIdx (memoryStep * i)).map fun (v, row) => .cell column row v := by
  induction entries generalizing i with
  | nil => rfl
  | cons e entries ih =>
    have hrow : 1 + memoryStep * i = memoryStep * i + 1 := add_comm _ _
    rw [List.zipIdx_cons, List.flatMap_cons, ih, entryCells_cons, List.zipIdx_cons,
      List.zipIdx_cons, List.map_cons, List.map_cons]
    simp only [Write.at', VirtualColumn.row, zero_add, hrow]
    rfl

/-- The pool and its sorted copy are written as whole columns. -/
theorem writes_eq (pool sorted : List MemoryEntry) :
    writes pool sorted = (Filling.columnCells Column.memoryPool (entryCells pool) ++
      Filling.columnCells Column.memorySorted (entryCells sorted)).map
        fun e => .cell e.1.1 e.1.2 e.2 := by
  have hpool := flatMap_entry_eq Column.memoryPool 0 pool
  have hsorted := flatMap_entry_eq Column.memorySorted 0 sorted
  rw [mul_zero] at hpool hsorted
  rw [List.map_append, Filling.columnCells, Filling.columnCells, List.map_map, List.map_map]
  exact congrArg₂ (· ++ ·) hpool hsorted

theorem interaction_entryCells (challenges : List Felt) (pool sorted : List MemoryEntry) :
    interaction challenges (entryCells pool) (entryCells sorted) =
      (cumulativeProduct
        ((pool.map (memoryTerm (Challenge.memoryZ.value challenges)
            (Challenge.memoryAlpha.value challenges))).zip
          (sorted.map (memoryTerm (Challenge.memoryZ.value challenges)
            (Challenge.memoryAlpha.value challenges))))).flatMap fun p => [p, 0] := by
  rw [interaction, pairs_entryCells, pairs_entryCells, List.zipWith_map, List.zip_eq_zipWith,
    List.zipWith_map]
  rfl

variable {columns : List (Array Felt)} {column : Nat}

theorem cellAt_entryCells {entries : List MemoryEntry}
    (h : columns[column]? = some (entryCells entries).toArray) {i : Nat} {e : MemoryEntry}
    (he : entries[i]? = some e) :
    (⟨column, memoryStep, 0⟩ : VirtualColumn).cellAt columns i = .ofNat e.address ∧
      (⟨column, memoryStep, 1⟩ : VirtualColumn).cellAt columns i = e.value := by
  obtain ⟨haddress, hvalue⟩ :=
    getElem?_flatMap_pair (fun e : MemoryEntry => .ofNat e.address) (·.value) entries i
  rw [he] at haddress hvalue
  simp only [VirtualColumn.cellAt, VirtualColumn.row, traceCell_of_getElem? h,
    List.getD_eq_getElem?_getD]
  rw [zero_add, add_comm]
  exact ⟨congrArg (Option.getD · 0) haddress, congrArg (Option.getD · 0) hvalue⟩

/-- The term of an entry in the products is that of its cells. -/
theorem accessTerm_cellAt {z alpha : Felt} {entries : List MemoryEntry}
    (h : columns[column]? = some (entryCells entries).toArray) {i : Nat} (hi : i < entries.length) :
    accessTerm z alpha ((⟨column, memoryStep, 0⟩ : VirtualColumn).cellAt columns i)
        ((⟨column, memoryStep, 1⟩ : VirtualColumn).cellAt columns i) =
      (entries.map (memoryTerm z alpha)).getD i 0 := by
  obtain ⟨haddress, hvalue⟩ := cellAt_entryCells h (List.getElem?_eq_getElem hi)
  rw [haddress, hvalue, List.getD_eq_getElem _ 0 (by rwa [List.length_map]), List.getElem_map,
    accessTerm, memoryTerm, add_comm]

theorem cellAt_products {values : List Felt}
    (h : columns[column]? = some (values.flatMap fun p => [p, 0]).toArray) (i : Nat) :
    (products column).cellAt columns i = values.getD i 0 := by
  have hvalue := (getElem?_flatMap_pair id (fun _ => 0) values i).1
  rw [Option.map_id] at hvalue
  simp only [products, VirtualColumn.cellAt, VirtualColumn.row, traceCell_of_getElem? h, zero_add,
    List.getD_eq_getElem?_getD]
  exact congrArg (Option.getD · 0) hvalue

end MemoryCheck

/-! ## Products of finished pools -/

namespace MemoryPool

open MemoryCheck

/-- The pool of a trace keeps the places of the public memory. -/
theorem isPublic_iff {positions i : Nat} :
    (ofSize positions (publicMemoryStep / memoryStep)
      (publicMemoryOffset / memoryStep)).isPublic i = true ↔ IsPublic i := by
  rw [isPublic, beq_iff_eq]
  change i % 4 = 1 ↔ 2 * i % 8 = 2
  omega

theorem publicCapacity_eq {n : Nat} {p : MemoryPool} (hdvd : publicMemoryStep ∣ n)
    (hsize : p.accesses.size = n / memoryStep)
    (hpublic : ∀ i, p.isPublic i = true ↔ IsPublic i) :
    p.publicCapacity = n / publicMemoryStep := by
  have hfilter (i : Nat) : p.isPublic i = decide (IsPublic i) := by
    rw [Bool.eq_iff_iff, hpublic, decide_eq_true_eq]
  rw [← card_filter_isPublic hdvd, publicCapacity, hsize, List.countP_eq_length_filter,
    List.filter_congr fun i _ => hfilter i]
  rfl

namespace IsFinished

variable {n : Nat} {p recorded : MemoryPool} {cells : List (Option MemoryEntry)}
  {entries memory pool sorted : List MemoryEntry} {padding : MemoryEntry} {gapValue : Nat → Felt}
  {z alpha : Felt}

/-- The products end with the quotient of the public memory. -/
theorem exists_isProductColumn
    (h : IsFinished p recorded cells entries memory padding gapValue pool sorted)
    (hcapacity : p.publicCapacity = n / publicMemoryStep) (hpos : 0 < p.accesses.size)
    (hz : ∀ e ∈ sorted, memoryTerm z alpha e ≠ 0) :
    ∃ quotient, memoryQuotient z alpha n publicMemoryStep memory padding = .ok quotient ∧
      IsProductColumn p.accesses.size ((pool.map (memoryTerm z alpha)).getD · 0)
        ((sorted.map (memoryTerm z alpha)).getD · 0)
        ((cumulativeProduct ((pool.map (memoryTerm z alpha)).zip
          (sorted.map (memoryTerm z alpha)))).getD · 0) quotient := by
  have hne : 0 ∉ sorted.map (memoryTerm z alpha) := by
    intro hmem
    obtain ⟨e, he, hzero⟩ := List.mem_map.mp hmem
    exact hz e he hzero
  have hzero : memoryTerm z alpha ⟨0, 0⟩ = z := by
    change z - (alpha * 0 + 0) = z
    rw [mul_zero, add_zero, sub_zero]
  have hpool : (pool.map (memoryTerm z alpha)).prod =
      z ^ p.publicCapacity * ((p.ownEntries cells).map (memoryTerm z alpha)).prod := by
    rw [(h.pool_perm.map _).prod_eq, List.map_append, List.prod_append, List.map_replicate,
      List.prod_replicate, hzero]
  have hsorted : (sorted.map (memoryTerm z alpha)).prod =
      ((p.ownEntries cells).map (memoryTerm z alpha)).prod *
        ((fillPlaces p.publicCapacity memory padding).map (memoryTerm z alpha)).prod := by
    rw [(h.sorted_perm.map _).prod_eq, List.map_append, List.prod_append]
    rfl
  have hprod : (sorted.map (memoryTerm z alpha)).prod ≠ 0 := List.prod_ne_zero hne
  rw [hsorted] at hprod
  obtain ⟨hown, hfill⟩ := mul_ne_zero_iff.mp hprod
  rw [hcapacity] at hpool hsorted hfill
  have hlength := h.length_le
  rw [hcapacity] at hlength
  refine ⟨_, quotient_eq_ok_iff.mpr ⟨hlength, hfill, rfl⟩, ?_⟩
  have hsame : (pool.map (memoryTerm z alpha)).length =
      (sorted.map (memoryTerm z alpha)).length := by
    rw [List.length_map, List.length_map, h.length_pool, h.length_sorted]
  have hcolumn := Permutation.isProductColumn_cumulativeProduct hsame
    (by rwa [List.length_map, h.length_pool]) hne
  rw [List.length_map, h.length_pool, hpool, hsorted] at hcolumn
  have hquotient {x a b : Felt} (ha : a ≠ 0) : x * a * (a * b)⁻¹ = x * b⁻¹ := by
    rw [mul_inv]
    field_simp
  rwa [hquotient hown] at hcolumn

/-- The cells of a pool, of its sorted copy and of the products are as the constraints say. -/
theorem checks (h : IsFinished p recorded cells entries memory padding gapValue pool sorted)
    (hsize : p.accesses.size = n / memoryStep) (hpos : 0 < p.accesses.size)
    (hpublic : ∀ i, p.isPublic i = true ↔ IsPublic i) (hdvd : publicMemoryStep ∣ n)
    (hown : ∀ e, e ∈ p.ownEntries p.accesses.toList ↔ e ∈ entries) (hpadding : padding ∈ memory)
    (hentries : ∀ e ∈ entries ++ memory, e.address ≠ 0) {quotient : Felt} {values : List Felt}
    (hvalues : IsProductColumn p.accesses.size ((pool.map (memoryTerm z alpha)).getD · 0)
      ((sorted.map (memoryTerm z alpha)).getD · 0) (values.getD · 0) quotient)
    {columns : List (Array Felt)} {k : Nat}
    (hpool : columns[Column.memoryPool]? = some (entryCells pool).toArray)
    (hsorted : columns[Column.memorySorted]? = some (entryCells sorted).toArray)
    (hproducts : columns[k]? = some (values.flatMap fun p => [p, 0]).toArray) :
    Checks n columns ((products k).cellAt columns) z alpha quotient := by
  have hcovers := h.covers hown hpadding hentries
  have hlengthPool : pool.length = n / memoryStep := h.length_pool.trans hsize
  have hlengthSorted : sorted.length = n / memoryStep := h.length_sorted.trans hsize
  rw [hsize] at hvalues hpos
  have hcell {i : Nat} (hi : i < sorted.length) :
      sortedAddress.cellAt columns i = .ofNat sorted[i].address ∧
        sortedValue.cellAt columns i = sorted[i].value :=
    cellAt_entryCells hsorted (List.getElem?_eq_getElem hi)
  have hstep {i : Nat} (hi : i + 1 < sorted.length) :
      sorted[i + 1].address = sorted[i].address ∨
        sorted[i + 1].address = sorted[i].address + 1 := by
    have hsucc := hcovers.getElem_succ (i := i) (by rwa [List.length_map])
    rwa [List.getElem_map, List.getElem_map] at hsucc
  have hzero {i : Nat} (hi : i < n / publicMemoryStep) :
      address.cellAt columns (4 * i + 1) = 0 ∧ value.cellAt columns (4 * i + 1) = 0 := by
    refine cellAt_entryCells hpool (h.getElem?_pool_of_isPublic ?_ ((hpublic _).mpr ?_))
    · obtain ⟨count, rfl⟩ := hdvd
      rw [hsize]
      simp only [memoryStep, publicMemoryStep] at hi ⊢
      omega
    · change 2 * (4 * i + 1) % 8 = 2
      omega
  refine ⟨?products, fun i hi => ?climbs, fun i hi => ?isFunction, ?initial, fun i hi => ?address,
    fun i hi => ?value⟩
  case products =>
    refine hvalues.congr hpos (fun i hi => ?_) (fun i hi => ?_)
      fun i _ => cellAt_products hproducts i
    · exact accessTerm_cellAt hpool (hlengthPool ▸ hi)
    · exact accessTerm_cellAt hsorted (hlengthSorted ▸ hi)
  case climbs =>
    rw [← hlengthSorted] at hi
    rw [(hcell hi).1, (hcell (Nat.lt_of_succ_lt hi)).1]
    exact Permutation.ofNat_sub_ofNat_eq (hstep hi)
  case isFunction =>
    rw [← hlengthSorted] at hi
    rw [(hcell hi).1, (hcell (Nat.lt_of_succ_lt hi)).1, (hcell hi).2,
      (hcell (Nat.lt_of_succ_lt hi)).2]
    rcases hstep hi with hsame | hnext
    · exact Or.inr (h.value_eq_of_address_eq hown hpadding (List.getElem_mem _)
        (List.getElem_mem _) hsame.symm)
    · rw [hnext]
      exact Or.inl (Permutation.ofNat_succ_sub_ofNat _)
  case initial =>
    rw [← hlengthSorted] at hpos
    have hle : 1 ≤ recorded.maxAddress :=
      (Nat.one_le_iff_ne_zero.mpr (hentries padding (List.mem_append_right _ hpadding))).trans
        (h.records.le_maxAddress padding (List.mem_append_right _ hpadding))
    have hfirst := hcovers.getElem_zero hle (by rwa [List.length_map])
    rw [List.getElem_map] at hfirst
    rw [(hcell hpos).1, hfirst]
    rfl
  case address =>
    rw [publicAddress_cellAt]
    exact (hzero hi).1
  case value =>
    rw [publicValue_cellAt]
    exact (hzero hi).2

/-- The pool and its sorted copy, once they are written. -/
theorem exists_writeAll_eq_ok
    (h : IsFinished p recorded cells entries memory padding gapValue pool sorted)
    (hsize : p.accesses.size = n / memoryStep) (hdvd : publicMemoryStep ∣ n) {width : Nat}
    {f : Filling} (hf : f.IsShaped n width) (hwidth : Column.memorySorted < width) (run : Memory) :
    ∃ f', Filling.writeAll run f (writes pool sorted) = .ok f' ∧ f'.IsShaped n width ∧
      f'.columns[Column.memoryPool]? = some (entryCells pool).toArray ∧
      f'.columns[Column.memorySorted]? = some (entryCells sorted).toArray := by
  have hrows {l : List MemoryEntry} (hl : l.length = p.accesses.size) :
      (entryCells l).length = n := by
    have heven : memoryStep ∣ n := Nat.dvd_trans (by decide) hdvd
    rw [length_entryCells, hl, hsize, Nat.mul_div_cancel' heven]
  refine ⟨_, writes_eq pool sorted ▸ Filling.writeAll_cells run f _, hf.setCells _, ?_⟩
  exact hf.setCells_columns (by decide) (Nat.lt_of_succ_lt hwidth) hwidth (hrows h.length_pool)
    (hrows h.length_sorted)

end IsFinished

/-- The products of a memory pool of a layout end with the quotient of the public memory. The
constraints hold on the trace that the pool is written to, if none of the addresses is zero. -/
theorem constraints_of_finish {c : LayoutConfig} {n modulus : Nat} {params : Option Pedersen.Params}
    {l : Layout} (hl : Layout.build c n params modulus = .ok l)
    {pushes : List (Nat × MemoryEntry)} (hdistinct : (pushes.map (·.1)).Nodup)
    (hown : ∀ q ∈ pushes, q.1 < n / memoryStep ∧ ¬ IsPublic q.1) {p : MemoryPool}
    (hpushes : (Filling.initial l).memory.pushAll pushes = .ok p) {memory : List MemoryEntry}
    {padding : MemoryEntry} (hpadding : padding ∈ memory) {gapValue : Nat → Felt}
    {pool sorted : List MemoryEntry}
    (hfinish : (p.finish memory padding gapValue).2 = .ok (pool, sorted)) {z alpha : Felt}
    (hz : ∀ e ∈ sorted, z ≠ .ofNat e.address + alpha * e.value) :
    ∃ quotient, memoryQuotient z alpha n publicMemoryStep memory padding = .ok quotient ∧
      IsProductColumn (n / memoryStep) ((pool.map (memoryTerm z alpha)).getD · 0)
        ((sorted.map (memoryTerm z alpha)).getD · 0)
        ((cumulativeProduct ((pool.map (memoryTerm z alpha)).zip
          (sorted.map (memoryTerm z alpha)))).getD · 0) quotient ∧
      ((∀ q ∈ pushes, q.2.address ≠ 0) → (∀ e ∈ memory, e.address ≠ 0) →
        ∀ (run : Memory) (f : Filling), f.IsShaped n l.mainColumns →
          ∃ f', Filling.writeAll run f (writes pool sorted) = .ok f' ∧
            ∀ (k : Nat) (b : Bindings) (columns : List (Array Felt))
              (periodic : List PeriodicColumn),
              Component.memory k ∈ l.components →
              Challenge.memoryZ.value b.challenges = z →
              Challenge.memoryAlpha.value b.challenges = alpha →
              Hint.memoryQuotient.value b.hints = quotient →
              fullTrace l f'.columns.toList b.challenges = .ok columns →
              ∀ k' ∈ constraints k, k'.Holds n columns periodic b) := by
  obtain ⟨-, hlength, hwell⟩ := Layout.build_eq_ok hl
  have hn : isPowerOfTwo n = true := hlength ▸ hwell.isPowerOfTwo
  have hle : publicMemoryStep ≤ n := le_trans (by decide) (Layout.le_traceLength_of_build hl)
  have hdvd : publicMemoryStep ∣ n := dvd_of_isPowerOfTwo (by decide) hn hle
  have hinitial : (Filling.initial l).memory = ofSize (n / memoryStep)
      (publicMemoryStep / memoryStep) (publicMemoryOffset / memoryStep) := by
    rw [← hlength]
    rfl
  rw [hinitial] at hpushes
  obtain ⟨hrecords, haccesses, hkept⟩ := of_pushAll hpushes
  have hpublic (i : Nat) : p.isPublic i = true ↔ IsPublic i := by
    rw [hkept]
    exact isPublic_iff
  have hsize : p.accesses.size = n / memoryStep := by
    rw [← Array.length_toList, haccesses, List.length_map, List.length_range]
  have hpos : 0 < p.accesses.size :=
    hsize ▸ Nat.div_pos (le_trans (by decide) hle) (by decide)
  obtain ⟨recorded, cells, h⟩ := exists_isFinished hrecords hfinish
  have hterm (e : MemoryEntry) (he : e ∈ sorted) : memoryTerm z alpha e ≠ 0 := by
    rw [memoryTerm, add_comm]
    exact sub_ne_zero.mpr (hz e he)
  obtain ⟨quotient, hquotient, hcolumn⟩ :=
    h.exists_isProductColumn (publicCapacity_eq hdvd hsize hpublic) hpos hterm
  refine ⟨quotient, hquotient, hsize ▸ hcolumn, fun hentries hmemory run f hf => ?_⟩
  have hwidth : Column.memorySorted < l.mainColumns := by
    rw [(Layout.pools_of_build hl).1]
    exact lt_of_lt_of_le (by decide) Layout.ColumnStarts.plain_le_interaction
  obtain ⟨f', hwrite, hf', hpool, hsorted⟩ := h.exists_writeAll_eq_ok hsize hdvd hf hwidth run
  refine ⟨f', hwrite, fun k b columns periodic hk hbz hbalpha hbquotient hfull => ?_⟩
  have hcompleted := Layout.isCompletedBy_of_fullTrace hl hf' hfull hk
  have hproducts := hcompleted.interaction _ (List.mem_singleton_self _)
  simp only [Component.interaction.column, hpool, hsorted, Option.getD_some] at hproducts
  rw [interaction_entryCells, hbz, hbalpha] at hproducts
  rw [MemoryCheck.holds_iff hn hle, hbz, hbalpha, hbquotient]
  have hfree (q : Nat × MemoryEntry) (hq : q ∈ pushes) : q.1 < n / memoryStep ∧
      (ofSize (n / memoryStep) (publicMemoryStep / memoryStep)
        (publicMemoryOffset / memoryStep)).isPublic q.1 = false :=
    ⟨(hown q hq).1, Bool.eq_false_iff.mpr (isPublic_iff.not.mpr (hown q hq).2)⟩
  have haddresses (e : MemoryEntry) (he : e ∈ pushes.map (·.2) ++ memory) : e.address ≠ 0 := by
    rcases List.mem_append.mp he with he | he
    · obtain ⟨q, hq, rfl⟩ := List.mem_map.mp he
      exact hentries q hq
    · exact hmemory e he
  exact h.checks hsize hpos hpublic hdvd (fun _ => mem_ownEntries_iff hdistinct hfree hpushes)
    hpadding haddresses hcolumn (hcompleted.getElem?_eq hpool) (hcompleted.getElem?_eq hsorted)
    hproducts

/-- A public entry that the run accesses, a gap at address two, and a place of the public memory
that is not used. -/
theorem constraints_of_finish_sample :
    ∃ (l : Layout) (p : MemoryPool) (pool sorted : List MemoryEntry) (quotient : Felt)
      (f : Filling) (columns : List (Array Felt)),
      Layout.build .plain 16 none = .ok l ∧
      (Filling.initial l).memory.pushAll [(0, ⟨1, 7⟩), (2, ⟨3, 9⟩)] = .ok p ∧
      (p.finish [⟨1, 7⟩] ⟨1, 7⟩ fun _ => 5).2 = .ok (pool, sorted) ∧
      memoryQuotient 100 3 16 publicMemoryStep [⟨1, 7⟩] ⟨1, 7⟩ = .ok quotient ∧
      Filling.writeAll .empty (Filling.initial l) (writes pool sorted) = .ok f ∧
      fullTrace l f.columns.toList [100, 3, 0] = .ok columns ∧
      ∀ c ∈ constraints 7, c.Holds 16 columns []
        ⟨[100, 3, 0], [none, none, none, none, some quotient], 0⟩ := by
  obtain ⟨l, hl, hlength, hcomponent, hcount⟩ : ∃ l, Layout.build .plain 16 none = .ok l ∧
      l.traceLength = 16 ∧ Component.memory 7 ∈ l.components ∧ l.challengeCount = 3 :=
    ⟨_, rfl, rfl, List.mem_cons_of_mem _ List.mem_cons_self, rfl⟩
  let values := (({} : Std.HashMap Nat Felt).insert 1 7).insert 3 9
  let accesses : Array (Option MemoryEntry) :=
    #[some ⟨1, 7⟩, none, some ⟨3, 9⟩, none, none, none, none, none]
  have hpush : (Filling.initial l).memory.pushAll [(0, ⟨1, 7⟩), (2, ⟨3, 9⟩)] =
      .ok ⟨accesses, 4, 1, values, 3⟩ := by
    simp [Filling.initial, hlength, memoryStep, publicMemoryStep, publicMemoryOffset, accesses,
      values, pushAll, ofSize, push, record, bind, Except.bind, pure, Except.pure,
      Array.replicate_succ]
  have hvalue : values[1]? = some 7 := by
    rw [Std.HashMap.getElem?_insert, if_neg (by decide), Std.HashMap.getElem?_insert_self]
  have hrecord : recordAll ⟨accesses, 4, 1, values, 3⟩ [⟨1, 7⟩] =
      (⟨accesses, 4, 1, values.insert 1 7, 3⟩, .ok ()) := by
    rw [recordAll, record_eq_ok_iff.mpr ⟨fun value h => Option.some.inj (h.symm.trans hvalue), rfl⟩]
    rfl
  have hfinish : (finish ⟨accesses, 4, 1, values, 3⟩ [⟨1, 7⟩] ⟨1, 7⟩ fun _ => 5).2 =
      .ok ([⟨1, 7⟩, ⟨0, 0⟩, ⟨3, 9⟩, ⟨2, 5⟩, ⟨1, 7⟩, ⟨0, 0⟩, ⟨1, 7⟩, ⟨1, 7⟩],
        [⟨1, 7⟩, ⟨1, 7⟩, ⟨1, 7⟩, ⟨1, 7⟩, ⟨1, 7⟩, ⟨1, 7⟩, ⟨2, 5⟩, ⟨3, 9⟩]) := by
    rw [finish, hrecord]
    simp [accesses, values, publicCapacity, isPublic, List.range_succ, Pool.freeCells,
      Pool.missing, Pool.fill, ownEntries, traceEntries, List.mergeSort,
      List.MergeSort.Internal.splitInTwo]
  have hz : ∀ e ∈ [⟨1, 7⟩, ⟨1, 7⟩, ⟨1, 7⟩, ⟨1, 7⟩, ⟨1, 7⟩, ⟨1, 7⟩, ⟨2, 5⟩, ⟨3, 9⟩],
      (100 : Felt) ≠ .ofNat (MemoryEntry.address e) + 3 * e.value := by decide
  obtain ⟨quotient, hquotient, -, hholds⟩ := constraints_of_finish hl (by decide) (by decide)
    hpush (List.mem_singleton_self _) hfinish hz
  obtain ⟨f, hwrite, hf⟩ := hholds (by decide) (by decide) .empty (Filling.initial l)
    (hlength ▸ Filling.isShaped_initial l)
  obtain ⟨columns, hfull⟩ : ∃ columns, fullTrace l f.columns.toList [100, 3, 0] = .ok columns := by
    simp [fullTrace, interactionTrace, hcount, bind, Except.bind, pure, Except.pure]
  exact ⟨l, _, _, _, quotient, f, columns, hl, hpush, hfinish, hquotient, hwrite, hfull,
    hf 7 ⟨[100, 3, 0], [none, none, none, none, some quotient], 0⟩ columns [] hcomponent rfl rfl
      rfl hfull⟩

end MemoryPool

end CairoTrace
