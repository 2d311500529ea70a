import CairoTrace.Pool.MemoryPool
import CairoTrace.Proofs.Pool.Numbers
import CairoTrace.Proofs.Result

/-!
# The memory pool

A pool knows the value at each address of its entries and the greatest of these addresses
(`MemoryPool.Records`), as none of them was refused. A pool that is finished has its own entries,
the gaps and copies of the padding at the positions that are not kept for the public memory, and
the public memory in its sorted copy (`MemoryPool.exists_isFinished`).
-/

namespace CairoTrace

open Pool

namespace MemoryPool

variable {p p' : MemoryPool} {entries : List MemoryEntry}

/-! ## Recorded entries -/

/-- What a pool knows of the entries that it has recorded. -/
structure Records (p : MemoryPool) (entries : List MemoryEntry) : Prop where
  values_iff : ∀ address value, p.values[address]? = some value ↔ ⟨address, value⟩ ∈ entries
  le_maxAddress : ∀ e ∈ entries, e.address ≤ p.maxAddress
  exists_maxAddress : p.maxAddress ≠ 0 → ∃ e ∈ entries, e.address = p.maxAddress

theorem record_eq_ok_iff {e : MemoryEntry} : p.record e = (p', .ok ()) ↔
    (∀ value, p.values[e.address]? = some value → value = e.value) ∧
      { p with
        values := p.values.insert e.address e.value
        maxAddress := max p.maxAddress e.address } = p' := by
  rw [record]
  cases p.values[e.address]? with
  | none => simp
  | some value =>
    by_cases hvalue : value = e.value
    · simp [hvalue]
    · simp [hvalue]

theorem records_ofSize (positions publicStep publicOffset : Nat) :
    (ofSize positions publicStep publicOffset).Records [] where
  values_iff address value := by simp [ofSize]
  le_maxAddress := nofun
  exists_maxAddress h := absurd rfl h

theorem Records.record (h : p.Records entries) {e : MemoryEntry}
    (hok : p.record e = (p', .ok ())) : p'.Records (entries ++ [e]) := by
  obtain ⟨hsame, rfl⟩ := record_eq_ok_iff.mp hok
  refine ⟨fun address value => ?values, fun other hother => ?le, fun hne => ?attained⟩
  case values =>
    rw [Std.HashMap.getElem?_insert, List.mem_append, List.mem_singleton, ← h.values_iff]
    by_cases haddress : e.address = address
    · subst haddress
      rw [if_pos (beq_self_eq_true _), Option.some.injEq]
      constructor
      · rintro rfl
        exact Or.inr rfl
      · rintro (hold | hnew)
        · exact (hsame value hold).symm
        · exact congrArg (·.value) hnew.symm
    · have hne : (⟨address, value⟩ : MemoryEntry) ≠ e := fun heq =>
        haddress (congrArg (·.address) heq).symm
      rw [if_neg (by simpa using haddress), or_iff_left hne]
  case le =>
    rcases List.mem_append.mp hother with hold | hnew
    · exact (h.le_maxAddress other hold).trans (Nat.le_max_left _ _)
    · obtain rfl := List.mem_singleton.mp hnew
      exact Nat.le_max_right _ _
  case attained =>
    rcases Nat.le_total p.maxAddress e.address with hle | hle
    · exact ⟨e, List.mem_append_right _ (List.mem_singleton_self e), (max_eq_right hle).symm⟩
    · have hmax : max p.maxAddress e.address = p.maxAddress := max_eq_left hle
      change max p.maxAddress e.address ≠ 0 at hne
      rw [hmax] at hne
      obtain ⟨other, hother, haddress⟩ := h.exists_maxAddress hne
      exact ⟨other, List.mem_append_left _ hother, haddress.trans hmax.symm⟩

/-- Recording leaves the positions as they are. -/
theorem Records.recordAll (h : p.Records entries) {memory : List MemoryEntry}
    (hok : p.recordAll memory = (p', .ok ())) :
    p'.Records (entries ++ memory) ∧
      p' = { p with values := p'.values, maxAddress := p'.maxAddress } := by
  induction memory generalizing p entries with
  | nil =>
    obtain rfl := (Prod.mk.inj hok).1
    rw [List.append_nil]
    exact ⟨h, rfl⟩
  | cons e memory ih =>
    rw [MemoryPool.recordAll] at hok
    cases hrecord : p.record e with
    | mk q result =>
      rw [hrecord] at hok
      cases result with
      | error => cases hok
      | ok =>
        obtain ⟨hrecords, heq⟩ := ih (h.record hrecord) hok
        obtain ⟨-, rfl⟩ := record_eq_ok_iff.mp hrecord
        rw [List.append_assoc] at hrecords
        exact ⟨hrecords, heq⟩

/-! ## Accesses -/

/-- A pool after a number of accesses, each with its position. None of them may be refused. -/
def pushAll (p : MemoryPool) (pushes : List (Nat × MemoryEntry)) :
    Except LayoutError MemoryPool :=
  pushes.foldlM (fun p q =>
    match p.push q.1 q.2 with
    | (p, .ok ()) => .ok p
    | (_, .error e) => .error e) p

/-- An access is recorded and put at its position. -/
theorem Records.push (h : p.Records entries) {position : Nat} {e : MemoryEntry}
    (hok : p.push position e = (p', .ok ())) :
    p'.Records (entries ++ [e]) ∧
      p' = { p with
        accesses := p.accesses.setIfInBounds position (some e)
        values := p'.values
        maxAddress := p'.maxAddress } := by
  rw [MemoryPool.push] at hok
  cases hrecord : p.record e with
  | mk q result =>
    rw [hrecord] at hok
    cases result with
    | error => cases hok
    | ok =>
      obtain rfl := (Prod.mk.inj hok).1
      obtain ⟨hvalues, hle, hattained⟩ := h.record hrecord
      obtain ⟨-, rfl⟩ := record_eq_ok_iff.mp hrecord
      exact ⟨⟨hvalues, hle, hattained⟩, rfl⟩

/-- A pool has recorded its accesses, and has the last one at each position. -/
theorem Records.pushAll (h : p.Records entries) {pushes : List (Nat × MemoryEntry)}
    (hok : p.pushAll pushes = .ok p') :
    p'.Records (entries ++ pushes.map (·.2)) ∧
      p' = { p with
        accesses := pushes.foldl (fun cells q => cells.setIfInBounds q.1 (some q.2)) p.accesses
        values := p'.values
        maxAddress := p'.maxAddress } := by
  refine Result.foldlM_induction (motive := fun done s =>
    s.Records (entries ++ done.map (·.2)) ∧ s = { p with
      accesses := done.foldl (fun cells q => cells.setIfInBounds q.1 (some q.2)) p.accesses
      values := s.values
      maxAddress := s.maxAddress }) ?init (fun done q s s' hs hpush => ?step) hok
  case init =>
    rw [List.map_nil, List.append_nil]
    exact ⟨h, rfl⟩
  case step =>
    obtain ⟨hrecords, hs⟩ := hs
    cases hresult : s.push q.1 q.2 with
    | mk r result =>
      rw [hresult] at hpush
      cases result with
      | error => cases hpush
      | ok =>
        obtain rfl := Except.ok.inj hpush
        obtain ⟨hrecords, hr⟩ := hrecords.push hresult
        rw [List.append_assoc, ← List.map_singleton, ← List.map_append] at hrecords
        refine ⟨hrecords, ?_⟩
        rw [List.foldl_append, List.foldl_cons, List.foldl_nil]
        rw [hs] at hr
        exact hr

/-- A pool whose accesses were not refused. -/
theorem of_pushAll {positions publicStep publicOffset : Nat} {pushes : List (Nat × MemoryEntry)}
    (hok : (ofSize positions publicStep publicOffset).pushAll pushes = .ok p) :
    p.Records (pushes.map (·.2)) ∧
      p.accesses.toList = (List.range positions).map (lastPushed pushes) ∧
      p.isPublic = (ofSize positions publicStep publicOffset).isPublic := by
  obtain ⟨hrecords, hp⟩ := (records_ofSize _ _ _).pushAll hok
  refine ⟨hrecords, ?_, ?_⟩
  · rw [hp]
    exact toList_foldl_setIfInBounds positions pushes
  · rw [hp]
    rfl

/-! ## Entries by position -/

variable {cells : List (Option MemoryEntry)}

/-- Whether a position is not kept for the public memory. -/
def isOwn (p : MemoryPool) (position : Nat) : Bool := !p.isPublic position

theorem ownEntries_eq : p.ownEntries cells = openValues p.isOwn 0 cells := by
  refine List.filterMap_congr fun (access, i) _ => ?_
  change (if p.isPublic i then none else access) = if (!p.isPublic i) then access else none
  cases p.isPublic i with
  | true => rfl
  | false => rfl

/-- Accesses at different positions of their own are the entries of a pool. -/
theorem mem_ownEntries_iff {positions publicStep publicOffset : Nat}
    {pushes : List (Nat × MemoryEntry)} (hdistinct : (pushes.map (·.1)).Nodup)
    (hown : ∀ q ∈ pushes, q.1 < positions ∧
      (ofSize positions publicStep publicOffset).isPublic q.1 = false)
    (hok : (ofSize positions publicStep publicOffset).pushAll pushes = .ok p) {e : MemoryEntry} :
    e ∈ p.ownEntries p.accesses.toList ↔ e ∈ pushes.map (·.2) := by
  obtain ⟨-, haccesses, hpublic⟩ := of_pushAll hok
  rw [ownEntries_eq, mem_openValues, haccesses, List.mem_map]
  simp only [zero_add, isOwn, hpublic, List.getElem?_map, Option.map_eq_some_iff]
  constructor
  · rintro ⟨position, ⟨row, hrow, hlast⟩, -⟩
    exact ⟨(row, e), mem_of_lastPushed hlast, rfl⟩
  · rintro ⟨q, hq, rfl⟩
    obtain ⟨hlt, hfree⟩ := hown q hq
    refine ⟨q.1, ⟨q.1, List.getElem?_range hlt, lastPushed_eq_of_nodup hdistinct hq⟩, ?_⟩
    rw [hfree, Bool.not_false]

theorem traceEntries_eq : p.traceEntries cells = (cells.zipIdx 0).map fun (access, i) =>
    if p.isOwn i then access.getD ⟨0, 0⟩ else ⟨0, 0⟩ := by
  refine List.map_congr_left fun e _ => ?_
  change (if p.isPublic e.2 then (⟨0, 0⟩ : MemoryEntry) else e.1.getD ⟨0, 0⟩) =
    if (!p.isPublic e.2) then e.1.getD ⟨0, 0⟩ else ⟨0, 0⟩
  cases p.isPublic e.2 with
  | true => rfl
  | false => rfl

/-- A trace has zeros where the public memory is kept, and the entries of its own. -/
theorem traceEntries_perm (h : freeCells p.isOwn 0 cells = 0) :
    (p.traceEntries cells).Perm
      (List.replicate ((List.range cells.length).countP p.isPublic) ⟨0, 0⟩ ++
        p.ownEntries cells) := by
  have hclosed : (fun i => !p.isOwn i) = p.isPublic := funext fun i => Bool.not_not (p.isPublic i)
  have hperm := map_zipIdx_perm (⟨0, 0⟩ : MemoryEntry) h
  rw [hclosed, ← List.range_eq_range'] at hperm
  rwa [traceEntries_eq, ownEntries_eq]

/-- The entries of its own are those of a trace where the public memory is not kept. -/
theorem filter_traceEntries (h : freeCells p.isOwn 0 cells = 0) :
    ((p.traceEntries cells).zipIdx.filter (p.isOwn ·.2)).map (·.1) = p.ownEntries cells := by
  rw [traceEntries_eq, ownEntries_eq]
  exact filter_zipIdx_eq_openValues ⟨0, 0⟩ h

theorem length_ownEntries (h : freeCells p.isOwn 0 cells = 0) :
    cells.length = (List.range cells.length).countP p.isPublic + (p.ownEntries cells).length := by
  have hlength := (traceEntries_perm h).length_eq
  rwa [traceEntries, List.length_map, List.length_zipIdx, List.length_append,
    List.length_replicate] at hlength

/-! ## Pools that are finished -/

/-- The entries that fill the gaps between the addresses of a pool. -/
def gapEntries (p : MemoryPool) (gapValue : Nat → Felt) : List MemoryEntry :=
  (gaps (fun address => p.values.contains address) 1 (p.maxAddress - 1)).map fun address =>
    ⟨address, gapValue address⟩

theorem mem_gapEntries_iff {gapValue : Nat → Felt} {e : MemoryEntry} :
    e ∈ p.gapEntries gapValue ↔ (1 ≤ e.address ∧ e.address < 1 + (p.maxAddress - 1)) ∧
      p.values[e.address]? = none ∧ e.value = gapValue e.address := by
  have hunused (address : Nat) :
      p.values.contains address = false ↔ p.values[address]? = none := by
    rw [Std.HashMap.contains_eq_isSome_getElem?, Option.isSome_eq_false_iff,
      Option.isNone_iff_eq_none]
  rw [gapEntries, List.mem_map]
  simp only [mem_gaps, hunused]
  constructor
  · rintro ⟨address, ⟨hrange, hnone⟩, rfl⟩
    exact ⟨hrange, hnone, rfl⟩
  · rintro ⟨hrange, hnone, hvalue⟩
    exact ⟨e.address, ⟨hrange, hnone⟩, congrArg (MemoryEntry.mk e.address) hvalue.symm⟩

/-- A pool whose cells are filled, with the public memory in its sorted copy. What it knows once the
public memory is recorded is that of `recorded`. -/
structure IsFinished (p recorded : MemoryPool) (cells : List (Option MemoryEntry))
    (entries memory : List MemoryEntry) (padding : MemoryEntry) (gapValue : Nat → Felt)
    (pool sorted : List MemoryEntry) : Prop where
  records : recorded.Records (entries ++ memory)
  length_le : memory.length ≤ p.publicCapacity
  length_eq : cells.length = p.accesses.size
  full : freeCells p.isOwn 0 cells = 0
  own_perm : ∃ copies, (p.ownEntries cells).Perm (p.ownEntries p.accesses.toList ++
    (recorded.gapEntries gapValue ++ List.replicate copies padding))
  pool_eq : pool = p.traceEntries cells
  sorted_eq : sorted = (p.ownEntries cells ++
    (memory ++ List.replicate (p.publicCapacity - memory.length) padding)).mergeSort
      fun a b => a.address ≤ b.address

/-- The cells of a pool, once its gaps are filled. -/
def filledCells (p recorded : MemoryPool) (padding : MemoryEntry) (gapValue : Nat → Felt) :
    List (Option MemoryEntry) :=
  (fill p.isOwn padding 0 p.accesses.toList (recorded.gapEntries gapValue)).1

/-- The sorted entries of a pool: those of its filled cells, the public memory and its padding. -/
def sortedEntries (p : MemoryPool) (cells : List (Option MemoryEntry)) (memory : List MemoryEntry)
    (padding : MemoryEntry) : List MemoryEntry :=
  (p.ownEntries cells ++ memory ++
    List.replicate (cells.length - (p.ownEntries cells ++ memory).length) padding).mergeSort
      fun a b => a.address ≤ b.address

/-- What a pool is made of that is finished, once the public memory is recorded. The gaps need room
in its free cells. -/
theorem finish_snd_eq (h : p.Records entries) {recorded : MemoryPool} {memory : List MemoryEntry}
    {padding : MemoryEntry} {gapValue : Nat → Felt} (hcapacity : memory.length ≤ p.publicCapacity)
    (hrecord : p.recordAll memory = (recorded, .ok ())) :
    (p.finish memory padding gapValue).2 =
      if (recorded.gapEntries gapValue).length ≤ freeCells p.isOwn 0 p.accesses.toList then
        .ok (p.traceEntries (p.filledCells recorded padding gapValue),
          p.sortedEntries (p.filledCells recorded padding gapValue) memory padding)
      else .error (.poolExhausted "memory") := by
  obtain ⟨-, hrest⟩ := h.recordAll hrecord
  have haccesses : recorded.accesses = p.accesses := by rw [hrest]
  have hown : (fun i => !recorded.isPublic i) = p.isOwn := by rw [hrest]; rfl
  have htrace : recorded.traceEntries = p.traceEntries := by rw [hrest]; rfl
  have hentries : recorded.ownEntries = p.ownEntries := by rw [hrest]; rfl
  have hlength : (recorded.gapEntries gapValue).length =
      (gaps (fun address => recorded.values.contains address) 1
        (recorded.maxAddress - 1)).length := by
    rw [gapEntries, List.length_map]
  rw [finish, if_neg (not_lt.mpr hcapacity), hrecord]
  simp only [haccesses, hown, htrace, hentries, ne_eq, ite_not, fill_snd_eq_nil_iff,
    List.length_map, length_missing_le_iff, hlength]
  by_cases hroom : (gaps (fun address => recorded.values.contains address) 1
      (recorded.maxAddress - 1)).length ≤ freeCells p.isOwn 0 p.accesses.toList
  · rw [if_pos hroom, if_pos hroom, missing_of_length_le (Nat.le_succ_of_le hroom)]
    rfl
  · rw [if_neg hroom, if_neg hroom]

/-- A pool is finished if the public memory has room, is not refused, and leaves room for the
gaps. -/
theorem finish_eq_ok_iff (h : p.Records entries) {memory : List MemoryEntry}
    {padding : MemoryEntry} {gapValue : Nat → Felt} {pool sorted : List MemoryEntry} :
    (p.finish memory padding gapValue).2 = .ok (pool, sorted) ↔
      ∃ recorded : MemoryPool, p.recordAll memory = (recorded, .ok ()) ∧
        memory.length ≤ p.publicCapacity ∧
        (recorded.gapEntries gapValue).length ≤ freeCells p.isOwn 0 p.accesses.toList ∧
        p.traceEntries (p.filledCells recorded padding gapValue) = pool ∧
        p.sortedEntries (p.filledCells recorded padding gapValue) memory padding = sorted := by
  constructor
  · intro hfinish
    by_cases hcapacity : memory.length ≤ p.publicCapacity
    · cases hrecord : p.recordAll memory with
      | mk recorded result =>
        cases result with
        | error =>
          rw [finish, if_neg (not_lt.mpr hcapacity), hrecord] at hfinish
          cases hfinish
        | ok =>
          rw [finish_snd_eq h hcapacity hrecord] at hfinish
          split at hfinish
          · next hroom =>
            obtain ⟨hpool, hsorted⟩ := Prod.mk.inj (Except.ok.inj hfinish)
            exact ⟨recorded, rfl, hcapacity, hroom, hpool, hsorted⟩
          · cases hfinish
    · rw [finish, if_pos (not_le.mp hcapacity)] at hfinish
      cases hfinish
  · rintro ⟨recorded, hrecord, hcapacity, hroom, rfl, rfl⟩
    rw [finish_snd_eq h hcapacity hrecord, if_pos hroom]

theorem exists_isFinished (h : p.Records entries) {memory : List MemoryEntry}
    {padding : MemoryEntry} {gapValue : Nat → Felt} {pool sorted : List MemoryEntry}
    (hfinish : (p.finish memory padding gapValue).2 = .ok (pool, sorted)) :
    ∃ recorded cells, IsFinished p recorded cells entries memory padding gapValue pool sorted := by
  obtain ⟨recorded, hrecord, hcapacity, hroom, hpool, hsorted⟩ := (finish_eq_ok_iff h).mp hfinish
  let cells := p.filledCells recorded padding gapValue
  have hfull : freeCells p.isOwn 0 cells = 0 := freeCells_fill
  have hlength : cells.length = p.accesses.size := length_fill.trans Array.length_toList
  have hcount : cells.length - (p.ownEntries cells ++ memory).length =
      p.publicCapacity - memory.length := by
    have hown := length_ownEntries hfull
    rw [List.length_append, publicCapacity, ← hlength]
    omega
  have hperm : (openValues p.isOwn 0 cells).Perm _ := openValues_fill_perm hroom
  rw [← ownEntries_eq, ← ownEntries_eq] at hperm
  refine ⟨recorded, cells, (h.recordAll hrecord).1, hcapacity, hlength, hfull, ⟨_, hperm⟩,
    hpool.symm, ?_⟩
  rw [← hsorted, ← hcount, ← List.append_assoc]
  rfl

/-- An access stays at its position. -/
theorem getElem?_of_finish (h : p.Records entries) {memory : List MemoryEntry}
    {padding : MemoryEntry} {gapValue : Nat → Felt} {pool sorted : List MemoryEntry}
    (hfinish : (p.finish memory padding gapValue).2 = .ok (pool, sorted)) {position : Nat}
    {e : MemoryEntry} (haccess : p.accesses.toList[position]? = some (some e))
    (hown : p.isPublic position = false) : pool[position]? = some e := by
  obtain ⟨recorded, -, -, -, rfl, -⟩ := (finish_eq_ok_iff h).mp hfinish
  have hcell : (p.filledCells recorded padding gapValue)[position]? = some (some e) :=
    getElem?_fill_of_not_free haccess rfl
  rw [traceEntries, List.getElem?_map, List.getElem?_zipIdx, hcell, Option.map_some,
    Option.map_some, zero_add]
  exact congrArg some (if_neg (Bool.eq_false_iff.mp hown))

namespace IsFinished

variable {recorded : MemoryPool} {memory pool sorted : List MemoryEntry} {padding : MemoryEntry}
  {gapValue : Nat → Felt}
  (h : IsFinished p recorded cells entries memory padding gapValue pool sorted)
include h

theorem length_pool : pool.length = p.accesses.size := by
  rw [h.pool_eq, traceEntries, List.length_map, List.length_zipIdx, h.length_eq]

theorem pool_perm :
    pool.Perm (List.replicate p.publicCapacity ⟨0, 0⟩ ++ p.ownEntries cells) := by
  rw [h.pool_eq, publicCapacity, ← h.length_eq]
  exact traceEntries_perm h.full

theorem sorted_perm : sorted.Perm (p.ownEntries cells ++
    (memory ++ List.replicate (p.publicCapacity - memory.length) padding)) := by
  rw [h.sorted_eq]
  exact List.mergeSort_perm _ _

theorem length_sorted : sorted.length = p.accesses.size := by
  have hcount := length_ownEntries h.full
  have hle := h.length_le
  rw [h.length_eq] at hcount
  rw [publicCapacity] at hle
  rw [h.sorted_perm.length_eq, List.length_append, List.length_append, List.length_replicate,
    publicCapacity]
  omega

theorem getElem?_pool_of_isPublic {i : Nat} (hi : i < p.accesses.size)
    (hpublic : p.isPublic i = true) : pool[i]? = some ⟨0, 0⟩ := by
  rw [← h.length_eq] at hi
  rw [h.pool_eq, traceEntries, List.getElem?_map, List.getElem?_zipIdx,
    List.getElem?_eq_getElem hi, Option.map_some, Option.map_some, zero_add]
  exact congrArg some (if_pos hpublic)

variable (hown : ∀ e, e ∈ p.ownEntries p.accesses.toList ↔ e ∈ entries)
  (hpadding : padding ∈ memory)
include hown hpadding

/-- A sorted entry is one that has been recorded, or fills a gap. -/
theorem mem_sorted_iff {e : MemoryEntry} :
    e ∈ sorted ↔ e ∈ entries ++ memory ∨ e ∈ recorded.gapEntries gapValue := by
  obtain ⟨copies, hperm⟩ := h.own_perm
  have hcopies (k : Nat) (he : e ∈ List.replicate k padding) : e ∈ memory :=
    List.eq_of_mem_replicate he ▸ hpadding
  simp only [h.sorted_perm.mem_iff, List.mem_append, hperm.mem_iff, hown]
  constructor
  · rintro ((he | he | he) | he | he)
    · exact Or.inl (Or.inl he)
    · exact Or.inr he
    · exact Or.inl (Or.inr (hcopies _ he))
    · exact Or.inl (Or.inr he)
    · exact Or.inl (Or.inr (hcopies _ he))
  · rintro ((he | he) | he)
    · exact Or.inl (Or.inl he)
    · exact Or.inr (Or.inl he)
    · exact Or.inl (Or.inr (Or.inl he))

/-- Memory has one value at each address. -/
theorem value_eq_of_address_eq {e e' : MemoryEntry} (he : e ∈ sorted) (he' : e' ∈ sorted)
    (haddress : e.address = e'.address) : e.value = e'.value := by
  rw [h.mem_sorted_iff hown hpadding] at he he'
  rcases he with he | he <;> rcases he' with he' | he'
  · have hvalue := (h.records.values_iff e.address e.value).mpr he
    have hvalue' := (h.records.values_iff e'.address e'.value).mpr he'
    rw [haddress, hvalue'] at hvalue
    exact (Option.some.inj hvalue).symm
  · have hvalue := (h.records.values_iff e.address e.value).mpr he
    rw [haddress, (mem_gapEntries_iff.mp he').2.1] at hvalue
    cases hvalue
  · have hvalue' := (h.records.values_iff e'.address e'.value).mpr he'
    rw [← haddress, (mem_gapEntries_iff.mp he).2.1] at hvalue'
    cases hvalue'
  · rw [(mem_gapEntries_iff.mp he).2.2, (mem_gapEntries_iff.mp he').2.2, haddress]

/-- The addresses are those from one to the greatest one, if none of them is zero. -/
theorem covers (hentries : ∀ e ∈ entries ++ memory, e.address ≠ 0) :
    Covers (sorted.map (·.address)) 1 recorded.maxAddress := by
  have hpositive {e : MemoryEntry} (he : e ∈ entries ++ memory) : 1 ≤ e.address :=
    Nat.one_le_iff_ne_zero.mpr (hentries e he)
  have hmem (v : Nat) : v ∈ sorted.map (·.address) ↔ 1 ≤ v ∧ v ≤ recorded.maxAddress := by
    simp only [List.mem_map, h.mem_sorted_iff hown hpadding]
    constructor
    · rintro ⟨e, he | he, rfl⟩
      · exact ⟨hpositive he, h.records.le_maxAddress e he⟩
      · obtain ⟨hrange, -⟩ := mem_gapEntries_iff.mp he
        omega
    · rintro ⟨hpos, hle⟩
      cases hvalue : recorded.values[v]? with
      | some value => exact ⟨⟨v, value⟩, Or.inl ((h.records.values_iff v value).mp hvalue), rfl⟩
      | none =>
        -- the greatest address is that of an entry, so an address without an entry is below it
        have hne : v ≠ recorded.maxAddress := by
          rintro rfl
          obtain ⟨e, he, haddress⟩ := h.records.exists_maxAddress (Nat.ne_of_gt hpos)
          have hsome := (h.records.values_iff e.address e.value).mpr he
          rw [haddress, hvalue] at hsome
          cases hsome
        refine ⟨⟨v, gapValue v⟩, Or.inr (mem_gapEntries_iff.mpr ⟨⟨hpos, ?_⟩, hvalue, rfl⟩), rfl⟩
        change v < 1 + (recorded.maxAddress - 1)
        omega
  have hsorted : sorted.map (·.address) = ((p.ownEntries cells ++ (memory ++
      List.replicate (p.publicCapacity - memory.length) padding)).map (·.address)).mergeSort
        (· ≤ ·) := by
    rw [h.sorted_eq]
    exact List.map_mergeSort fun _ _ _ _ => rfl
  rw [hsorted]
  apply Covers.of_mem_iff
  intro v
  rw [← hmem v, (h.sorted_perm.map _).mem_iff]

end IsFinished

end MemoryPool

end CairoTrace
