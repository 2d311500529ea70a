import CairoTrace.Proofs.Pool.SingleValued
import CairoTrace.Proofs.StarkField

/-!
# Memory pools that can be finished

A pool can be finished if and only if the public memory has room at the positions that are kept for
it, is single-valued together with the accesses, and leaves out no more addresses than there are
positions without an access (`MemoryPool.Fits`). Its sorted copy is then a memory without gaps
(`MemoryPool.Completes`), also where the last free position is used up.
-/

namespace CairoTrace

open Pool

namespace MemoryPool

/-! ## Positions and addresses -/

/-- The positions that are kept for the public memory. -/
def publicPositions (positions publicStep publicOffset : Nat) : Finset Nat :=
  {i ∈ Finset.range positions | i % publicStep = publicOffset}

/-- The other positions, less those that are pushed to. -/
def freePositions (positions publicStep publicOffset : Nat) (pushes : List (Nat × MemoryEntry)) :
    Finset Nat :=
  {i ∈ Finset.range positions | i % publicStep ≠ publicOffset ∧ i ∉ pushes.map (·.1)}

/-- The addresses from one to the greatest that none of the entries has. -/
def addressGaps (entries : List MemoryEntry) : Finset Nat :=
  let addresses := (entries.map (·.address)).toFinset
  Finset.Ico 1 (addresses.sup id) \ addresses

/-- The entries of a pool at the positions that are not kept for the public memory. -/
def ownPart (publicStep publicOffset : Nat) (pool : List MemoryEntry) : List MemoryEntry :=
  (pool.zipIdx.filter fun e => e.2 % publicStep ≠ publicOffset).map (·.1)

/-- What accesses and a public memory have to satisfy for the pool of a trace. -/
structure Fits (positions publicStep publicOffset : Nat) (pushes : List (Nat × MemoryEntry))
    (memory : List MemoryEntry) : Prop where
  memory_le : memory.length ≤ (publicPositions positions publicStep publicOffset).card
  singleValued : SingleValued (pushes.map (·.2) ++ memory)
  gaps_le : (addressGaps (pushes.map (·.2) ++ memory)).card ≤
    (freePositions positions publicStep publicOffset pushes).card

/-- A pool with its accesses in place and zeros where the public memory is kept, and a sorted copy
with the public memory and padding instead, whose addresses are those from one to the greatest. -/
structure Completes (positions publicStep publicOffset : Nat) (pushes : List (Nat × MemoryEntry))
    (memory : List MemoryEntry) (padding : MemoryEntry) (gapValue : Nat → Felt)
    (pool sorted : List MemoryEntry) : Prop where
  length_pool : pool.length = positions
  getElem?_pushed : ∀ q ∈ pushes, pool[q.1]? = some q.2
  getElem?_public : ∀ i ∈ publicPositions positions publicStep publicOffset,
    pool[i]? = some ⟨0, 0⟩
  sorted_perm : sorted.Perm (ownPart publicStep publicOffset pool ++ (memory ++
    List.replicate ((publicPositions positions publicStep publicOffset).card - memory.length)
      padding))
  mem_sorted_iff : ∀ e, e ∈ sorted ↔ e ∈ pushes.map (·.2) ++ memory ∨
    e.address ∈ addressGaps (pushes.map (·.2) ++ memory) ∧ e.value = gapValue e.address
  first : sorted.head?.map (·.address) = some 1
  climbs : ∀ i (h : i + 1 < sorted.length),
    sorted[i + 1].address = sorted[i].address ∨ sorted[i + 1].address = sorted[i].address + 1
  singleValued : SingleValued sorted

theorem card_filter_range (n : Nat) (P : Nat → Prop) [DecidablePred P] :
    (Finset.filter P (Finset.range n)).card = (List.range n).countP (P ·) := by
  rw [List.countP_eq_length_filter]
  rfl

variable {p : MemoryPool} {entries : List MemoryEntry}

namespace Records

theorem contains_iff (h : p.Records entries) {address : Nat} :
    p.values.contains address = true ↔ address ∈ (entries.map (·.address)).toFinset := by
  rw [Std.HashMap.contains_eq_isSome_getElem?, Option.isSome_iff_exists, List.mem_toFinset,
    List.mem_map]
  constructor
  · rintro ⟨value, hvalue⟩
    exact ⟨⟨address, value⟩, (h.values_iff address value).mp hvalue, rfl⟩
  · rintro ⟨e, he, rfl⟩
    exact ⟨e.value, (h.values_iff e.address e.value).mpr he⟩

theorem maxAddress_eq (h : p.Records entries) :
    p.maxAddress = (entries.map (·.address)).toFinset.sup id := by
  apply Nat.le_antisymm
  · by_cases hzero : p.maxAddress = 0
    · rw [hzero]
      exact Nat.zero_le _
    · obtain ⟨e, he, haddress⟩ := h.exists_maxAddress hzero
      rw [← haddress]
      exact Finset.le_sup (f := id) (List.mem_toFinset.mpr (List.mem_map_of_mem he))
  · refine Finset.sup_le fun address haddress => ?_
    obtain ⟨e, he, rfl⟩ := List.mem_map.mp (List.mem_toFinset.mp haddress)
    exact h.le_maxAddress e he

/-- The gaps that a pool fills are those of the entries that it has recorded. -/
theorem toFinset_gaps (h : p.Records entries) :
    (gaps (fun address => p.values.contains address) 1 (p.maxAddress - 1)).toFinset =
      addressGaps entries := by
  ext address
  have hunused : p.values.contains address = false ↔
      address ∉ (entries.map (·.address)).toFinset := by
    rw [← h.contains_iff, Bool.not_eq_true]
  rw [List.mem_toFinset, mem_gaps, addressGaps, Finset.mem_sdiff, Finset.mem_Ico, hunused,
    ← h.maxAddress_eq]
  refine and_congr_left fun _ => ?_
  omega

theorem length_gapEntries (h : p.Records entries) (gapValue : Nat → Felt) :
    (p.gapEntries gapValue).length = (addressGaps entries).card := by
  have hnodup : (gaps (fun address => p.values.contains address) 1 (p.maxAddress - 1)).Nodup :=
    (List.nodup_range').filter _
  rw [gapEntries, List.length_map, ← h.toFinset_gaps, List.toFinset_card_of_nodup hnodup]

theorem mem_gapEntries (h : p.Records entries) {gapValue : Nat → Felt} {e : MemoryEntry} :
    e ∈ p.gapEntries gapValue ↔
      e.address ∈ addressGaps entries ∧ e.value = gapValue e.address := by
  rw [← h.toFinset_gaps, List.mem_toFinset, gapEntries, List.mem_map]
  constructor
  · rintro ⟨address, haddress, rfl⟩
    exact ⟨haddress, rfl⟩
  · rintro ⟨haddress, hvalue⟩
    exact ⟨e.address, haddress, congrArg (MemoryEntry.mk e.address) hvalue.symm⟩

end Records

/-! ## Pools of accesses -/

section Pushed

variable {positions publicStep publicOffset : Nat} {pushes : List (Nat × MemoryEntry)}
  (hok : (ofSize positions publicStep publicOffset).pushAll pushes = .ok p)
include hok

theorem size_of_pushAll : p.accesses.size = positions := by
  rw [← Array.length_toList, (of_pushAll hok).2.1, List.length_map, List.length_range]

theorem isPublic_of_pushAll {i : Nat} : p.isPublic i = true ↔ i % publicStep = publicOffset := by
  rw [(of_pushAll hok).2.2]
  exact beq_iff_eq

theorem isOwn_of_pushAll {i : Nat} : p.isOwn i = decide (i % publicStep ≠ publicOffset) := by
  rw [isOwn, Bool.eq_iff_iff, Bool.not_eq_true', ← Bool.not_eq_true, isPublic_of_pushAll hok,
    decide_eq_true_eq]

theorem publicCapacity_of_pushAll :
    p.publicCapacity = (publicPositions positions publicStep publicOffset).card := by
  have hpublic (i : Nat) : p.isPublic i = decide (i % publicStep = publicOffset) := by
    rw [Bool.eq_iff_iff, isPublic_of_pushAll hok, decide_eq_true_eq]
  rw [publicPositions, card_filter_range, publicCapacity, size_of_pushAll hok]
  exact congrArg (List.countP · _) (funext hpublic)

theorem freeCells_of_pushAll : freeCells p.isOwn 0 p.accesses.toList =
    (freePositions positions publicStep publicOffset pushes).card := by
  rw [(of_pushAll hok).2.1, List.range_eq_range', freeCells_map_range', ← List.range_eq_range',
    freePositions, card_filter_range]
  refine List.countP_congr fun i _ => ?_
  rw [Bool.and_eq_true, isOwn_of_pushAll hok, Option.isNone_iff_eq_none, lastPushed_eq_none_iff,
    decide_eq_true_eq, decide_eq_true_eq, and_comm, List.mem_map]
  refine and_congr_right fun _ => ?_
  constructor
  · rintro hfree ⟨q, hq, hposition⟩
    exact hfree q hq hposition
  · intro hfree q hq hposition
    exact hfree ⟨q, hq, hposition⟩

/-- A pool can be finished exactly if its accesses and the public memory fit. -/
theorem exists_finish_iff_fits {memory : List MemoryEntry} {padding : MemoryEntry}
    {gapValue : Nat → Felt} :
    (∃ pool sorted, (p.finish memory padding gapValue).2 = .ok (pool, sorted)) ↔
      Fits positions publicStep publicOffset pushes memory := by
  obtain ⟨hrecords, -⟩ := of_pushAll hok
  simp only [finish_eq_ok_iff hrecords, publicCapacity_of_pushAll hok, freeCells_of_pushAll hok]
  constructor
  · rintro ⟨pool, sorted, recorded, hrecord, hcapacity, hroom, -⟩
    refine ⟨hcapacity, hrecords.recordAll_iff.mp ⟨recorded, hrecord⟩, ?_⟩
    rwa [(hrecords.recordAll hrecord).1.length_gapEntries] at hroom
  · rintro ⟨hcapacity, hsingle, hroom⟩
    obtain ⟨recorded, hrecord⟩ := hrecords.recordAll_iff.mpr hsingle
    refine ⟨_, _, recorded, hrecord, hcapacity, ?_, rfl, rfl⟩
    rwa [(hrecords.recordAll hrecord).1.length_gapEntries]

theorem ownPart_of_pushAll {cells : List (Option MemoryEntry)}
    (h : freeCells p.isOwn 0 cells = 0) :
    ownPart publicStep publicOffset (p.traceEntries cells) = p.ownEntries cells := by
  rw [← filter_traceEntries h, ownPart]
  simp only [isOwn_of_pushAll hok]

/-- A pool that is finished has its accesses in place and a sorted copy without gaps. -/
theorem completes_of_finish (hdistinct : (pushes.map (·.1)).Nodup)
    (hown : ∀ q ∈ pushes, q.1 < positions ∧ q.1 % publicStep ≠ publicOffset)
    {memory : List MemoryEntry} {padding : MemoryEntry} {gapValue : Nat → Felt}
    (haddress : ∀ e ∈ pushes.map (·.2) ++ memory, e.address ≠ 0) (hpadding : padding ∈ memory)
    {pool sorted : List MemoryEntry}
    (hfinish : (p.finish memory padding gapValue).2 = .ok (pool, sorted)) :
    Completes positions publicStep publicOffset pushes memory padding gapValue pool sorted := by
  obtain ⟨hrecords, haccesses, hkept⟩ := of_pushAll hok
  have hsize := size_of_pushAll hok
  obtain ⟨recorded, cells, h⟩ := exists_isFinished hrecords hfinish
  have hprivate (q : Nat × MemoryEntry) (hq : q ∈ pushes) : p.isPublic q.1 = false :=
    Bool.eq_false_iff.mpr ((isPublic_of_pushAll hok).not.mpr (hown q hq).2)
  have hentries (e : MemoryEntry) :
      e ∈ p.ownEntries p.accesses.toList ↔ e ∈ pushes.map (·.2) :=
    mem_ownEntries_iff hdistinct
      (fun q hq => ⟨(hown q hq).1, congrFun hkept q.1 ▸ hprivate q hq⟩) hok
  have hcovers := h.covers hentries hpadding haddress
  have hgreatest : 1 ≤ recorded.maxAddress := by
    have hmem : padding ∈ pushes.map (·.2) ++ memory := List.mem_append_right _ hpadding
    exact (Nat.one_le_iff_ne_zero.mpr (haddress padding hmem)).trans
      (h.records.le_maxAddress padding hmem)
  refine ⟨?length, fun q hq => ?pushed, fun i hi => ?kept, ?perm, fun e => ?mem, ?first,
    fun i hi => ?climbs, ?single⟩
  case length => rw [h.length_pool, hsize]
  case pushed =>
    refine getElem?_of_finish hrecords hfinish ?_ (hprivate q hq)
    rw [haccesses, List.getElem?_map, List.getElem?_range (hown q hq).1, Option.map_some,
      lastPushed_eq_of_nodup hdistinct hq]
  case kept =>
    rw [publicPositions, Finset.mem_filter, Finset.mem_range, ← hsize] at hi
    exact h.getElem?_pool_of_isPublic hi.1 ((isPublic_of_pushAll hok).mpr hi.2)
  case perm =>
    rw [h.pool_eq, ownPart_of_pushAll hok h.full, ← publicCapacity_of_pushAll hok]
    exact h.sorted_perm
  case mem => rw [h.mem_sorted_iff hentries hpadding, h.records.mem_gapEntries]
  case first =>
    have hpos := hcovers.length_pos hgreatest
    have hfirst := hcovers.getElem_zero hgreatest hpos
    rw [← List.head?_map, List.head?_eq_getElem?, List.getElem?_eq_getElem hpos, hfirst]
  case climbs =>
    have hsucc := hcovers.getElem_succ (i := i) (by rwa [List.length_map])
    rwa [List.getElem_map, List.getElem_map] at hsucc
  case single => exact fun e he e' he' => h.value_eq_of_address_eq hentries hpadding he he'

/-- Accesses at different positions of their own, with a public memory that holds the padding, are
finished if and only if they fit, and then complete the pool. -/
theorem finish_iff_fits_and_completes (hdistinct : (pushes.map (·.1)).Nodup)
    (hown : ∀ q ∈ pushes, q.1 < positions ∧ q.1 % publicStep ≠ publicOffset)
    {memory : List MemoryEntry} {padding : MemoryEntry} (gapValue : Nat → Felt)
    (haddress : ∀ e ∈ pushes.map (·.2) ++ memory, e.address ≠ 0) (hpadding : padding ∈ memory) :
    ((∃ pool sorted, (p.finish memory padding gapValue).2 = .ok (pool, sorted)) ↔
      Fits positions publicStep publicOffset pushes memory) ∧
    ∀ pool sorted, (p.finish memory padding gapValue).2 = .ok (pool, sorted) →
      Completes positions publicStep publicOffset pushes memory padding gapValue pool sorted :=
  ⟨exists_finish_iff_fits hok, fun _ _ hfinish =>
    completes_of_finish hok hdistinct hown haddress hpadding hfinish⟩

end Pushed

/-- The gaps below address six take the four free positions of eight. -/
theorem completes_without_free_positions : ∃ (p : MemoryPool) (pool sorted : List MemoryEntry),
    (ofSize 8 4 1).pushAll [(0, ⟨1, 7⟩), (2, ⟨6, 9⟩)] = .ok p ∧
    (p.finish [⟨1, 7⟩] ⟨1, 7⟩ fun _ => 5).2 = .ok (pool, sorted) ∧
    (addressGaps [⟨1, 7⟩, ⟨6, 9⟩, ⟨1, 7⟩]).card =
      (freePositions 8 4 1 [(0, ⟨1, 7⟩), (2, ⟨6, 9⟩)]).card ∧
    Completes 8 4 1 [(0, ⟨1, 7⟩), (2, ⟨6, 9⟩)] [⟨1, 7⟩] ⟨1, 7⟩ (fun _ => 5) pool sorted := by
  have hfits : Fits 8 4 1 [(0, ⟨1, 7⟩), (2, ⟨6, 9⟩)] [⟨1, 7⟩] := by
    refine ⟨?_, ?_, ?_⟩ <;> decide
  obtain ⟨p, hok⟩ : ∃ p, (ofSize 8 4 1).pushAll [(0, ⟨1, 7⟩), (2, ⟨6, 9⟩)] = .ok p :=
    exists_pushAll_iff.mpr hfits.singleValued.of_append
  obtain ⟨hiff, hcompletes⟩ := finish_iff_fits_and_completes hok (by decide) (by decide)
    (fun _ => 5) (by decide) (List.mem_singleton_self ⟨1, 7⟩)
  obtain ⟨pool, sorted, hfinish⟩ := hiff.mpr hfits
  exact ⟨p, pool, sorted, hok, hfinish, by decide, hcompletes pool sorted hfinish⟩

end MemoryPool

end CairoTrace
