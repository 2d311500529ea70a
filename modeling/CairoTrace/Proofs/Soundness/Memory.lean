import CairoTrace.Proofs.Component.Core
import CairoTrace.Proofs.Component.PoolRows

/-!
# Soundness of the memory

A trace whose memory is accepted for all challenges reads one value at each address, and no address
is above the number of its accesses (`accesses_of_acceptsAll`). Each access has a code for every
`alpha` (`code`), and the last product of the memory replaces the places of the public memory, whose
codes in the pool are zero, by the public memory. So the products say, for enough challenges `z`,
that the sorted accesses have the same codes as those of the pool and of the public memory
(`AcceptsAll.codes_eq`). An access of the one is then an access of the other, since two different
accesses have the same code for one `alpha` at most (`exists_eq_of_code`), and the sorted accesses
are those of a memory (`Checks.sortedEntry_value_eq`).
-/

namespace CairoTrace

namespace MemoryCheck

open Finset
open Permutation (memoryTerm memoryQuotient memoryQuotient_eq_ok_iff eq_of_prod_sub_eq height
  height_le height_mono eq_of_height_succ_eq)

/-- The access at a position of the pool. -/
def poolEntry (columns : List (Array Felt)) (i : Nat) : MemoryEntry :=
  ⟨(address.cellAt columns i).val, value.cellAt columns i⟩

def sortedEntry (columns : List (Array Felt)) (i : Nat) : MemoryEntry :=
  ⟨(sortedAddress.cellAt columns i).val, sortedValue.cellAt columns i⟩

/-- Whether a position of the pool is kept for the public memory. -/
def IsPublic (i : Nat) : Prop := memoryStep * i % publicMemoryStep = publicMemoryOffset

instance (i : Nat) : Decidable (IsPublic i) := inferInstanceAs (Decidable (_ = _))

def ownPositions (n : Nat) : Finset Nat := {i ∈ range (n / memoryStep) | ¬ IsPublic i}

/-- Whether an access is one of the pool, outside the places of the public memory, or one of the
public memory. -/
def IsAccess (n : Nat) (columns : List (Array Felt)) (memory : List MemoryEntry)
    (e : MemoryEntry) : Prop :=
  (∃ i ∈ ownPositions n, poolEntry columns i = e) ∨ e ∈ memory

/-- Whether a trace has no violation of the memory constraints once a column of products is added,
for challenges `z` and `alpha` and the quotient of a public memory. -/
def Accepts (n : Nat) (columns : List (Array Felt)) (products : Nat) (z alpha quotient : Felt) :
    Prop :=
  ∃ (column : Array Felt) (challenges : List Felt) (hints : List (Option Felt)),
    challenges[Challenge.memoryZ.index]? = some z ∧
    challenges[Challenge.memoryAlpha.index]? = some alpha ∧
    hints[Hint.memoryQuotient.index]? = some (some quotient) ∧
    checkConstraints n (columns.set products column) (constraints products) [] challenges hints =
      .ok []

variable {n : Nat} {columns : List (Array Felt)} {products : Nat} {z alpha quotient : Felt}
  {memory : List MemoryEntry} {padding : MemoryEntry}

/-! ## Codes of accesses -/

/-- The field element that stands for an access. -/
def code (alpha : Felt) (e : MemoryEntry) : Felt := alpha * e.value + .ofNat e.address

theorem memoryTerm_eq : memoryTerm z alpha = (z - code alpha ·) := rfl

theorem accessTerm_eq {a v : Felt} : accessTerm z alpha a v = z - code alpha ⟨a.val, v⟩ := by
  have hcast : (.ofNat a.val : Felt) = a := a.natCast_val
  rw [accessTerm, code, hcast, add_comm]

theorem eq_of_code_eq {e e' : MemoryEntry} (he : e.address < starkPrime)
    (he' : e'.address < starkPrime) {alpha' : Felt} (hne : alpha ≠ alpha')
    (h : code alpha e = code alpha e') (h' : code alpha' e = code alpha' e') : e = e' := by
  unfold code at h h'
  have hproduct : (alpha - alpha') * (e.value - e'.value) = 0 := by linear_combination h - h'
  have hvalue : e.value = e'.value := by
    apply sub_eq_zero.mp
    exact (mul_eq_zero.mp hproduct).resolve_left (sub_ne_zero.mpr hne)
  have haddress : (e.address : Felt) = e'.address := by
    rw [hvalue] at h
    exact add_left_cancel h
  cases e
  cases e'
  cases hvalue
  cases Felt.natCast_inj_of_lt he he' haddress
  rfl

/-- An access all of whose codes are codes of some accesses is one of them, as long as these are
fewer than there are challenges. -/
theorem exists_eq_of_code {count : Nat} (hcount : count < starkPrime) {entries : Nat → MemoryEntry}
    (hentries : ∀ j, (entries j).address < starkPrime) {e : MemoryEntry}
    (he : e.address < starkPrime)
    (h : ∀ alpha, ∃ j < count, code alpha (entries j) = code alpha e) :
    ∃ j < count, entries j = e := by
  -- one of the accesses shares its code with `e` for two challenges, by the pigeonhole principle
  choose index hindex hcode using h
  have hcard : (range count).card < (univ : Finset Felt).card := by
    rw [card_range, card_univ, Felt.card_felt]
    exact hcount
  have hmaps : Set.MapsTo index (univ : Finset Felt) (range count) :=
    fun alpha _ => mem_coe.mpr (mem_range.mpr (hindex alpha))
  obtain ⟨alpha, -, alpha', -, hne, hsame⟩ := exists_ne_map_eq_of_card_lt_of_maps_to hcard hmaps
  refine ⟨index alpha, hindex alpha, ?_⟩
  apply eq_of_code_eq (hentries _) he hne (hcode alpha)
  rw [hsame]
  exact hcode alpha'

/-! ## The public memory -/

/-- A public memory with padding in the places that it does not use. -/
def fillPlaces (places : Nat) (memory : List MemoryEntry) (padding : MemoryEntry) :
    List MemoryEntry :=
  memory ++ List.replicate (places - memory.length) padding

theorem length_fillPlaces {places : Nat} (h : memory.length ≤ places) :
    (fillPlaces places memory padding).length = places := by
  rw [fillPlaces, List.length_append, List.length_replicate, Nat.add_sub_cancel' h]

theorem prod_map_fillPlaces (places : Nat) (term : MemoryEntry → Felt) :
    ((fillPlaces places memory padding).map term).prod =
      (memory.map term).prod * term padding ^ (places - memory.length) := by
  rw [fillPlaces, List.map_append, List.map_replicate, List.prod_append, List.prod_replicate]

theorem quotient_eq_ok_iff {step : Nat} :
    memoryQuotient z alpha n step memory padding = .ok quotient ↔
      memory.length ≤ n / step ∧
      ((fillPlaces (n / step) memory padding).map (memoryTerm z alpha)).prod ≠ 0 ∧
      z ^ (n / step) *
        ((fillPlaces (n / step) memory padding).map (memoryTerm z alpha)).prod⁻¹ = quotient := by
  rw [prod_map_fillPlaces, memoryQuotient_eq_ok_iff]

theorem filter_isPublic (hdvd : publicMemoryStep ∣ n) :
    {i ∈ range (n / memoryStep) | IsPublic i} =
      (range (n / publicMemoryStep)).image fun k => 4 * k + 1 := by
  obtain ⟨k, rfl⟩ := hdvd
  ext i
  rw [mem_filter, mem_image]
  simp only [mem_range, IsPublic, memoryStep, publicMemoryStep, publicMemoryOffset]
  constructor
  · rintro ⟨hi, hmod⟩
    exact ⟨i / 4, by omega, by omega⟩
  · rintro ⟨j, hj, rfl⟩
    omega

theorem card_filter_isPublic (hdvd : publicMemoryStep ∣ n) :
    ({i ∈ range (n / memoryStep) | IsPublic i}).card = n / publicMemoryStep := by
  rw [filter_isPublic hdvd, card_image_of_injective, card_range]
  intro j k h
  simpa using h

theorem card_ownPositions_add (hdvd : publicMemoryStep ∣ n) :
    (ownPositions n).card + n / publicMemoryStep = n / memoryStep := by
  rw [← card_filter_isPublic hdvd, ownPositions, add_comm, card_filter_add_card_filter_not,
    card_range]

/-- The cells kept for the public memory are those of every fourth access. -/
theorem publicAddress_cellAt (k : Nat) :
    publicAddress.cellAt columns k = address.cellAt columns (4 * k + 1) := by
  apply congrArg (traceCell columns _)
  simp only [VirtualColumn.row, address, publicAddress, memoryStep, publicMemoryStep,
    publicMemoryOffset]
  omega

theorem publicValue_cellAt (k : Nat) :
    publicValue.cellAt columns k = value.cellAt columns (4 * k + 1) := by
  apply congrArg (traceCell columns _)
  simp only [VirtualColumn.row, value, publicValue, publicAddress, VirtualColumn.valueColumn,
    VirtualColumn.shifted, memoryStep, publicMemoryStep, publicMemoryOffset]
  omega

/-- The products of the pool, in which the places of the public memory stand for nothing. -/
theorem Checks.prod_pool {cells : Nat → Felt} (h : Checks n columns cells z alpha quotient)
    (hdvd : publicMemoryStep ∣ n) :
    ∏ i ∈ range (n / memoryStep),
        accessTerm z alpha (address.cellAt columns i) (value.cellAt columns i) =
      z ^ (n / publicMemoryStep) *
        ∏ i ∈ ownPositions n, (z - code alpha (poolEntry columns i)) := by
  rw [← prod_filter_mul_prod_filter_not _ IsPublic]
  congr 1
  · rw [← card_filter_isPublic hdvd]
    apply prod_eq_pow_card
    intro i hi
    rw [filter_isPublic hdvd] at hi
    obtain ⟨k, hk, rfl⟩ := mem_image.mp hi
    have hk := mem_range.mp hk
    have haddress := h.publicAddress_zero k hk
    have hvalue := h.publicValue_zero k hk
    rw [publicAddress_cellAt] at haddress
    rw [publicValue_cellAt] at hvalue
    rw [haddress, hvalue, accessTerm, mul_zero, add_zero, sub_zero]
  · exact prod_congr rfl fun i _ => accessTerm_eq

/-! ## Sorted accesses -/

namespace Checks

variable {cells : Nat → Felt} (h : Checks n columns cells z alpha quotient)
include h

theorem sortedEntry_address (hbound : 1 + n ≤ starkPrime) {i : Nat} (hi : i < n / memoryStep) :
    (sortedEntry columns i).address = 1 + height (sortedAddress.cellAt columns) i := by
  have hrows : n / memoryStep ≤ n := Nat.div_le_self n memoryStep
  have hstart : sortedAddress.cellAt columns 0 = ((1 : Nat) : Felt) := by
    rw [h.initial, Nat.cast_one]
  exact h.climbs.val_eq hstart (by omega) hi

theorem sortedValue_succ_eq {i : Nat} (hi : i + 1 < n / memoryStep)
    (hheight : height (sortedAddress.cellAt columns) (i + 1) =
      height (sortedAddress.cellAt columns) i) :
    sortedValue.cellAt columns (i + 1) = sortedValue.cellAt columns i := by
  rcases h.isFunction i hi with hclimb | hsame
  · rw [eq_of_height_succ_eq hheight, sub_self] at hclimb
    exact absurd hclimb zero_ne_one
  · exact hsame.symm

/-- The sorted accesses have one value at each address. -/
theorem sortedEntry_value_eq (hbound : 1 + n ≤ starkPrime) {i j : Nat} (hle : i ≤ j)
    (hj : j < n / memoryStep)
    (heq : (sortedEntry columns i).address = (sortedEntry columns j).address) :
    (sortedEntry columns i).value = (sortedEntry columns j).value := by
  rw [h.sortedEntry_address hbound (lt_of_le_of_lt hle hj), h.sortedEntry_address hbound hj] at heq
  induction j, hle using Nat.le_induction with
  | base => rfl
  | succ j hle ih =>
    have hbefore := height_mono (s := sortedAddress.cellAt columns) hle
    have hafter := height_mono (s := sortedAddress.cellAt columns) (show j ≤ j + 1 by omega)
    rw [ih (by omega) (by omega)]
    exact (h.sortedValue_succ_eq hj (by omega)).symm

end Checks

/-! ## Accepted traces -/

/-- The check reads one column besides the main columns, which is that of the products. -/
theorem holds_set_iff {b : Bindings} {cells : Array Felt} (hn : isPowerOfTwo n = true)
    (hle : publicMemoryStep ≤ n) (hpool : products ≠ Column.memoryPool)
    (hsorted : products ≠ Column.memorySorted) :
    (∀ c ∈ constraints products, c.Holds n (columns.set products cells) [] b) ↔
      Checks n columns ((MemoryCheck.products products).cellAt (columns.set products cells))
        (Challenge.memoryZ.value b.challenges) (Challenge.memoryAlpha.value b.challenges)
        (Hint.memoryQuotient.value b.hints) := by
  have hset {c : VirtualColumn} (hc : products ≠ c.column) :
      c.cellAt (columns.set products cells) = c.cellAt columns :=
    funext fun _ => VirtualColumn.cellAt_set_of_ne hc
  rw [holds_iff hn hle, checks_iff, hset (c := sortedAddress) hsorted,
    hset (c := sortedValue) hsorted, hset (c := address) hpool, hset (c := value) hpool,
    hset (c := publicAddress) hpool, hset (c := publicValue) hpool, ← checks_iff]

/-- What an accepted trace satisfies; nothing is known of the products but that they exist. -/
theorem Accepts.exists_checks (h : Accepts n columns products z alpha quotient)
    (hle : publicMemoryStep ≤ n) (hpool : products ≠ Column.memoryPool)
    (hsorted : products ≠ Column.memorySorted) :
    ∃ cells, Checks n columns cells z alpha quotient := by
  obtain ⟨column, challenges, hints, hz, halpha, hquotient, hcheck⟩ := h
  obtain ⟨hn, -, hholds⟩ := holds_of_checkConstraints_eq_nil hcheck
  rw [holds_set_iff hn hle hpool hsorted, Challenge.value_eq hz, Challenge.value_eq halpha,
    Hint.value_eq hquotient] at hholds
  exact ⟨_, hholds⟩

/-- Conversely, a trace with a column that satisfies the check is accepted. -/
theorem accepts_of_checks (hn : isPowerOfTwo n = true) (hle : cycleHeight ≤ n)
    (hsize : ∀ column ∈ columns, column.size = n) (hcolumns : 6 ≤ columns.length)
    (hproducts : products < columns.length) (hpool : products ≠ Column.memoryPool)
    (hsorted : products ≠ Column.memorySorted) {cells : Array Felt} (hcells : cells.size = n)
    (h : Checks n columns ((MemoryCheck.products products).cellAt (columns.set products cells)) z
      alpha quotient) :
    Accepts n columns products z alpha quotient := by
  have hpublic : publicMemoryStep ≤ n := le_trans (by decide) hle
  have hvalues : Supply.HasValues ⟨columns.length, 0, 2, [.memoryQuotient]⟩
      ⟨[z, alpha], [none, none, none, none, some quotient], 0⟩ := by
    refine ⟨rfl, rfl, fun hint hmem => ⟨quotient, ?_⟩⟩
    rw [List.mem_singleton.mp hmem]
    rfl
  refine ⟨cells, [z, alpha], [none, none, none, none, some quotient], rfl, rfl, rfl, ?_⟩
  rw [checkConstraints_eq_nil_iff hn]
  · exact (holds_set_iff hn hpublic hpool hsorted).mpr h
  · intro column hcolumn
    rcases List.mem_or_eq_of_mem_set hcolumn with hmem | rfl
    · exact hsize column hmem
    · exact hcells
  · intro c hc
    rw [List.length_set]
    exact (isPlaced_of_mem hn hle hcolumns hproducts le_rfl (List.mem_singleton_self _) c
      hc).checkable hvalues

/-- The products of a memory that is accepted, once the powers of the challenge that stand for the
public memory are cancelled. -/
theorem Checks.prod_codes_eq {cells : Nat → Felt} (h : Checks n columns cells z alpha quotient)
    (hdvd : publicMemoryStep ∣ n) (hpos : 0 < n / memoryStep) (hz : z ≠ 0)
    (hquotient : memoryQuotient z alpha n publicMemoryStep memory padding = .ok quotient) :
    ∏ i ∈ range (n / memoryStep), (z - code alpha (sortedEntry columns i)) =
      (∏ i ∈ ownPositions n, (z - code alpha (poolEntry columns i))) *
        ((fillPlaces (n / publicMemoryStep) memory padding).map (z - code alpha ·)).prod := by
  rw [quotient_eq_ok_iff, memoryTerm_eq] at hquotient
  obtain ⟨-, hne, rfl⟩ := hquotient
  have hproducts := h.products.prod_mul_eq hpos
  rw [h.prod_pool hdvd] at hproducts
  simp only [accessTerm_eq] at hproducts
  have hpower : z ^ (n / publicMemoryStep) ≠ 0 := pow_ne_zero _ hz
  apply mul_left_cancel₀ hpower
  rw [← mul_assoc, ← hproducts]
  field_simp
  rfl

/-! ## All challenges -/

/-- Whether a trace is accepted for all challenges at which a public memory has a quotient, unless
one of the sorted terms is zero. -/
def AcceptsAll (n : Nat) (columns : List (Array Felt)) (products : Nat) (memory : List MemoryEntry)
    (padding : MemoryEntry) : Prop :=
  ∀ z alpha quotient,
    memoryQuotient z alpha n publicMemoryStep memory padding = .ok quotient →
    (∀ i < n / memoryStep,
      z ≠ sortedAddress.cellAt columns i + alpha * sortedValue.cellAt columns i) →
    Accepts n columns products z alpha quotient

/-- The challenges at which the products say nothing. -/
def avoided (n : Nat) (columns : List (Array Felt)) (memory : List MemoryEntry)
    (padding : MemoryEntry) (alpha : Felt) : Finset Felt :=
  insert 0 ((range (n / memoryStep)).image (code alpha ∘ sortedEntry columns) ∪
    ((fillPlaces (n / publicMemoryStep) memory padding).map (code alpha)).toFinset)

/-- There are enough other challenges to compare the products of a whole trace. -/
theorem le_card_compl_avoided (hword : n < 2 ^ 64)
    (hlength : memory.length ≤ n / publicMemoryStep) :
    n / memoryStep ≤ (avoided n columns memory padding alpha)ᶜ.card := by
  have hsorted : ((range (n / memoryStep)).image (code alpha ∘ sortedEntry columns)).card ≤
      n / memoryStep := card_image_le.trans_eq (card_range _)
  have hfill : ((fillPlaces (n / publicMemoryStep) memory padding).map (code alpha)).toFinset.card ≤
      n / publicMemoryStep := by
    apply (List.toFinset_card_le _).trans_eq
    rw [List.length_map, length_fillPlaces hlength]
  have havoided : (avoided n columns memory padding alpha).card ≤
      n / memoryStep + n / publicMemoryStep + 1 := by
    apply (card_insert_le _ _).trans
    apply Nat.succ_le_succ
    exact (card_union_le _ _).trans (Nat.add_le_add hsorted hfill)
  have hprime : 2 ^ 66 ≤ starkPrime := by decide
  have hhalf : n / memoryStep ≤ n := Nat.div_le_self _ _
  have heighth : n / publicMemoryStep ≤ n := Nat.div_le_self _ _
  rw [card_compl, Felt.card_felt]
  omega

namespace AcceptsAll

variable (h : AcceptsAll n columns products memory padding)
  (hle : publicMemoryStep ≤ n) (hpool : products ≠ Column.memoryPool)
  (hsorted : products ≠ Column.memorySorted) (hlength : memory.length ≤ n / publicMemoryStep)
include h hle hpool hsorted hlength

theorem exists_checks (hz : z ∉ avoided n columns memory padding alpha) :
    ∃ cells quotient, memoryQuotient z alpha n publicMemoryStep memory padding = .ok quotient ∧
      Checks n columns cells z alpha quotient := by
  rw [avoided, mem_insert, mem_union, not_or, not_or] at hz
  obtain ⟨-, hz, hfill⟩ := hz
  have hne : ((fillPlaces (n / publicMemoryStep) memory padding).map (memoryTerm z alpha)).prod ≠
      0 := by
    intro hzero
    obtain ⟨e, he, hterm⟩ := List.mem_map.mp (List.prod_eq_zero_iff.mp hzero)
    apply hfill
    rw [List.mem_toFinset, sub_eq_zero.mp hterm]
    exact List.mem_map_of_mem he
  have hquotient := quotient_eq_ok_iff.mpr ⟨hlength, hne, rfl⟩
  have haccepts := h z alpha _ hquotient ?_
  · obtain ⟨cells, hchecks⟩ := haccepts.exists_checks hle hpool hsorted
    exact ⟨cells, _, hquotient, hchecks⟩
  · rintro i hi rfl
    apply hz
    rw [mem_image]
    refine ⟨i, mem_range.mpr hi, ?_⟩
    exact (add_comm _ _).trans (congrArg (· + _) (Felt.natCast_val _))

variable (hn : isPowerOfTwo n = true) (hword : n < 2 ^ 64)
include hn hword

/-- The sorted accesses have the codes of the accesses of the pool and of the public memory. -/
theorem codes_eq (alpha : Felt) :
    (Multiset.range (n / memoryStep)).map (code alpha ∘ sortedEntry columns) =
      (ownPositions n).val.map (code alpha ∘ poolEntry columns) +
        ((fillPlaces (n / publicMemoryStep) memory padding).map (code alpha) : Multiset Felt) := by
  have hdvd : publicMemoryStep ∣ n := dvd_of_isPowerOfTwo (by decide) hn hle
  have hpos : 0 < n / memoryStep := Nat.div_pos (le_trans (by decide) hle) (by decide)
  have hchallenges :
      ((Multiset.range (n / memoryStep)).map (code alpha ∘ sortedEntry columns)).card ≤
        (avoided n columns memory padding alpha)ᶜ.card := by
    rw [Multiset.card_map, Multiset.card_range]
    exact le_card_compl_avoided hword hlength
  apply eq_of_prod_sub_eq ?_ hchallenges
  · intro z hz
    rw [mem_compl] at hz
    obtain ⟨cells, quotient, hquotient, hchecks⟩ := h.exists_checks hle hpool hsorted hlength hz
    have hz0 : z ≠ 0 := fun hzero => hz (hzero ▸ mem_insert_self 0 _)
    have hprod := hchecks.prod_codes_eq hdvd hpos hz0 hquotient
    rw [Multiset.map_add, Multiset.prod_add, Multiset.map_map, Multiset.map_map, Multiset.map_coe,
      List.map_map, Multiset.prod_coe]
    exact hprod
  · rw [Multiset.card_map, Multiset.card_range, Multiset.card_add, Multiset.card_map,
      Multiset.coe_card, List.length_map, length_fillPlaces hlength, card_val,
      card_ownPositions_add hdvd]

/-- Every access is one of the sorted accesses. -/
theorem exists_sortedEntry_eq (haddress : ∀ e ∈ memory, e.address < starkPrime) {e : MemoryEntry}
    (he : IsAccess n columns memory e) :
    ∃ j < n / memoryStep, sortedEntry columns j = e := by
  have hcount : n / memoryStep < starkPrime := by
    have hprime : 2 ^ 64 ≤ starkPrime := by decide
    have hhalf : n / memoryStep ≤ n := Nat.div_le_self _ _
    omega
  have hcanonical : e.address < starkPrime := by
    rcases he with ⟨i, -, rfl⟩ | he
    · exact (address.cellAt columns i).isLt
    · exact haddress e he
  apply exists_eq_of_code hcount (fun j => (sortedAddress.cellAt columns j).isLt) hcanonical
  intro alpha
  have hcode : code alpha e ∈ (ownPositions n).val.map (code alpha ∘ poolEntry columns) +
      ((fillPlaces (n / publicMemoryStep) memory padding).map (code alpha) : Multiset Felt) := by
    rw [Multiset.mem_add]
    rcases he with ⟨i, hi, rfl⟩ | he
    · exact Or.inl (Multiset.mem_map_of_mem (code alpha ∘ poolEntry columns) hi)
    · exact Or.inr (List.mem_map_of_mem (List.mem_append_left _ he))
  rw [← h.codes_eq hle hpool hsorted hlength hn hword alpha] at hcode
  obtain ⟨j, hj, hcode⟩ := Multiset.mem_map.mp hcode
  exact ⟨j, Multiset.mem_range.mp hj, hcode⟩

end AcceptsAll

/-- A trace whose memory is accepted reads one value at each address, and all addresses are between
one and the number of accesses. -/
theorem accesses_of_acceptsAll (hn : isPowerOfTwo n = true) (hle : cycleHeight ≤ n)
    (hword : n < 2 ^ 64) (hpool : products ≠ Column.memoryPool)
    (hsorted : products ≠ Column.memorySorted) (hlength : memory.length ≤ n / publicMemoryStep)
    (haddress : ∀ e ∈ memory, e.address < starkPrime)
    (h : AcceptsAll n columns products memory padding) :
    (∀ e e', IsAccess n columns memory e → IsAccess n columns memory e' →
        e.address = e'.address → e.value = e'.value) ∧
      ∀ e, IsAccess n columns memory e → 1 ≤ e.address ∧ e.address ≤ n / 2 := by
  have hpublic : publicMemoryStep ≤ n := le_trans (by decide) hle
  have hbound : 1 + n ≤ starkPrime := by
    have hprime : 2 ^ 64 ≤ starkPrime := by decide
    omega
  obtain ⟨z, hz⟩ : (avoided n columns memory padding 0)ᶜ.Nonempty := by
    apply card_pos.mp
    exact lt_of_lt_of_le (Nat.div_pos (le_trans (by decide) hle) (by decide))
      (le_card_compl_avoided hword hlength)
  obtain ⟨cells, quotient, -, hchecks⟩ :=
    h.exists_checks hpublic hpool hsorted hlength (mem_compl.mp hz)
  have hmem {e : MemoryEntry} (he : IsAccess n columns memory e) :=
    h.exists_sortedEntry_eq hpublic hpool hsorted hlength hn hword haddress he
  constructor
  · intro e e' he he' heq
    obtain ⟨i, hi, rfl⟩ := hmem he
    obtain ⟨j, hj, rfl⟩ := hmem he'
    rcases Nat.le_total i j with hij | hij
    · exact hchecks.sortedEntry_value_eq hbound hij hj heq
    · exact (hchecks.sortedEntry_value_eq hbound hij hi heq.symm).symm
  · intro e he
    obtain ⟨i, hi, rfl⟩ := hmem he
    have hheight := height_le (s := sortedAddress.cellAt columns) i
    rw [hchecks.sortedEntry_address hbound hi]
    have hhalf : n / memoryStep = n / 2 := rfl
    omega

/-- The columns of a small trace with two addresses, which has places for the public memory at the
second and the sixth access of the pool. -/
def sampleColumns : List (Array Felt) :=
  columnsOfNumbers [.replicate 16 0, .replicate 16 0, .replicate 16 0,
    [1, 7, 0, 0, 1, 7, 1, 7, 2, 9, 0, 0, 2, 9, 2, 9],
    [1, 7, 1, 7, 1, 7, 1, 7, 2, 9, 2, 9, 2, 9, 2, 9], .replicate 16 0]

/-- The products of that trace, which grow by `p` and by `q` at the places of the public memory. -/
def sampleProducts (p q : Felt) : Array Felt :=
  #[1, 0, p, 0, p, 0, p, 0, p, 0, p * q, 0, p * q, 0, p * q, 0]

theorem checks_sample {p q : Felt} (hp : (z - (1 + alpha * 7)) * p = z)
    (hq : (z - (2 + alpha * 9)) * q = z) :
    Checks 16 sampleColumns
      ((MemoryCheck.products 5).cellAt (sampleColumns.set 5 (sampleProducts p q))) z alpha
      (p * q) := by
  refine ⟨⟨?init, ?step, rfl⟩, ?climbs, ?isFunction, rfl, ?publicAddress, ?publicValue⟩
  case init => exact mul_one (z - (1 + alpha * 7))
  case step =>
    intro i hi
    have hlt : i < 7 := Nat.lt_of_succ_lt_succ hi
    interval_cases i
    case «0» =>
      change (z - (1 + alpha * 7)) * p = (z - (0 + alpha * 0)) * 1
      linear_combination hp
    case «4» =>
      change (z - (2 + alpha * 9)) * (p * q) = (z - (0 + alpha * 0)) * p
      linear_combination p * hq
    all_goals rfl
  case climbs =>
    intro i hi
    have hlt : i < 7 := Nat.lt_of_succ_lt_succ hi
    interval_cases i
    case «3» => exact Or.inr rfl
    all_goals exact Or.inl rfl
  case isFunction =>
    intro i hi
    have hlt : i < 7 := Nat.lt_of_succ_lt_succ hi
    interval_cases i
    case «3» => exact Or.inl rfl
    all_goals exact Or.inr rfl
  case publicAddress =>
    intro i hi
    have hlt : i < 2 := hi
    interval_cases i <;> rfl
  case publicValue =>
    intro i hi
    have hlt : i < 2 := hi
    interval_cases i <;> rfl

theorem acceptsAll_sample : AcceptsAll 16 sampleColumns 5 [⟨1, 7⟩, ⟨2, 9⟩] ⟨1, 7⟩ := by
  intro z alpha quotient hquotient hz
  obtain ⟨-, -, rfl⟩ := quotient_eq_ok_iff.mp hquotient
  have hone : z - (1 + alpha * 7) ≠ 0 := sub_ne_zero.mpr (hz 0 (by decide))
  have htwo : z - (2 + alpha * 9) ≠ 0 := sub_ne_zero.mpr (hz 4 (by decide))
  have hchecks := checks_sample (mul_div_cancel₀ z hone) (mul_div_cancel₀ z htwo)
  have hlast : z / (z - (1 + alpha * 7)) * (z / (z - (2 + alpha * 9))) =
      z ^ 2 * ((z - (alpha * 7 + 1)) * ((z - (alpha * 9 + 2)) * 1))⁻¹ := by
    rw [mul_one, add_comm _ 1, add_comm _ 2]
    field_simp
  rw [hlast] at hchecks
  exact accepts_of_checks (by decide) (by decide) (by decide) (by decide) (by decide) (by decide)
    (by decide) rfl hchecks

theorem accesses_sample :
    (∀ e e', IsAccess 16 sampleColumns [⟨1, 7⟩, ⟨2, 9⟩] e →
        IsAccess 16 sampleColumns [⟨1, 7⟩, ⟨2, 9⟩] e' → e.address = e'.address →
        e.value = e'.value) ∧
      ∀ e, IsAccess 16 sampleColumns [⟨1, 7⟩, ⟨2, 9⟩] e → 1 ≤ e.address ∧ e.address ≤ 16 / 2 :=
  accesses_of_acceptsAll (by decide) (by decide) (by decide) (by decide) (by decide) (by decide)
    (by decide) acceptsAll_sample

end MemoryCheck

end CairoTrace
