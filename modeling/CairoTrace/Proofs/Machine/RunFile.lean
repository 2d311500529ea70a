import CairoTrace.Machine.RunFile
import CairoTrace.Proofs.Pool.Pushes
import Mathlib.Tactic

/-!
# What the files of a run say

Both files are lists of records, one after the other. Reading undoes the writing of records
(`Memory.entriesOfBytes_flatMap`, `Registers.listOfBytes_flatMap`), and all other bytes are refused
for the first record that is not one (`Memory.Refuses`, `Memory.exists_entries_append`). In the
memory that is read an address has the value of its last record (`Memory.get?_ofList`). All of this
together is `runFiles_read_records`.
-/

namespace CairoTrace

/-! ## Numbers -/

/-- The bytes that write a number, the lowest first. -/
def bytesOf : (length n : Nat) → List UInt8
  | 0, _ => []
  | length + 1, n => .ofNat (n % 256) :: bytesOf length (n / 256)

@[simp] theorem length_bytesOf (length n : Nat) : (bytesOf length n).length = length := by
  induction length generalizing n with
  | zero => rfl
  | succ length ih => rw [bytesOf, List.length_cons, ih]

theorem ofBytes_bytesOf {length n : Nat} (h : n < 256 ^ length) :
    ofBytes (bytesOf length n) = n := by
  induction length generalizing n with
  | zero =>
    obtain rfl : n = 0 := Nat.lt_one_iff.mp h
    rfl
  | succ length ih =>
    have hrest : n / 256 < 256 ^ length := by
      rw [pow_succ] at h
      exact Nat.div_lt_of_lt_mul (by rwa [mul_comm] at h)
    have hbyte : (UInt8.ofNat (n % 256)).toNat = n % 256 := by
      rw [UInt8.toNat_ofNat']
      omega
    rw [bytesOf, ofBytes, ih hrest, hbyte, Nat.mod_add_div]

theorem ofBytes_lt (bytes : List UInt8) : ofBytes bytes < 256 ^ bytes.length := by
  induction bytes with
  | nil => exact Nat.one_pos
  | cons b rest ih =>
    have hb := b.toNat_lt
    rw [ofBytes, List.length_cons, pow_succ]
    omega

theorem bytesOf_ofBytes (bytes : List UInt8) : bytesOf bytes.length (ofBytes bytes) = bytes := by
  induction bytes with
  | nil => rfl
  | cons b rest ih =>
    have hb := b.toNat_lt
    have hmod : (b.toNat + 256 * ofBytes rest) % 256 = b.toNat := by omega
    have hdiv : (b.toNat + 256 * ofBytes rest) / 256 = ofBytes rest := by omega
    rw [ofBytes, List.length_cons, bytesOf, hmod, hdiv, ih, UInt8.ofNat_toNat]

/-- Enough bytes start with a number. -/
theorem exists_bytesOf_append {length : Nat} {bytes : List UInt8} (h : length ≤ bytes.length) :
    ∃ n rest, n < 256 ^ length ∧ bytes = bytesOf length n ++ rest := by
  have hlt := ofBytes_lt (bytes.take length)
  have hbytes := bytesOf_ofBytes (bytes.take length)
  rw [List.length_take_of_le h] at hlt hbytes
  refine ⟨ofBytes (bytes.take length), bytes.drop length, hlt, ?_⟩
  rw [hbytes, List.take_append_drop]

/-! ## Memory -/

namespace Memory

/-- The bytes of an address and its value. -/
def recordBytes (e : Nat × Word) : List UInt8 := bytesOf 8 e.1 ++ bytesOf Felt.byteLength e.2

/-- An address is a word of eight bytes, and a value is below the modulus of the field. -/
def IsRecord (e : Nat × Word) : Prop := e.1 < 2 ^ 64 ∧ e.2 < starkPrime

/-- Why bytes do not start with a record. -/
inductive Refuses : List UInt8 → InputError → Prop
  | shortAddress {bytes : List UInt8} (hne : bytes ≠ []) (hshort : bytes.length < 8) :
    Refuses bytes .shortRecord
  | shortValue {bytes : List UInt8} (haddress : 8 ≤ bytes.length)
    (hshort : bytes.length < 8 + Felt.byteLength) : Refuses bytes .shortValue
  | invalidValue {e : Nat × Word} (rest : List UInt8) (haddress : e.1 < 2 ^ 64)
    (hvalue : e.2 < 2 ^ 256) (hlarge : starkPrime ≤ e.2) :
    Refuses (recordBytes e ++ rest) (.invalidFieldElement e.2 starkPrime)

variable {e : Nat × Word} {entries : List (Nat × Word)} {bytes rest : List UInt8}
  {error : InputError}

theorem byteLength_eq : Felt.byteLength = 32 := by decide

@[simp] theorem length_recordBytes (e : Nat × Word) :
    (recordBytes e).length = 8 + Felt.byteLength := by
  rw [recordBytes, List.length_append, length_bytesOf, length_bytesOf]

/-- Enough bytes start with the bytes of an address and of a number. -/
theorem exists_recordBytes_append (h : 8 + Felt.byteLength ≤ bytes.length) :
    ∃ e rest, e.1 < 2 ^ 64 ∧ e.2 < 2 ^ 256 ∧ bytes = recordBytes e ++ rest := by
  obtain ⟨address, tail, haddress, rfl⟩ := exists_bytesOf_append (Nat.le_of_add_right_le h)
  rw [List.length_append, length_bytesOf, Nat.add_le_add_iff_left] at h
  obtain ⟨value, rest, hvalue, rfl⟩ := exists_bytesOf_append h
  refine ⟨(address, value), rest, haddress.trans_eq (by norm_num), ?_,
    (List.append_assoc _ _ _).symm⟩
  exact hvalue.trans_eq (by rw [byteLength_eq]; norm_num)

@[simp] theorem entriesOfBytes_nil : entriesOfBytes [] = .ok [] := by
  rw [entriesOfBytes, if_pos rfl]

/-- A record is read if its value is below the modulus. -/
theorem entriesOfBytes_recordBytes_append (haddress : e.1 < 2 ^ 64) (hvalue : e.2 < 2 ^ 256) :
    entriesOfBytes (recordBytes e ++ rest) =
      if e.2 < starkPrime then (entriesOfBytes rest).map (e :: ·)
      else .error (.invalidFieldElement e.2 starkPrime) := by
  have hlength := length_bytesOf 8 e.1
  have htake : (recordBytes e ++ rest).take 8 = bytesOf 8 e.1 := by
    rw [recordBytes, List.append_assoc, List.take_left' hlength]
  have hdrop : ((recordBytes e ++ rest).drop 8).take Felt.byteLength =
      bytesOf Felt.byteLength e.2 := by
    rw [recordBytes, List.append_assoc, List.drop_left' hlength,
      List.take_left' (length_bytesOf _ _)]
  have hrest : (recordBytes e ++ rest).drop (8 + Felt.byteLength) = rest :=
    List.drop_left' (length_recordBytes e)
  have hne : recordBytes e ++ rest ≠ [] := by
    intro hnil
    have hlength := congrArg List.length hnil
    rw [List.length_append, length_recordBytes, List.length_nil] at hlength
    omega
  have haddress_eq : CairoTrace.ofBytes (bytesOf 8 e.1) = e.1 :=
    ofBytes_bytesOf (haddress.trans_eq (by norm_num))
  have hvalue_eq : CairoTrace.ofBytes (bytesOf Felt.byteLength e.2) = e.2 :=
    ofBytes_bytesOf (hvalue.trans_eq (by rw [byteLength_eq]; norm_num))
  rw [entriesOfBytes]
  simp only [hne, htake, hdrop, hrest, length_bytesOf, lt_irrefl, if_false, haddress_eq,
    hvalue_eq, residueOf, Residue.ofCanonical?]
  by_cases hlt : e.2 < starkPrime
  · rw [dif_pos hlt, if_pos hlt]
    cases entriesOfBytes rest with
    | error error => rfl
    | ok entries => rfl
  · rw [dif_neg hlt, if_neg hlt]
    rfl

/-- Records are read one after the other. -/
theorem entriesOfBytes_flatMap_append (h : ∀ e ∈ entries, IsRecord e) :
    entriesOfBytes (entries.flatMap recordBytes ++ rest) =
      (entriesOfBytes rest).map (entries ++ ·) := by
  induction entries with
  | nil => cases hrest : entriesOfBytes rest <;> simp [Except.map, hrest]
  | cons e entries ih =>
    obtain ⟨⟨haddress, hvalue⟩, hentries⟩ := List.forall_mem_cons.mp h
    have hlarge : starkPrime < 2 ^ 256 := by decide
    rw [List.flatMap_cons, List.append_assoc,
      entriesOfBytes_recordBytes_append haddress (hvalue.trans hlarge), if_pos hvalue,
      ih hentries]
    cases entriesOfBytes rest with
    | error error => rfl
    | ok entries => rfl

/-- Reading undoes the writing of records. -/
theorem entriesOfBytes_flatMap (h : ∀ e ∈ entries, IsRecord e) :
    entriesOfBytes (entries.flatMap recordBytes) = .ok entries := by
  rw [← List.append_nil (entries.flatMap recordBytes), entriesOfBytes_flatMap_append h,
    entriesOfBytes_nil, Except.map, List.append_nil]

theorem entriesOfBytes_of_refuses (h : Refuses bytes error) :
    entriesOfBytes bytes = .error error := by
  cases h with
  | shortAddress hne hshort =>
    rw [entriesOfBytes]
    simp [hne, hshort]
  | shortValue haddress hshort =>
    have hne : bytes ≠ [] := List.ne_nil_of_length_pos (by omega)
    rw [entriesOfBytes]
    simp [hne, not_lt.mpr haddress, Nat.sub_lt_left_of_lt_add haddress hshort]
  | invalidValue rest haddress hvalue hlarge =>
    rw [entriesOfBytes_recordBytes_append haddress hvalue, if_neg (not_lt.mpr hlarge)]

theorem exists_isRecord_or_refuses (h : bytes ≠ []) :
    (∃ e rest, IsRecord e ∧ bytes = recordBytes e ++ rest) ∨ ∃ error, Refuses bytes error := by
  by_cases haddress : bytes.length < 8
  · exact Or.inr ⟨_, .shortAddress h haddress⟩
  · by_cases hvalue : bytes.length < 8 + Felt.byteLength
    · exact Or.inr ⟨_, .shortValue (not_lt.mp haddress) hvalue⟩
    · obtain ⟨e, rest, hword, hbytes, rfl⟩ := exists_recordBytes_append (not_lt.mp hvalue)
      by_cases hlt : e.2 < starkPrime
      · exact Or.inl ⟨e, rest, ⟨hword, hlt⟩, rfl⟩
      · exact Or.inr ⟨_, .invalidValue rest hword hbytes (not_lt.mp hlt)⟩

/-- Bytes are records up to their end or to the first that is refused. -/
theorem exists_entries_append (bytes : List UInt8) :
    ∃ (entries : List (Nat × Word)) (rest : List UInt8), (∀ e ∈ entries, IsRecord e) ∧
      bytes = entries.flatMap recordBytes ++ rest ∧
      (rest = [] ∨ ∃ error, Refuses rest error) := by
  induction hlength : bytes.length using Nat.strong_induction_on generalizing bytes with
  | _ length ih =>
    by_cases hnil : bytes = []
    · exact ⟨[], [], nofun, hnil, Or.inl rfl⟩
    · rcases exists_isRecord_or_refuses hnil with ⟨e, rest, he, rfl⟩ | hrefuses
      · rw [List.length_append, length_recordBytes] at hlength
        obtain ⟨entries, last, hentries, rfl, hlast⟩ := ih rest.length (by omega) rest rfl
        exact ⟨e :: entries, last, List.forall_mem_cons.mpr ⟨he, hentries⟩,
          (List.append_assoc _ _ _).symm, hlast⟩
      · exact ⟨[], bytes, nofun, rfl, Or.inr hrefuses⟩

theorem ofBytes_eq_map (bytes : List UInt8) : ofBytes bytes = (entriesOfBytes bytes).map ofList := by
  rw [ofBytes]
  cases entriesOfBytes bytes with
  | error error => rfl
  | ok entries => rfl

/-- The memories that are read are those of records. -/
theorem ofBytes_eq_ok_iff {m : Memory} : ofBytes bytes = .ok m ↔
    ∃ entries : List (Nat × Word), (∀ e ∈ entries, IsRecord e) ∧
      bytes = entries.flatMap recordBytes ∧ m = ofList entries := by
  rw [ofBytes_eq_map]
  constructor
  · intro h
    obtain ⟨entries, rest, hentries, rfl, rfl | ⟨error, hrefuses⟩⟩ := exists_entries_append bytes
    · rw [entriesOfBytes_flatMap_append hentries, entriesOfBytes_nil] at h
      exact ⟨entries, hentries, List.append_nil _,
        (Except.ok.inj h).symm.trans (congrArg ofList (List.append_nil entries))⟩
    · rw [entriesOfBytes_flatMap_append hentries, entriesOfBytes_of_refuses hrefuses] at h
      cases h
  · rintro ⟨entries, hentries, rfl, rfl⟩
    rw [entriesOfBytes_flatMap hentries, Except.map]

/-- Other bytes are refused for what comes after the first records. -/
theorem ofBytes_eq_error_iff : ofBytes bytes = .error error ↔
    ∃ (entries : List (Nat × Word)) (rest : List UInt8), (∀ e ∈ entries, IsRecord e) ∧
      bytes = entries.flatMap recordBytes ++ rest ∧ Refuses rest error := by
  rw [ofBytes_eq_map]
  constructor
  · intro h
    obtain ⟨entries, rest, hentries, rfl, rfl | ⟨error', hrefuses⟩⟩ := exists_entries_append bytes
    · rw [entriesOfBytes_flatMap_append hentries, entriesOfBytes_nil] at h
      cases h
    · rw [entriesOfBytes_flatMap_append hentries, entriesOfBytes_of_refuses hrefuses] at h
      obtain rfl := Except.error.inj h
      exact ⟨entries, rest, hentries, rfl, hrefuses⟩
  · rintro ⟨entries, rest, hentries, rfl, hrefuses⟩
    rw [entriesOfBytes_flatMap_append hentries, entriesOfBytes_of_refuses hrefuses]
    rfl

/-! ### Addresses -/

theorem ofList_append_singleton (entries : List (Nat × Word)) (e : Nat × Word) :
    ofList (entries ++ [e]) = (ofList entries).insert e.1 e.2 := by
  rw [ofList, List.foldl_append, List.foldl_cons, List.foldl_nil, ofList]

/-- The last of the entries at an address counts. -/
theorem get?_ofList (entries : List (Nat × Word)) (a : Nat) :
    (ofList entries).get? a = Pool.lastPushed entries a := by
  induction entries using List.reverseRecOn with
  | nil => exact get?_empty a
  | append_singleton entries e ih =>
    rw [ofList_append_singleton, get?_insert, Pool.lastPushed_append_singleton, ih]

theorem get_ofList_eq_ok_iff {a : Nat} {word : Word} :
    (ofList entries).get a = .ok word ↔ Pool.lastPushed entries a = some word := by
  rw [get_eq_ok_iff, get?_ofList]

/-- An address without an entry is missing. -/
theorem get_ofList_eq_missing_iff {a : Nat} :
    (ofList entries).get a = .error (.missingMemory a) ↔ ∀ e ∈ entries, e.1 ≠ a := by
  rw [← Pool.lastPushed_eq_none_iff, ← get?_ofList, get]
  cases (ofList entries).get? a <;> simp

theorem extent_ofList_le_iff {n : Nat} : (ofList entries).extent ≤ n ↔ ∀ e ∈ entries, e.1 < n := by
  induction entries using List.reverseRecOn with
  | nil => simp [ofList, empty]
  | append_singleton entries e ih =>
    rw [ofList_append_singleton, insert, max_le_iff, ih, List.forall_mem_append,
      List.forall_mem_singleton, Nat.succ_le_iff]

end Memory

/-! ## Registers -/

namespace Registers

/-- The bytes of the registers before a step. -/
def recordBytes (r : Registers) : List UInt8 := bytesOf 8 r.ap ++ bytesOf 8 r.fp ++ bytesOf 8 r.pc

/-- The registers are words of eight bytes. -/
def IsRecord (r : Registers) : Prop := r.ap < 2 ^ 64 ∧ r.fp < 2 ^ 64 ∧ r.pc < 2 ^ 64

variable {r : Registers} {states : List Registers} {bytes rest : List UInt8}

@[simp] theorem length_recordBytes (r : Registers) : (recordBytes r).length = recordLength := by
  simp [recordBytes, recordLength]

/-- Enough bytes start with the bytes of three numbers. -/
theorem exists_recordBytes_append (h : recordLength ≤ bytes.length) :
    ∃ r rest, IsRecord r ∧ bytes = recordBytes r ++ rest := by
  have hword {n : Nat} (hn : n < 256 ^ 8) : n < 2 ^ 64 := hn.trans_eq (by norm_num)
  have hap : 8 ≤ bytes.length := le_trans (by decide) h
  obtain ⟨ap, bytes, hap_lt, rfl⟩ := exists_bytesOf_append hap
  rw [List.length_append, length_bytesOf, recordLength] at h
  have hfp : 8 ≤ bytes.length := by omega
  obtain ⟨fp, bytes, hfp_lt, rfl⟩ := exists_bytesOf_append hfp
  rw [List.length_append, length_bytesOf] at h
  have hpc : 8 ≤ bytes.length := by omega
  obtain ⟨pc, rest, hpc_lt, rfl⟩ := exists_bytesOf_append hpc
  refine ⟨⟨ap, fp, pc⟩, rest, ⟨hword hap_lt, hword hfp_lt, hword hpc_lt⟩, ?_⟩
  rw [recordBytes, List.append_assoc, List.append_assoc]

@[simp] theorem listOfBytes_nil : listOfBytes [] = .ok [] := by
  rw [listOfBytes, if_pos rfl]

theorem listOfBytes_recordBytes_append (h : IsRecord r) :
    listOfBytes (recordBytes r ++ rest) = (listOfBytes rest).map (r :: ·) := by
  have hlength := length_recordBytes r
  have htake : (recordBytes r ++ rest).take recordLength = recordBytes r :=
    List.take_left' hlength
  have hdrop : (recordBytes r ++ rest).drop recordLength = rest := List.drop_left' hlength
  have hne : recordBytes r ++ rest ≠ [] := by
    intro hnil
    have hzero := congrArg List.length hnil
    rw [List.length_append, hlength, List.length_nil, recordLength] at hzero
    omega
  have hread {n : Nat} (hn : n < 2 ^ 64) : ofBytes (bytesOf 8 n) = n :=
    ofBytes_bytesOf (hn.trans_eq (by norm_num))
  have hap : (recordBytes r).take 8 = bytesOf 8 r.ap := by
    rw [recordBytes, List.append_assoc, List.take_left' (length_bytesOf _ _)]
  have hfp : ((recordBytes r).drop 8).take 8 = bytesOf 8 r.fp := by
    rw [recordBytes, List.append_assoc, List.drop_left' (length_bytesOf _ _),
      List.take_left' (length_bytesOf _ _)]
  have hpc : (recordBytes r).drop 16 = bytesOf 8 r.pc := by
    rw [recordBytes, List.drop_left' (by simp)]
  rw [listOfBytes]
  simp only [hne, htake, hdrop, hlength, lt_irrefl, if_false, hap, hfp, hpc, hread h.1,
    hread h.2.1, hread h.2.2]
  cases listOfBytes rest with
  | error error => rfl
  | ok states => rfl

/-- Records are read one after the other. -/
theorem listOfBytes_flatMap_append (h : ∀ r ∈ states, IsRecord r) :
    listOfBytes (states.flatMap recordBytes ++ rest) =
      (listOfBytes rest).map (states ++ ·) := by
  induction states with
  | nil => cases hrest : listOfBytes rest <;> simp [Except.map, hrest]
  | cons r states ih =>
    obtain ⟨hr, hstates⟩ := List.forall_mem_cons.mp h
    rw [List.flatMap_cons, List.append_assoc, listOfBytes_recordBytes_append hr, ih hstates]
    cases listOfBytes rest with
    | error error => rfl
    | ok states => rfl

/-- Reading undoes the writing of records. -/
theorem listOfBytes_flatMap (h : ∀ r ∈ states, IsRecord r) :
    listOfBytes (states.flatMap recordBytes) = .ok states := by
  rw [← List.append_nil (states.flatMap recordBytes), listOfBytes_flatMap_append h,
    listOfBytes_nil, Except.map, List.append_nil]

theorem listOfBytes_of_length_lt (hne : bytes ≠ []) (hshort : bytes.length < recordLength) :
    listOfBytes bytes = .error .shortRecord := by
  rw [listOfBytes]
  simp [hne, hshort]

/-- Bytes are records and less than one more. -/
theorem exists_states_append (bytes : List UInt8) :
    ∃ (states : List Registers) (rest : List UInt8), (∀ r ∈ states, IsRecord r) ∧
      bytes = states.flatMap recordBytes ++ rest ∧ rest.length < recordLength := by
  induction hlength : bytes.length using Nat.strong_induction_on generalizing bytes with
  | _ length ih =>
    by_cases hshort : bytes.length < recordLength
    · exact ⟨[], bytes, nofun, rfl, hshort⟩
    · obtain ⟨r, rest, hr, rfl⟩ := exists_recordBytes_append (not_lt.mp hshort)
      rw [List.length_append, length_recordBytes, recordLength] at hlength
      obtain ⟨states, last, hstates, rfl, hlast⟩ := ih rest.length (by omega) rest rfl
      exact ⟨r :: states, last, List.forall_mem_cons.mpr ⟨hr, hstates⟩,
        (List.append_assoc _ _ _).symm, hlast⟩

theorem length_flatMap_recordBytes (states : List Registers) :
    (states.flatMap recordBytes).length = recordLength * states.length := by
  induction states with
  | nil => rfl
  | cons r states ih =>
    rw [List.flatMap_cons, List.length_append, length_recordBytes, ih, List.length_cons, mul_add,
      mul_one, add_comm]

/-- The lists that are read are those of records. -/
theorem listOfBytes_eq_ok_iff : listOfBytes bytes = .ok states ↔
    (∀ r ∈ states, IsRecord r) ∧ bytes = states.flatMap recordBytes := by
  constructor
  · intro h
    obtain ⟨states', rest, hstates, rfl, hshort⟩ := exists_states_append bytes
    rw [listOfBytes_flatMap_append hstates] at h
    by_cases hnil : rest = []
    · rw [hnil, listOfBytes_nil, Except.map, List.append_nil, Except.ok.injEq] at h
      subst h
      exact ⟨hstates, by rw [hnil, List.append_nil]⟩
    · rw [listOfBytes_of_length_lt hnil hshort] at h
      cases h
  · rintro ⟨hstates, rfl⟩
    exact listOfBytes_flatMap hstates

/-- Bytes are refused only if a record at their end is short. -/
theorem listOfBytes_eq (bytes : List UInt8) :
    (∃ states, listOfBytes bytes = .ok states) ∧ recordLength ∣ bytes.length ∨
      listOfBytes bytes = .error .shortRecord ∧ ¬ recordLength ∣ bytes.length := by
  obtain ⟨states, rest, hstates, rfl, hshort⟩ := exists_states_append bytes
  have hdvd : recordLength ∣ (states.flatMap recordBytes ++ rest).length ↔ rest = [] := by
    rw [List.length_append, length_flatMap_recordBytes,
      Nat.dvd_add_right (Nat.dvd_mul_right _ _), ← List.length_eq_zero_iff]
    exact ⟨fun h => Nat.eq_zero_of_dvd_of_lt h hshort, fun h => h ▸ Nat.dvd_zero _⟩
  rw [hdvd, listOfBytes_flatMap_append hstates]
  by_cases hnil : rest = []
  · rw [hnil, listOfBytes_nil]
    exact Or.inl ⟨⟨_, rfl⟩, rfl⟩
  · rw [listOfBytes_of_length_lt hnil hshort]
    exact Or.inr ⟨rfl, hnil⟩

end Registers

/-- The grammar of both files. A memory is read from the bytes of its records and from no others;
other bytes are refused for what comes after the first records. Lists of registers are read from
the bytes of their records, that is from all bytes of the length of some records. -/
theorem runFiles_read_records :
    (∀ (bytes : List UInt8) (m : Memory), Memory.ofBytes bytes = .ok m ↔
      ∃ entries : List (Nat × Word), (∀ e ∈ entries, Memory.IsRecord e) ∧
        bytes = entries.flatMap Memory.recordBytes ∧ m = Memory.ofList entries) ∧
    (∀ (bytes : List UInt8) (error : InputError), Memory.ofBytes bytes = .error error ↔
      ∃ (entries : List (Nat × Word)) (rest : List UInt8), (∀ e ∈ entries, Memory.IsRecord e) ∧
        bytes = entries.flatMap Memory.recordBytes ++ rest ∧ Memory.Refuses rest error) ∧
    (∀ (entries : List (Nat × Word)) (a : Nat) (word : Word),
      (Memory.ofList entries).get a = .ok word ↔ Pool.lastPushed entries a = some word) ∧
    (∀ (entries : List (Nat × Word)) (a : Nat),
      (Memory.ofList entries).get a = .error (.missingMemory a) ↔ ∀ e ∈ entries, e.1 ≠ a) ∧
    (∀ entries : List (Nat × Word), (Memory.ofList entries).fits = true ↔
      ∀ e ∈ entries, e.1 < maxCells Memory.cellBytes) ∧
    (∀ (bytes : List UInt8) (states : List Registers), Registers.listOfBytes bytes = .ok states ↔
      (∀ r ∈ states, Registers.IsRecord r) ∧ bytes = states.flatMap Registers.recordBytes) ∧
    (∀ bytes : List UInt8, (∃ states, Registers.listOfBytes bytes = .ok states) ∧
        Registers.recordLength ∣ bytes.length ∨
      Registers.listOfBytes bytes = .error .shortRecord ∧
        ¬ Registers.recordLength ∣ bytes.length) := by
  refine ⟨fun bytes m => Memory.ofBytes_eq_ok_iff, fun bytes error => Memory.ofBytes_eq_error_iff,
    fun entries a word => Memory.get_ofList_eq_ok_iff,
    fun entries a => Memory.get_ofList_eq_missing_iff, fun entries => ?_,
    fun bytes states => Registers.listOfBytes_eq_ok_iff, Registers.listOfBytes_eq⟩
  rw [Memory.fits, decide_eq_true_iff]
  exact Memory.extent_ofList_le_iff

end CairoTrace
