import CairoTrace.Proofs.Partition
import CairoTrace.Proofs.Soundness.Bitwise
import CairoTrace.Proofs.Trace.Completion

/-!
# Completeness of bitwise operations

The strands of two words, of their conjunction and of their exclusive disjunction satisfy the
equations of the constraints (`BitwiseCells.computes_of_isSpread`). The pool holds them as dilutions
of the numbers that are written (`BitwiseCells.compact_strand`), so the constraints on the values of
all instances hold on a trace with what they write (`BitwiseCells.operations_of_writes`), also if a
strand of the last chunk has no digit of the words.
-/

namespace CairoTrace

open Finset

/-! ## Witnesses -/

namespace Bitwise

variable {inst : BitwiseInstance} {d : Dilution} {w : Witness} {x y : Word}

/-- The operands, the conjunction and the exclusive disjunction by their number. -/
def result (x y : Word) : Nat → Word
  | 0 => x
  | 1 => y
  | 2 => x &&& y
  | _ => x ^^^ y

theorem result_lt {bits : Nat} (hx : x < 2 ^ bits) (hy : y < 2 ^ bits) (v : Nat) :
    result x y v < 2 ^ bits := by
  unfold result
  split
  · exact hx
  · exact hy
  · exact Nat.and_lt_two_pow x hy
  · exact Nat.xor_lt_two_pow hx hy

/-- What a trace holds of two words. -/
def Witness.ofWords (inst : BitwiseInstance) (d : Dilution) : Witness where
  inst := inst
  conjunction := inst.x &&& inst.y
  exclusive := inst.x ^^^ inst.y
  disjunction := inst.x ||| inst.y
  partitions := [inst.x, inst.y, inst.x &&& inst.y, inst.x ^^^ inst.y].map d.partition

/-- An instance has a witness if its operands are words of the dilution. -/
theorem Witness.ofInstance_eq_ok_iff : ofInstance inst d = .ok w ↔
    (inst.x < 2 ^ d.totalBits ∧ inst.y < 2 ^ d.totalBits) ∧ ofWords inst d = w := by
  rw [ofInstance, Result.check_bind_eq_ok_iff, Result.check_bind_eq_ok_iff, checkBits_eq_ok_iff,
    checkBits_eq_ok_iff, and_assoc, Result.pure_eq_ok, Except.ok.injEq]
  rfl

end Bitwise

namespace BitwiseInstance

/-- The words of an instance in memory. -/
def words (inst : BitwiseInstance) : List Word :=
  [inst.x, inst.y, inst.x &&& inst.y, inst.x ^^^ inst.y, inst.x ||| inst.y]

theorem getElem?_words (inst : BitwiseInstance) {v : Nat} (hv : v < 4) :
    inst.words[v]? = some (Bitwise.result inst.x inst.y v) := by
  interval_cases v <;> rfl

end BitwiseInstance

namespace BitwiseCells

variable {cells : BitwiseCells} {d : Dilution} {x y w : Word} {i j k start v : Nat}

/-! ## The equations -/

/-- The words of an instance and their strands satisfy the equations of the constraints. -/
theorem computes_of_isSpread (h : d.IsSpread) (hx : x < 2 ^ d.totalBits)
    (hy : y < 2 ^ d.totalBits) :
    Computes d (fun v => (Bitwise.result x y v : Felt)) ((x ||| y : Nat) : Felt)
      (fun v k => (d.diluted (d.digits (Bitwise.result x y v) k) : Felt))
      (fun j => (d.diluted (d.trimValue (x ||| y) j) : Felt)) := by
  have hor : x ||| y < 2 ^ d.totalBits := Nat.or_lt_two_pow hx hy
  have hdisjunction (k : Nat) : (d.diluted (d.digits (x &&& y) k) : Felt) +
      d.diluted (d.digits (x ^^^ y) k) = d.diluted (d.digits (x ||| y) k) := by
    rw [← Nat.cast_add, h.diluted_digits_or]
  refine ⟨fun v _ => ?partition, ?disjunction, fun k _ => ?addition, fun j hj _ => ?trim⟩
  case partition =>
    conv_lhs => rw [← h.joined_digits (Bitwise.result_lt hx hy v)]
    rw [Dilution.joined, Nat.cast_sum]
    push_cast
    rfl
  case disjunction =>
    change ((x ||| y : Nat) : Felt) = (x &&& y : Nat) + (x ^^^ y : Nat)
    rw [← Nat.cast_add, and_add_xor hx hy]
  case addition =>
    change (d.diluted (d.digits x k) : Felt) + d.diluted (d.digits y k) =
      d.diluted (d.digits (x ^^^ y) k) + d.diluted (d.digits (x &&& y) k) * 2
    rw [← Nat.cast_add, h.diluted_digits_add]
    push_cast
    ring
  case trim =>
    change if d.topStrandBits j = 0 then
        (d.diluted (d.digits (x &&& y) ((d.chunks - 1) * d.spacing + j)) : Felt) +
          d.diluted (d.digits (x ^^^ y) ((d.chunks - 1) * d.spacing + j)) = 0
      else
        ((d.diluted (d.digits (x &&& y) ((d.chunks - 1) * d.spacing + j)) : Felt) +
          d.diluted (d.digits (x ^^^ y) ((d.chunks - 1) * d.spacing + j))) *
            2 ^ (d.spacing * (d.bits - d.topStrandBits j)) = d.diluted (d.trimValue (x ||| y) j)
    rw [hdisjunction]
    split
    · next hnone =>
      have hlt := h.digits_top_lt hor hj
      rw [hnone, pow_zero, Nat.lt_one_iff] at hlt
      rw [hlt, Dilution.diluted, dilute_zero h.spacing_pos h.places_le, Nat.cast_zero]
    · rw [h.diluted_trimValue hor hj]
      push_cast
      rfl

/-- The equations are about the values of an instance, its strands, and the trim cells of strands
that are partly used. -/
theorem Computes.congr {value value' : Nat → Felt} {disjunction disjunction' : Felt}
    {strand strand' : Nat → Nat → Felt} {trim trim' : Nat → Felt}
    (h : Computes d value disjunction strand trim)
    (htop : ∀ j < d.spacing, (d.chunks - 1) * d.spacing + j < d.strands)
    (hvalue : ∀ v < valueCount, value' v = value v) (hdisjunction : disjunction' = disjunction)
    (hstrand : ∀ v < valueCount, ∀ k < d.strands, strand' v k = strand v k)
    (htrim : ∀ j < d.spacing, d.topStrandBits j < d.bits → d.topStrandBits j ≠ 0 →
      trim' j = trim j) : Computes d value' disjunction' strand' trim' := by
  refine ⟨fun v hv => ?partition, ?disjunction, fun k hk => ?addition, fun j hj hused => ?trim⟩
  case partition =>
    rw [hvalue v hv, h.partition v hv]
    refine sum_congr rfl fun k hk => ?_
    rw [hstrand v hv k (mem_range.mp hk)]
  case disjunction =>
    rw [hdisjunction, h.disjunction, hvalue 2 (by decide), hvalue 3 (by decide)]
  case addition =>
    rw [hstrand 0 (by decide) k hk, hstrand 1 (by decide) k hk, hstrand 2 (by decide) k hk,
      hstrand 3 (by decide) k hk, h.addition k hk]
  case trim =>
    have heq := h.trim j hj hused
    rw [hstrand 2 (by decide) _ (htop j hj), hstrand 3 (by decide) _ (htop j hj)]
    by_cases hnone : d.topStrandBits j = 0
    · rwa [if_pos hnone] at heq ⊢
    · rw [if_neg hnone] at heq ⊢
      rw [heq, htrim j hj hused hnone]

/-! ## Numbers whose dilutions are strands -/

theorem testBit_foldl_or (f : Nat → Bool) (count q : Nat) :
    ((List.range count).foldl (fun n t => n ||| (f t).toNat <<< t) 0).testBit q =
      (decide (q < count) && f q) := by
  induction count with
  | zero => simp
  | succ count ih =>
    rw [List.range_succ, List.foldl_append, List.foldl_cons, List.foldl_nil, Nat.testBit_or, ih]
    rcases Nat.lt_trichotomy q count with hlt | rfl | hgt
    · rw [Nat.testBit_shiftLeft, decide_eq_false (not_le.mpr hlt), decide_eq_true hlt,
        decide_eq_true (Nat.lt_succ_of_lt hlt), Bool.false_and, Bool.or_false]
    · rw [Nat.testBit_shiftLeft, decide_eq_true le_rfl, decide_eq_false (lt_irrefl q),
        decide_eq_true (Nat.lt_succ_self q), Nat.sub_self, Bool.false_and, Bool.false_or]
      cases f q <;> rfl
    · have hlt : (f count).toNat <<< count < 2 ^ q := by
        have hbit := Nat.mul_lt_mul_of_pos_right (f count).toNat_lt (Nat.two_pow_pos count)
        rw [← Nat.shiftLeft_eq, ← pow_succ'] at hbit
        exact hbit.trans_le (Nat.pow_le_pow_right two_pos hgt)
      rw [Nat.testBit_lt_two_pow hlt, decide_eq_false hgt.not_gt,
        decide_eq_false (not_lt.mpr hgt), Bool.false_and, Bool.or_self]

theorem compact_diluted (h : cells.dilution.IsSpread) (hv : v < 2 ^ cells.dilution.bits) :
    cells.compact (cells.dilution.diluted v) = v := by
  apply Nat.eq_of_testBit_eq
  intro t
  unfold compact
  rw [testBit_foldl_or fun t => (cells.dilution.diluted v).testBit (cells.dilution.spacing * t)]
  by_cases ht : t < cells.dilution.bits
  · rw [decide_eq_true ht, Bool.true_and, Dilution.diluted,
      testBit_dilute h.spacing_pos h.places_le ht]
  · rw [decide_eq_false ht, Bool.false_and,
      Nat.testBit_lt_two_pow (hv.trans_le (Nat.pow_le_pow_right two_pos (not_lt.mp ht)))]

theorem compact_strand (h : cells.dilution.IsSpread) (hw : w < 2 ^ cells.dilution.totalBits) :
    cells.compact (cells.dilution.strand w k) = cells.dilution.digits w k := by
  rw [h.strand_eq hw, compact_diluted h Dilution.digits_lt]

/-! ## What is written -/

section Written

variable {config : LayoutConfig} {n base row : Nat} {check : DilutedCheck}
  {columns : List (Array Felt)} {inst : BitwiseInstance}

/-- Every strand is written as the number that it is the dilution of. -/
theorem mem_strandWrites (hv : v < valueCount) (hk : k < cells.dilution.strands) :
    .diluted (base + cells.strandRow v k)
        (cells.compact (cells.dilution.strand (Bitwise.result inst.x inst.y v) k)) ∈
      cells.strandWrites base (.ofWords inst cells.dilution) := by
  have hpartition : (Bitwise.Witness.ofWords inst cells.dilution).partitions[v]? =
      some (cells.dilution.partition (Bitwise.result inst.x inst.y v)) := by
    have hfour : v < 4 := hv
    interval_cases v <;> rfl
  refine List.mem_flatMap.mpr ⟨(_, v), List.mk_mem_zipIdx_iff_getElem?.mpr hpartition, ?_⟩
  exact List.mem_map.mpr
    ⟨(_, k), List.mk_mem_zipIdx_iff_getElem?.mpr (Dilution.getElem?_partition hk), rfl⟩

/-- What an instance writes to memory. -/
def memoryWrites (cells : BitwiseCells) (start i : Nat) (inst : BitwiseInstance) : List Write :=
  ((inst.addresses start).zip inst.words).zipIdx.map fun ((address, u), k) =>
    .memory (if k < valueCount then cells.values.row (valueCount * i + k)
      else cells.disjunction.row i) address (.ofNat u)

theorem mem_memoryWrites (cells : BitwiseCells) (start i : Nat) {u : Word}
    (hu : inst.words[k]? = some u) :
    .memory (if k < valueCount then cells.values.row (valueCount * i + k)
        else cells.disjunction.row i) (start + inst.index * 5 + k) (.ofNat u) ∈
      cells.memoryWrites start i inst := by
  have hk : k < 5 := (List.getElem?_eq_some_iff.mp hu).1
  have haddress : (inst.addresses start)[k]? = some (start + inst.index * 5 + k) := by
    rw [BitwiseInstance.addresses, instanceAddresses, List.getElem?_map, List.getElem?_range hk]
    rfl
  refine List.mem_map.mpr ⟨((_, u), k), ?_, rfl⟩
  exact List.mk_mem_zipIdx_iff_getElem?.mpr (List.getElem?_zip_eq_some.mpr ⟨haddress, hu⟩)

variable (hspread : cells.dilution.IsSpread) (hx : inst.x < 2 ^ cells.dilution.totalBits)
  (hy : inst.y < 2 ^ cells.dilution.totalBits)

include hspread hx hy in
/-- The trim cells are those of strands of the last chunk that are partly used. -/
theorem mem_trimWrites_iff : .diluted row v ∈
      cells.trimWrites base (.ofWords inst cells.dilution) ↔
    ∃ j < cells.dilution.spacing, cells.dilution.topStrandBits j < cells.dilution.bits ∧
      cells.dilution.topStrandBits j ≠ 0 ∧ base + cells.trimRow j = row ∧
      cells.dilution.trimValue (inst.x ||| inst.y) j = v := by
  have hvalue (j : Nat) : (cells.compact (cells.dilution.strand (inst.x &&& inst.y)
      (cells.topStrand j)) ||| cells.compact (cells.dilution.strand (inst.x ^^^ inst.y)
        (cells.topStrand j))) <<< (cells.dilution.bits - cells.dilution.topStrandBits j) =
      cells.dilution.trimValue (inst.x ||| inst.y) j := by
    rw [compact_strand hspread (Nat.and_lt_two_pow _ hy),
      compact_strand hspread (Nat.xor_lt_two_pow hx hy), Dilution.digits_and_or_digits_xor]
    rfl
  simp only [trimWrites_eq, List.mem_map, List.mem_filter, mem_trimmed_iff, decide_eq_true_iff,
    Write.diluted.injEq]
  constructor
  · rintro ⟨q, ⟨⟨j, hj, hused, rfl⟩, hne⟩, hrow, hv⟩
    exact ⟨j, hj, hused, hne, hrow, (hvalue j).symm.trans hv⟩
  · rintro ⟨j, hj, hused, hne, hrow, hv⟩
    exact ⟨_, ⟨⟨j, hj, hused, rfl⟩, hne⟩, hrow, (hvalue j).trans hv⟩

include hx hy in
theorem instanceWrites_eq : cells.instanceWrites start i inst =
    cells.strandWrites (i * cells.height) (.ofWords inst cells.dilution) ++
      cells.trimWrites (i * cells.height) (.ofWords inst cells.dilution) ++
      cells.memoryWrites start i inst := by
  rw [instanceWrites, Bitwise.Witness.ofInstance_eq_ok_iff.mpr ⟨⟨hx, hy⟩, rfl⟩]
  rfl

variable (hheld : Write.AreHeld (some check) columns (cells.instanceWrites start i inst))
include hx hy hheld

/-- The columns hold the words of an instance in memory. -/
theorem memory_of_areHeld (harranged : cells.IsArranged config n) :
    (∀ v < valueCount, cells.valueAt columns i v = (Bitwise.result inst.x inst.y v : Felt)) ∧
      cells.disjunctionAt columns i = (inst.x ||| inst.y : Nat) := by
  rw [instanceWrites_eq hx hy] at hheld
  have hmemory := hheld.mono fun _ hwrite => List.mem_append_right _ hwrite
  refine ⟨fun v hv => ?_, ?_⟩
  · have hwrite := mem_memoryWrites cells start i (inst.getElem?_words hv)
    rw [if_pos hv] at hwrite
    exact hmemory.valueColumn_cellAt_eq harranged.values.column_eq hwrite
  · have hlast : inst.words[4]? = some (inst.x ||| inst.y) := rfl
    have hwrite := mem_memoryWrites cells start i hlast
    exact hmemory.valueColumn_cellAt_eq harranged.disjunction.column_eq hwrite

variable (hpool : check.pool = cells.pool) (hdilution : check.dilution = cells.dilution)
include hspread hpool hdilution

/-- An instance that is written satisfies the equations. -/
theorem computes_of_areHeld (harranged : cells.IsArranged config n) :
    Computes cells.dilution (cells.valueAt columns i) (cells.disjunctionAt columns i)
      (cells.strandAt columns i) (cells.trimAt columns i) := by
  obtain ⟨hvalue, hdisjunction⟩ := memory_of_areHeld hx hy hheld harranged
  rw [instanceWrites_eq hx hy] at hheld
  have hdiluted {row v : Nat} (hmem : .diluted row v ∈
        cells.strandWrites (i * cells.height) (.ofWords inst cells.dilution) ++
          cells.trimWrites (i * cells.height) (.ofWords inst cells.dilution)) :
      traceCell columns cells.pool row = (cells.dilution.diluted v : Felt) := by
    have hcell := hheld _ (List.mem_append_left _ hmem) ((check.pool, row), check.diluted v)
      (List.mem_singleton_self _)
    rwa [hpool, DilutedCheck.diluted, hdilution] at hcell
  refine (computes_of_isSpread hspread hx hy).congr (fun j hj => topStrand_lt harranged hj) hvalue
    hdisjunction (fun v hv k hk => ?strand) fun j hj hused hne => ?trim
  case strand =>
    rw [← compact_strand hspread (Bitwise.result_lt hx hy v), strandAt, mul_comm cells.height]
    exact hdiluted (List.mem_append_left _ (mem_strandWrites hv hk))
  case trim =>
    rw [trimAt, mul_comm cells.height]
    exact hdiluted (List.mem_append_right _
      ((mem_trimWrites_iff hspread hx hy).mpr ⟨j, hj, hused, hne, rfl, rfl⟩))

end Written

/-! ## Partitions -/

/-- The strands of a word make it up, are dilutions of numbers of a strand's digits, and have in the
last chunk no digits but those of the word. -/
structure IsPartitioned (cells : BitwiseCells) (w : Word) : Prop where
  sum_eq : ((cells.dilution.partition w).zipIdx.map fun (strand, k) =>
    strand * 2 ^ cells.dilution.strandShift k).sum = w
  diluted_compact : ∀ strand ∈ cells.dilution.partition w,
    cells.compact strand < 2 ^ cells.dilution.bits ∧
      cells.dilution.diluted (cells.compact strand) = strand
  top : ∀ j < cells.dilution.spacing, ∃ strand,
    (cells.dilution.partition w)[cells.topStrand j]? = some strand ∧
      ∀ t < cells.dilution.bits, cells.dilution.topStrandBits j ≤ t →
        strand.testBit (cells.dilution.spacing * t) = false

/-- A number whose dilution is strand `j` of the last chunk, moved to the upper end of a strand. -/
structure IsTrimOf (cells : BitwiseCells) (w : Word) (j v : Nat) : Prop where
  lt : v < 2 ^ cells.dilution.bits
  diluted_eq : ∃ strand, (cells.dilution.partition w)[cells.topStrand j]? = some strand ∧
    cells.dilution.diluted v = strand *
      2 ^ (cells.dilution.spacing * (cells.dilution.bits - cells.dilution.topStrandBits j))

section Spread

variable (h : cells.dilution.IsSpread)
include h

theorem topStrand_lt_of_isSpread (hj : j < cells.dilution.spacing) :
    cells.topStrand j < cells.dilution.strands :=
  Dilution.topStrand_lt h.spacing_pos h.bits_pos h.totalBits_pos hj

theorem isPartitioned (hw : w < 2 ^ cells.dilution.totalBits) : cells.IsPartitioned w := by
  constructor
  · have hzip : (cells.dilution.partition w).zipIdx =
        (List.range cells.dilution.strands).map fun k => (cells.dilution.strand w k, k) := by
      apply List.ext_getElem
      · simp [Dilution.partition]
      · simp [Dilution.partition]
    rw [hzip, List.map_map]
    conv_rhs => rw [← h.joined_digits hw]
    refine congrArg List.sum (List.map_congr_left fun k _ => ?_)
    rw [← h.strand_eq hw]
    rfl
  · intro strand hstrand
    obtain ⟨k, -, rfl⟩ := List.mem_map.mp hstrand
    rw [compact_strand h hw, h.strand_eq hw]
    exact ⟨Dilution.digits_lt, rfl⟩
  · intro j hj
    refine ⟨_, Dilution.getElem?_partition (topStrand_lt_of_isSpread h hj), fun t ht hunused => ?_⟩
    rw [h.strand_eq hw, Dilution.diluted, testBit_dilute h.spacing_pos h.places_le ht]
    exact h.testBit_digits_top hw hj hunused

/-- Strand by strand, two words add up to the exclusive disjunction and twice the conjunction. -/
theorem zipWith_partition (hx : x < 2 ^ cells.dilution.totalBits)
    (hy : y < 2 ^ cells.dilution.totalBits) :
    List.zipWith (· + ·) (cells.dilution.partition x) (cells.dilution.partition y) =
      List.zipWith (fun r a => r + 2 * a) (cells.dilution.partition (x ^^^ y))
        (cells.dilution.partition (x &&& y)) := by
  simp only [Dilution.partition, List.zipWith_map, List.zipWith_self]
  refine List.map_congr_left fun k _ => ?_
  rw [h.strand_eq hx, h.strand_eq hy, h.strand_eq (Nat.xor_lt_two_pow hx hy),
    h.strand_eq (Nat.and_lt_two_pow x hy), h.diluted_digits_add]

theorem isTrimOf_trimValue (hw : w < 2 ^ cells.dilution.totalBits)
    (hj : j < cells.dilution.spacing) :
    cells.IsTrimOf w j (cells.dilution.trimValue w j) := by
  refine ⟨h.trimValue_lt hw hj, _, Dilution.getElem?_partition (topStrand_lt_of_isSpread h hj), ?_⟩
  rw [h.strand_eq hw, h.diluted_trimValue hw hj]
  rfl

end Spread

/-- The laws of the strands of all words of a dilution. -/
structure PartitionLaws (cells : BitwiseCells) : Prop where
  isPartitioned : ∀ w < 2 ^ cells.dilution.totalBits, cells.IsPartitioned w
  add : ∀ x < 2 ^ cells.dilution.totalBits, ∀ y < 2 ^ cells.dilution.totalBits,
    List.zipWith (· + ·) (cells.dilution.partition x) (cells.dilution.partition y) =
      List.zipWith (fun r a => r + 2 * a) (cells.dilution.partition (x ^^^ y))
        (cells.dilution.partition (x &&& y))
  place_lt : ∀ j < cells.dilution.spacing, ∀ t < cells.dilution.topStrandBits j,
    cells.dilution.strandShift (cells.topStrand j) + cells.dilution.spacing * t <
      cells.dilution.totalBits
  trim : ∀ inst w, Bitwise.Witness.ofInstance inst cells.dilution = .ok w →
    ∀ base row v, .diluted row v ∈ cells.trimWrites base w →
      ∃ j < cells.dilution.spacing, base + cells.trimRow j = row ∧
        cells.IsTrimOf w.disjunction j v
  computes : ∀ x < 2 ^ cells.dilution.totalBits, ∀ y < 2 ^ cells.dilution.totalBits,
    Computes cells.dilution (fun v => (Bitwise.result x y v : Felt)) (x ||| y : Nat)
      (fun v k => (cells.dilution.diluted
        (cells.compact (cells.dilution.strand (Bitwise.result x y v) k)) : Felt))
      (fun j => (cells.dilution.diluted (cells.dilution.trimValue (x ||| y) j) : Felt))

theorem partitionLaws (h : cells.dilution.IsSpread) : cells.PartitionLaws where
  isPartitioned _ hw := isPartitioned h hw
  add _ hx _ hy := zipWith_partition h hx hy
  place_lt j hj t ht :=
    (Dilution.lt_topStrandBits_iff h.spacing_pos hj (ht.trans_le (Nat.min_le_left _ _))).mp ht
  trim inst w hw base row v hmem := by
    obtain ⟨⟨hx, hy⟩, rfl⟩ := Bitwise.Witness.ofInstance_eq_ok_iff.mp hw
    obtain ⟨j, hj, -, -, hrow, rfl⟩ := (mem_trimWrites_iff h hx hy).mp hmem
    exact ⟨j, hj, hrow, isTrimOf_trimValue h (Nat.or_lt_two_pow hx hy) hj⟩
  computes x hx y hy := by
    simp only [compact_strand h (Bitwise.result_lt hx hy _)]
    exact computes_of_isSpread h hx hy

/-! ## Traces -/

section Layouts

variable {config : LayoutConfig} {n modulus : Nat} {params : Option Pedersen.Params} {l : Layout}
  {instances : List (Option BitwiseInstance)}

/-- All constraints but those on addresses hold on a trace with what all instances write. -/
theorem holds_of_areHeld (hbuild : Layout.build config n params modulus = .ok l)
    (hword : n < 2 ^ 64) (hcells : .bitwise cells ∈ l.components)
    (hlength : instances.length = n / cells.height)
    (hinstances : ∀ inst, some inst ∈ instances →
      inst.x < 2 ^ cells.dilution.totalBits ∧ inst.y < 2 ^ cells.dilution.totalBits)
    {columns : List (Array Felt)}
    (hheld : Write.AreHeld l.dilutedCheck? columns (cells.writes start instances))
    {periodic : List PeriodicColumn} {b : Bindings} :
    ∀ c ∈ cells.partitionConstraints ++ cells.operationConstraints ++ cells.trimConstraints,
      c.Holds n columns periodic b := by
  obtain ⟨hn, hvalid, harranged⟩ := Layout.isArranged_of_build hbuild
  have harranged : cells.IsArranged config n := harranged _ hcells
  have hspread : cells.dilution.IsSpread :=
    Dilution.isSpread_of_isUsable (hvalid.dilution _ harranged.dilution)
  obtain ⟨check, hcheck⟩ :=
    Option.isSome_iff_exists.mp (Layout.isSome_dilutedCheck?_of_bitwise hbuild hcells)
  intro c hc
  have hmem : c ∈ (Component.bitwise cells).constraints := by
    rw [Component.constraints, constraints, List.append_assoc, List.append_assoc,
      ← List.append_assoc cells.partitionConstraints]
    exact List.mem_append_right _ hc
  rw [Layout.holds_iff_holdsOnInstance hbuild hcells hmem
    harranged.disjunction.isPowerOfTwo_step harranged.height_le]
  intro i hi
  have hlt : i < instances.length := by rwa [hlength]
  have hinstance := hheld.of_getElem? (List.getElem?_eq_getElem hlt)
  rw [hcheck] at hinstance
  have hwords : (instances[i].getD ⟨i, 0, 0⟩).x < 2 ^ cells.dilution.totalBits ∧
      (instances[i].getD ⟨i, 0, 0⟩).y < 2 ^ cells.dilution.totalBits := by
    cases hinst : instances[i] with
    | some inst => exact hinstances inst (hinst ▸ List.getElem_mem hlt)
    | none => exact ⟨Nat.two_pow_pos _, Nat.two_pow_pos _⟩
  have hcomputes := computes_of_areHeld hspread hwords.1 hwords.2 hinstance
    (Layout.pool_eq_of_dilutedCheck? hbuild hcheck hcells)
    (Layout.dilution_eq_of_dilutedCheck? hbuild hcheck hcells) harranged
  exact (holdOnInstance_iff hn hword harranged hi).mpr hcomputes c hc

/-- The strands of words obey their laws, whatever the dilution. In a layout, columns with the
writes of all instances have zeros in the constraints on partitions, on the operations and on trims,
if the operands are words of the dilution. -/
theorem operations_of_writes (cells : BitwiseCells)
    (husable : LayoutConfig.isUsable cells.dilution = true) :
    cells.PartitionLaws ∧
    ∀ (config : LayoutConfig) (n modulus : Nat) (params : Option Pedersen.Params) (l : Layout),
      Layout.build config n params modulus = .ok l → n < 2 ^ 64 → .bitwise cells ∈ l.components →
      ∀ (start : Nat) (instances : List (Option BitwiseInstance)),
        instances.length = n / cells.height →
        (∀ inst, some inst ∈ instances →
          inst.x < 2 ^ cells.dilution.totalBits ∧ inst.y < 2 ^ cells.dilution.totalBits) →
        (∃ columns : List (Array Felt), columns.length = l.mainColumns ∧
          (∀ column ∈ columns, column.size = n) ∧
          Write.AreHeld l.dilutedCheck? columns (cells.writes start instances)) ∧
        ∀ columns : List (Array Felt),
          Write.AreHeld l.dilutedCheck? columns (cells.writes start instances) →
          ∀ (periodic : List PeriodicColumn) (b : Bindings), ∀ c ∈ cells.partitionConstraints ++
            cells.operationConstraints ++ cells.trimConstraints, c.Holds n columns periodic b := by
  refine ⟨partitionLaws (Dilution.isSpread_of_isUsable husable), ?_⟩
  intro config n modulus params l hbuild hword hcells start instances hlength hinstances
  refine ⟨?_, fun columns hheld periodic b =>
    holds_of_areHeld hbuild hword hcells hlength hinstances hheld⟩
  obtain ⟨-, -, harranged⟩ := Layout.isArranged_of_build hbuild
  exact Layout.exists_columns_areHeld_of_writesOwn hbuild hcells
    (writesOwn (harranged _ hcells) (Layout.isAllotted_of_build hbuild hcells rfl)
      (fun _ hcheck => Layout.pool_eq_of_dilutedCheck? hbuild hcheck hcells) hlength)

/-- The operation on five and six, whose words leave a digit of the second strand unused. -/
theorem operations_of_writes_triple : ∃ (l : Layout) (columns : List (Array Felt)),
    Layout.build tripleConfig 64 none = .ok l ∧ .bitwise tripleCells ∈ l.components ∧
    Write.AreHeld l.dilutedCheck? columns (tripleCells.writes 100 [some ⟨0, 5, 6⟩]) ∧
    tripleCells.dilution.topStrandBits 1 = 1 ∧
    .diluted 33 2 ∈ tripleCells.trimWrites 0 (.ofWords ⟨0, 5, 6⟩ tripleCells.dilution) ∧
    (∃ j < 2, 0 + tripleCells.trimRow j = 33 ∧ tripleCells.IsTrimOf (5 ||| 6) j 2) ∧
    ∀ c ∈ tripleCells.partitionConstraints ++ tripleCells.operationConstraints ++
      tripleCells.trimConstraints, c.Holds 64 columns [] ⟨[], [], 0⟩ := by
  have hbuild : ∃ l, Layout.build tripleConfig 64 none = .ok l ∧
      .bitwise tripleCells ∈ l.components := ⟨_, rfl, List.mem_of_getElem? (i := 4) rfl⟩
  obtain ⟨l, hl, hcells⟩ := hbuild
  obtain ⟨hlaws, hholds⟩ := operations_of_writes tripleCells (by decide)
  obtain ⟨⟨columns, -, -, hheld⟩, hall⟩ := hholds tripleConfig 64 _ none l hl (by decide) hcells 100
    [some ⟨0, 5, 6⟩] (by decide) fun inst hinst => by
      obtain rfl := Option.some.inj (List.mem_singleton.mp hinst)
      decide
  have htrim : .diluted 33 2 ∈
      tripleCells.trimWrites 0 (.ofWords ⟨0, 5, 6⟩ tripleCells.dilution) := by decide
  exact ⟨l, columns, hl, hcells, hheld, by decide, htrim,
    hlaws.trim ⟨0, 5, 6⟩ _ rfl 0 33 2 htrim, hall columns hheld [] _⟩

end Layouts

end BitwiseCells

end CairoTrace
