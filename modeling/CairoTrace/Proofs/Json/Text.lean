import CairoTrace.Json.DoubleRange
import CairoTrace.Json.Writer
import CairoTrace.Proofs.Numeral

/-!
# Tokens that are read back

Strings and numbers are read as what was written: a string up to its closing quote
(`Json.stringTail_escapeChar`), and a number below `2 ^ 64` up to the first character that does
not go on with it (`Json.literal_writeNat`), without leaving the range of numbers
(`Json.overflows_plainLiteral`).
-/

namespace CairoTrace

namespace Json

variable {α β : Type} {text rest : List Char}

/-! ## Steps of a reader -/

theorem bind_apply {x : Reader α} {f : α → Reader β} {a : α} (h : x text = .ok (a, rest)) :
    (x >>= f) text = f a rest := by
  change (x text >>= fun p => f p.1 p.2) = f a rest
  rw [h]
  rfl

theorem map_apply {x : Reader α} {f : α → β} {a : α} (h : x text = .ok (a, rest)) :
    (f <$> x) text = .ok (f a, rest) := by
  change (x text >>= fun p => pure (f p.1, p.2)) = _
  rw [h]
  rfl

theorem peek_cons {c : Char} (h : isBlank c = false) :
    peek (c :: rest) = .ok (some c, c :: rest) := by
  have hkeep : (c :: rest).dropWhile isBlank = c :: rest :=
    List.dropWhile_cons_of_neg (by rw [h]; exact Bool.false_ne_true)
  rw [peek, hkeep]
  rfl

theorem peekSome_cons {c : Char} (h : isBlank c = false) :
    peekSome (c :: rest) = .ok (c, c :: rest) := by
  rw [peekSome, bind_apply (peek_cons h)]
  rfl

/-- A character that is shown is taken. -/
theorem advance_cons (c : Char) (rest : List Char) : advance (c :: rest) = .ok ((), rest) := rfl

/-! ## Strings -/

theorem simpleEscape?_of_escapeLetter? {c letter : Char} (h : escapeLetter? c = some letter) :
    simpleEscape? letter = some c ∧ letter ≠ 'u' := by
  unfold escapeLetter? at h
  split at h <;> first
    | (obtain rfl := Option.some.inj h; decide)
    | cases h

/-- A letter after a backslash is read as the character it stands for. -/
theorem escaped_letter {c letter : Char} (h : escapeLetter? c = some letter) :
    escaped (letter :: rest) = .ok (c, rest) := by
  obtain ⟨hsimple, hu⟩ := simpleEscape?_of_escapeLetter? h
  unfold escaped
  split
  · next heq => exact absurd heq (List.cons_ne_nil _ _)
  · next heq => exact absurd (List.cons.inj heq).1 hu
  · next d rest' _ heq =>
    obtain ⟨rfl, rfl⟩ := List.cons.inj heq
    rw [hsimple]

theorem hexQuad?_control : ∀ n < 0x20,
    hexQuad? '0' '0' (Numeral.hexDigit (n / 16)) (Numeral.hexDigit (n % 16)) = some n := by
  decide

/-- The code of a control character is read as the character. -/
theorem escaped_control {c : Char} (h : c.toNat < 0x20) :
    escaped ('u' :: '0' :: '0' :: Numeral.hexDigit (c.toNat / 16) ::
      Numeral.hexDigit (c.toNat % 16) :: rest) = .ok (c, rest) := by
  have hunit : codeUnit ('0' :: '0' :: Numeral.hexDigit (c.toNat / 16) ::
      Numeral.hexDigit (c.toNat % 16) :: rest) = .ok (c.toNat, rest) := by
    rw [codeUnit, hexQuad?_control _ h]
  rw [escaped, escapedUnit, bind_apply hunit, if_neg (by omega)]
  change (if c.toNat < 0xD800 ∨ 0xDBFF < c.toNat then (pure (Char.ofNat c.toNat) : Reader Char)
    else _) rest = _
  rw [if_pos (Or.inl (by omega)), Char.ofNat_toNat]
  rfl

theorem stringTail_backslash {fuel : Nat} {c : Char} (h : escaped text = .ok (c, rest)) :
    stringTail escaped (fuel + 1) ('\\' :: text) =
      (stringTail escaped fuel rest).map fun p => (c :: p.1, p.2) := by
  rw [stringTail]
  simp only [h]
  cases hrest : stringTail escaped fuel rest with
  | error fault => simp only [hrest, bind, Except.bind, Except.map]
  | ok p => simp only [hrest, bind, Except.bind, Except.map, pure, Except.pure]

theorem stringTail_plain {fuel : Nat} {c : Char} (hquote : c ≠ '"') (hslash : c ≠ '\\')
    (hplain : 0x20 ≤ c.toNat) :
    stringTail escaped (fuel + 1) (c :: rest) =
      (stringTail escaped fuel rest).map fun p => (c :: p.1, p.2) := by
  rw [stringTail]
  simp only [not_lt.mpr hplain, if_false]
  cases hrest : stringTail escaped fuel rest with
  | error fault => simp [bind, Except.bind, Except.map]
  | ok p => simp [bind, Except.bind, Except.map, pure, Except.pure]

/-- A character is read back from how it stands in a string. -/
theorem stringTail_escapeChar_append (fuel : Nat) (c : Char) (rest : List Char) :
    stringTail escaped (fuel + 1) (escapeChar c ++ rest) =
      (stringTail escaped fuel rest).map fun p => (c :: p.1, p.2) := by
  rw [escapeChar]
  cases hletter : escapeLetter? c with
  | some letter => exact stringTail_backslash (escaped_letter hletter)
  | none =>
    by_cases hcontrol : c.toNat < 0x20
    · simp only [hcontrol, if_true]
      exact stringTail_backslash (escaped_control hcontrol)
    · have hquote : c ≠ '"' := by
        rintro rfl
        cases hletter
      have hslash : c ≠ '\\' := by
        rintro rfl
        cases hletter
      simp only [hcontrol, if_false]
      exact stringTail_plain hquote hslash (not_lt.mp hcontrol)

/-- The characters of a string are read up to its closing quote. -/
theorem stringTail_escapeChar (s rest : List Char) {fuel : Nat} (hfuel : s.length < fuel) :
    stringTail escaped fuel (s.flatMap escapeChar ++ '"' :: rest) = .ok (s, rest) := by
  induction s generalizing fuel with
  | nil =>
    obtain ⟨fuel, rfl⟩ := Nat.exists_eq_add_one_of_ne_zero (Nat.ne_of_gt hfuel)
    rfl
  | cons c s ih =>
    obtain ⟨fuel, rfl⟩ := Nat.exists_eq_add_one_of_ne_zero (Nat.ne_zero_of_lt hfuel)
    rw [List.flatMap_cons, List.append_assoc, stringTail_escapeChar_append,
      ih (Nat.lt_of_succ_lt_succ hfuel)]
    rfl

theorem escapeChar_ne_nil (c : Char) : escapeChar c ≠ [] := by
  unfold escapeChar
  split
  · exact List.cons_ne_nil _ _
  · split <;> exact List.cons_ne_nil _ _

theorem length_le_length_flatMap_escapeChar (s : List Char) :
    s.length ≤ (s.flatMap escapeChar).length := by
  induction s with
  | nil => exact le_rfl
  | cons c s ih =>
    have hpos := List.length_pos_iff.mpr (escapeChar_ne_nil c)
    rw [List.flatMap_cons, List.length_append, List.length_cons]
    omega

/-! ## Numbers -/

/-- Whether a text does not go on with a number. -/
def EndsNumber (text : List Char) : Prop :=
  ∀ c ∈ text.head?, isDigit c = false ∧ c ≠ '.' ∧ c ≠ 'e' ∧ c ≠ 'E'

theorem isDigit_hexDigit {d : Nat} (h : d < 10) : isDigit (Numeral.hexDigit d) = true := by
  revert d
  decide

theorem hexDigit_ne_zero {d : Nat} (hpos : 0 < d) (h : d < 10) : Numeral.hexDigit d ≠ '0' := by
  interval_cases d <;> decide

theorem toNat_hexDigit {d : Nat} (h : d < 10) : (Numeral.hexDigit d).toNat - '0'.toNat = d := by
  revert d
  decide

theorem isDigit_of_mem_writeNat {n : Nat} {c : Char} (h : c ∈ writeNat n) : isDigit c = true := by
  rcases Numeral.mem_digitsOnto (by norm_num) h with hnil | ⟨d, hd, rfl⟩
  · exact absurd hnil List.not_mem_nil
  · exact isDigit_hexDigit hd

theorem digitsValue_writeNat (n : Nat) : digitsValue (writeNat n) = n := by
  have hdigit (m d : Nat) (rest : List Char) (hd : d < 10) (_ : m * 10 + d ≤ n) :
      (Numeral.hexDigit d :: rest).foldl (fun n c => n * 10 + (c.toNat - '0'.toNat)) m =
        rest.foldl (fun n c => n * 10 + (c.toNat - '0'.toNat)) (m * 10 + d) := by
    rw [List.foldl_cons, toNat_hexDigit hd]
  have hread := Numeral.digitsOnto_read (List.foldl fun n c => n * 10 + (c.toNat - '0'.toNat))
    (by norm_num) hdigit le_rfl (Numeral.lt_pow_log2_succ (by norm_num) n) []
  rw [digitsValue, writeNat, Numeral.decimalDigits, hread, List.foldl_nil]

theorem appendDigits_writeNat {n : Nat} (h : n < 2 ^ 64) : appendDigits 0 (writeNat n) = (n, []) := by
  have hdigit (m d : Nat) (rest : List Char) (hd : d < 10) (hle : m * 10 + d ≤ n) :
      appendDigits m (Numeral.hexDigit d :: rest) = appendDigits (m * 10 + d) rest := by
    have hlt : m * 10 + d < 1 <<< 64 := by
      rw [Nat.one_shiftLeft]
      exact hle.trans_lt h
    rw [appendDigits, toNat_hexDigit hd]
    exact if_pos hlt
  have hread := Numeral.digitsOnto_read appendDigits (by norm_num) hdigit le_rfl
    (Numeral.lt_pow_log2_succ (by norm_num) n) []
  rw [writeNat, Numeral.decimalDigits, hread, appendDigits]

/-- The digits of a number and nothing after them. -/
def plainLiteral (n : Nat) : Literal := ⟨false, writeNat n, [], 0, true⟩

theorem scaled_plainLiteral {n : Nat} (h : n < 2 ^ 64) : (plainLiteral n).scaled = ⟨n, 0⟩ := by
  unfold Literal.scaled plainLiteral
  simp only [appendDigits_writeNat h]
  rfl

/-- A number at most doubles when it is rounded. -/
theorem roundDouble_le (n : Nat) : roundDouble n ≤ 2 * n := by
  by_cases hzero : n = 0
  · subst hzero
    decide
  · have hunit : 1 <<< (n.log2 + 1 - 53) ≤ n := by
      rw [Nat.one_shiftLeft]
      exact (Nat.pow_le_pow_right two_pos (by omega)).trans (Nat.log2_self_le hzero)
    have hdiv := Nat.div_mul_le_self n (1 <<< (n.log2 + 1 - 53))
    unfold roundDouble
    dsimp only
    split
    · rw [add_mul, one_mul]
      omega
    · omega

theorem overflows_plainLiteral {n : Nat} (h : n < 2 ^ 64) : (plainLiteral n).overflows = false := by
  have hlarge : roundDouble (roundDouble n * roundDouble (Nat.pow 10 0)) < 1 <<< 1024 := by
    have hone : roundDouble (Nat.pow 10 0) = 1 := by decide
    have hround := roundDouble_le (roundDouble n)
    have hn := roundDouble_le n
    rw [hone, mul_one]
    calc roundDouble (roundDouble n) ≤ 4 * n := by omega
      _ < 2 ^ 66 := by omega
      _ < 1 <<< 1024 := by decide
  unfold Literal.overflows
  rw [scaled_plainLiteral h]
  by_cases hzero : n = 0
  · simp [hzero]
  · simpa [hzero, Literal.maxExponent] using hlarge

theorem EndsNumber.not_isDigit {c : Char} (h : EndsNumber (c :: rest)) : isDigit c = false :=
  (h c rfl).1

/-- The digits of a number are taken up to its end. -/
theorem digitRun_writeNat (n : Nat) (h : EndsNumber rest) :
    digitRun (writeNat n ++ rest) = .ok (writeNat n, rest) := by
  have htake : rest.takeWhile isDigit = [] := by
    cases rest with
    | nil => rfl
    | cons c rest => simp [h.not_isDigit]
  have hdrop : rest.dropWhile isDigit = rest := by
    cases rest with
    | nil => rfl
    | cons c rest => simp [h.not_isDigit]
  rw [digitRun, List.takeWhile_append_of_pos fun _ => isDigit_of_mem_writeNat,
    List.dropWhile_append_of_pos fun _ => isDigit_of_mem_writeNat, htake, hdrop, List.append_nil]

theorem writeNat_zero : writeNat 0 = ['0'] := by decide

/-- A positive number starts with a digit other than zero. -/
theorem exists_writeNat_eq_cons {n : Nat} (h : 0 < n) :
    ∃ d rest, 0 < d ∧ d < 10 ∧ writeNat n = Numeral.hexDigit d :: rest :=
  Numeral.exists_digitsOnto_eq_cons (by norm_num) h (Numeral.lt_pow_log2_succ (by norm_num) n)

theorem wholeDigits_writeNat (short : Fault) (n : Nat) (h : EndsNumber rest) :
    wholeDigits short (writeNat n ++ rest) = .ok (writeNat n, rest) := by
  rcases Nat.eq_zero_or_pos n with rfl | hpos
  · rw [writeNat_zero]
    cases rest with
    | nil => rfl
    | cons c rest =>
      change (if isDigit c = true then _ else _) = _
      rw [if_neg (by rw [h.not_isDigit]; exact Bool.false_ne_true)]
      rfl
  · obtain ⟨d, ds, hd, hten, heq⟩ := exists_writeNat_eq_cons hpos
    have hdigits : someDigits short (writeNat n ++ rest) = .ok (writeNat n, rest) := by
      rw [← digitRun_writeNat n h, heq, List.cons_append, someDigits]
      simp only [isDigit_hexDigit hten, if_true]
    rw [← hdigits, heq, List.cons_append, wholeDigits]
    intro rest hzero
    exact hexDigit_ne_zero hd hten (List.cons.inj hzero).1

theorem magnitude_writeNat (short : Fault) (n : Nat) (h : EndsNumber rest) :
    magnitude short false (writeNat n ++ rest) = .ok (plainLiteral n, rest) := by
  have hexponent : exponent? short rest = .ok (none, rest) := by
    unfold exponent?
    split
    · next rest => exact absurd rfl (h 'e' rfl).2.2.1
    · next rest => exact absurd rfl (h 'E' rfl).2.2.2
    · rfl
  have hget : (get : Reader (List Char)) rest = .ok (rest, rest) := rfl
  rw [magnitude, bind_apply (wholeDigits_writeNat short n h), bind_apply hget]
  split
  · exact absurd rfl (h '.' rfl).2.1
  · rw [pure_bind]
    dsimp only
    rw [bind_apply hexponent]
    rfl

/-- What is written for a number starts with a digit. -/
theorem exists_isDigit_writeNat (n : Nat) :
    ∃ c rest, isDigit c = true ∧ writeNat n = c :: rest := by
  rcases Nat.eq_zero_or_pos n with rfl | hpos
  · exact ⟨'0', [], by decide, writeNat_zero⟩
  · obtain ⟨d, rest, -, hten, heq⟩ := exists_writeNat_eq_cons hpos
    exact ⟨_, rest, isDigit_hexDigit hten, heq⟩

/-- A number is read up to its end. -/
theorem literal_writeNat (short : Fault) (n : Nat) (h : EndsNumber rest) :
    literal short (writeNat n ++ rest) = .ok (plainLiteral n, rest) := by
  obtain ⟨c, ds, hdigit, heq⟩ := exists_isDigit_writeNat n
  have hminus : c ≠ '-' := by
    rintro rfl
    exact absurd hdigit (by decide)
  rw [← magnitude_writeNat short n h, heq, List.cons_append, literal]
  intro rest hcons
  exact hminus (List.cons.inj hcons).1

theorem isBlank_of_isDigit {c : Char} (h : isDigit c = true) : isBlank c = false := by
  rw [Bool.eq_false_iff]
  intro hblank
  simp only [isBlank, Bool.or_eq_true, beq_iff_eq] at hblank
  rcases hblank with ((rfl | rfl) | rfl) | rfl <;> exact absurd h (by decide)

end Json

end CairoTrace
