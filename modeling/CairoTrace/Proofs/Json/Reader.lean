import CairoTrace.Json.Reader
import CairoTrace.Proofs.Json.Text

/-!
# Values that are read back

A reader reads a text as a value if it does so in front of anything that may follow a value, and
leaves what follows (`Json.Reads`). Numbers and strings are read as they are written, and arrays
and records as their elements and members are (`Json.Reads.list`, `Json.Reads.record`).
-/

namespace CairoTrace

namespace Json

variable {α β σ : Type} {text rest : List Char}

/-! ## Texts of values -/

/-- What may follow a value in compact text. -/
inductive EndsValue : List Char → Prop
  | done : EndsValue []
  | comma (rest : List Char) : EndsValue (',' :: rest)
  | bracket (rest : List Char) : EndsValue (']' :: rest)
  | brace (rest : List Char) : EndsValue ('\x7d' :: rest)

/-- Whether a text starts like a value other than `null`. -/
inductive OpensValue : List Char → Prop
  | intro (c : Char) (rest : List Char) (hblank : isBlank c = false) (hend : c ≠ ']')
    (hnull : c ≠ 'n') : OpensValue (c :: rest)

theorem EndsValue.endsNumber (h : EndsValue rest) : EndsNumber rest := by
  cases h with
  | done => nofun
  | comma rest =>
    rintro c ⟨⟩
    decide
  | bracket rest =>
    rintro c ⟨⟩
    decide
  | brace rest =>
    rintro c ⟨⟩
    decide

theorem OpensValue.append (h : OpensValue text) (rest : List Char) :
    OpensValue (text ++ rest) := by
  obtain ⟨c, text, hblank, hend, hnull⟩ := h
  exact ⟨_, _, hblank, hend, hnull⟩

/-- A reader reads a text as a value, whatever follows that may follow a value. -/
structure Reads (r : Reader α) (text : List Char) (a : α) : Prop where
  opens : OpensValue text
  run : ∀ {rest}, EndsValue rest → r (text ++ rest) = .ok (a, rest)

variable {r : Reader α} {a : α}

theorem Reads.map (h : Reads r text a) (f : α → β) : Reads (f <$> r) text (f a) :=
  ⟨h.opens, fun hrest => map_apply (h.run hrest)⟩

/-- What takes nothing more from the text may make another value. -/
theorem Reads.bind {f : α → Reader β} {b : β} (h : Reads r text a)
    (hf : ∀ rest, f a rest = .ok (b, rest)) : Reads (r >>= f) text b :=
  ⟨h.opens, fun hrest => (bind_apply (h.run hrest)).trans (hf _)⟩

theorem Reads.option (h : Reads r text a) : Reads (option r) text (some a) := by
  refine ⟨h.opens, fun {rest} hrest => ?_⟩
  have hread := map_apply (f := some) (h.run hrest)
  obtain ⟨c, text, hblank, -, hnull⟩ := h.opens
  rw [Json.option, List.cons_append, bind_apply (peek_cons hblank)]
  generalize hshown : some c = shown
  split
  · exact absurd (Option.some.inj hshown) hnull
  · exact hread

theorem parse_eq_ok (h : Reads r text a) : parse r (String.ofList text) = .ok a := by
  have hread := h.run .done
  rw [List.append_nil] at hread
  rw [parse, String.toList_ofList, hread]
  rfl

/-! ## Strings and numbers -/

theorem opensValue_writeString (s : String) : OpensValue (writeString s) :=
  ⟨_, _, by decide, by decide, by decide⟩

theorem chars_writeString (s : String) (rest : List Char) :
    chars (writeString s ++ rest) = .ok (s.toList, rest) := by
  have htext : writeString s ++ rest = '"' :: (s.toList.flatMap escapeChar ++ '"' :: rest) := by
    rw [writeString, List.cons_append, List.append_assoc, List.singleton_append]
  have hlength := length_le_length_flatMap_escapeChar s.toList
  have hbody : stringBody (s.toList.flatMap escapeChar ++ '"' :: rest) = .ok (s.toList, rest) :=
    stringTail_escapeChar s.toList rest (by
      rw [List.length_append]
      omega)
  rw [htext, chars, bind_apply (peekSome_cons (by decide))]
  change (advance >>= fun _ => stringBody) _ = _
  rw [bind_apply (advance_cons _ _), hbody]

theorem string_writeString (s : String) (rest : List Char) :
    string (writeString s ++ rest) = .ok (s, rest) := by
  rw [string, map_apply (chars_writeString s rest), String.ofList_toList]

theorem Reads.string (s : String) : Reads string (writeString s) s :=
  ⟨opensValue_writeString s, fun {rest} _ => string_writeString s rest⟩

theorem Reads.numeral {n : Nat} (h : n < 2 ^ 256) :
    Reads numeral (writeString (Numeral.hex n)) n := by
  refine ⟨opensValue_writeString _, fun {rest} _ => ?_⟩
  rw [Json.numeral, bind_apply (chars_writeString _ rest), Numeral.ofText?_hex h]
  rfl

theorem Reads.nat {bound n : Nat} (hbound : n < bound) (hword : n < 2 ^ 64) :
    Reads (nat bound) (writeNat n) n := by
  obtain ⟨c, ds, hdigit, heq⟩ := exists_isDigit_writeNat n
  have hblank := isBlank_of_isDigit hdigit
  refine ⟨?_, fun {rest} hrest => ?_⟩
  · rw [heq]
    refine ⟨c, ds, hblank, ?_, ?_⟩ <;>
    · rintro rfl
      exact absurd hdigit (by decide)
  · have hpeek : peekSome (writeNat n ++ rest) = .ok (c, writeNat n ++ rest) := by
      rw [heq, List.cons_append, peekSome_cons hblank]
    have hvalue : digitsValue (plainLiteral n).whole = n := digitsValue_writeNat n
    have hplain : (plainLiteral n).plain = true ∧ ¬ (plainLiteral n).negative = true ∧ n < bound :=
      ⟨rfl, Bool.false_ne_true, hbound⟩
    rw [Json.nat, bind_apply hpeek]
    simp only [hdigit, Bool.or_true, if_true]
    rw [bind_apply (literal_writeNat _ n hrest.endsNumber), overflows_plainLiteral hword, hvalue,
      if_neg Bool.false_ne_true, if_pos hplain]
    rfl

/-! ## Separated parts -/

/-- Parts with a comma in front of each, but not in front of the first if `first`. -/
def separated : (first : Bool) → List (List Char) → List Char
  | _, [] => []
  | true, part :: parts => part ++ separated false parts
  | false, part :: parts => ',' :: (part ++ separated false parts)

theorem commaSeparated_eq (parts : List (List Char)) :
    commaSeparated parts = separated true parts := by
  induction parts with
  | nil => rfl
  | cons part parts ih =>
    cases parts with
    | nil => exact (List.append_nil part).symm
    | cons next parts =>
      rw [commaSeparated, ih, separated, separated, separated]
      exact List.cons_ne_nil _ _

theorem length_le_length_separated (parts : List (List Char)) :
    parts.length ≤ (separated false parts).length := by
  induction parts with
  | nil => exact le_rfl
  | cons part parts ih =>
    rw [separated, List.length_cons, List.length_cons, List.length_append]
    omega

/-- The parts are fewer than the characters up to the bracket after them, and one more. -/
theorem length_lt_length_commaSeparated_append (parts : List (List Char)) (c : Char)
    (rest : List Char) : parts.length < (commaSeparated parts ++ c :: rest).length + 1 := by
  rw [commaSeparated_eq, List.length_append, List.length_cons]
  cases parts with
  | nil => exact Nat.succ_pos _
  | cons part parts =>
    have hparts := length_le_length_separated parts
    rw [separated, List.length_append, List.length_cons]
    omega

theorem endsValue_separated (parts : List (List Char)) (h : EndsValue rest) :
    EndsValue (separated false parts ++ rest) := by
  cases parts with
  | nil => exact h
  | cons part parts => exact .comma _

/-! ## Arrays -/

theorem moreElements_first (h : OpensValue text) : moreElements true text = .ok (true, text) := by
  obtain ⟨c, rest, hblank, hend, -⟩ := h
  rw [moreElements, bind_apply (peekSome_cons hblank)]
  split
  · exact absurd rfl hend
  · rfl

theorem moreElements_comma (h : OpensValue text) :
    moreElements false (',' :: text) = .ok (true, text) := by
  obtain ⟨c, rest, hblank, hend, -⟩ := h
  have hnext : peekSome (c :: rest) = .ok (c, c :: rest) := peekSome_cons hblank
  rw [moreElements, bind_apply (peekSome_cons (by decide))]
  change (advance >>= fun _ => peekSome >>= fun d =>
    if d == ']' then throw .malformed else pure true) _ = _
  rw [bind_apply (advance_cons _ _), bind_apply hnext,
    if_neg (by rw [beq_iff_eq]; exact hend)]
  rfl

/-- Before an element stands a comma, if it is not the first. -/
theorem moreElements_separated (first : Bool) (parts : List (List Char)) (h : OpensValue text) :
    moreElements first (separated first (text :: parts) ++ rest) =
      .ok (true, text ++ (separated false parts ++ rest)) := by
  cases first with
  | true =>
    rw [separated, List.append_assoc]
    exact moreElements_first (h.append _)
  | false =>
    rw [separated, List.cons_append, List.append_assoc]
    exact moreElements_comma (h.append _)

variable {element : Reader α} {texts : List (List Char)} {as : List α}

/-- Elements are read one after the other. -/
theorem elements_separated (h : List.Forall₂ (Reads element) texts as) (first : Bool)
    (rest : List Char) {fuel : Nat} (hfuel : texts.length < fuel) :
    elements element fuel first (separated first texts ++ ']' :: rest) = .ok (as, ']' :: rest) := by
  induction h generalizing first fuel with
  | nil =>
    obtain ⟨fuel, rfl⟩ := Nat.exists_eq_add_one_of_ne_zero (Nat.ne_of_gt hfuel)
    cases first <;> rfl
  | @cons text a texts as hread _ ih =>
    obtain ⟨fuel, rfl⟩ := Nat.exists_eq_add_one_of_ne_zero (Nat.ne_zero_of_lt hfuel)
    have helement := hread.run (endsValue_separated texts (.bracket rest))
    have hrest := ih false (Nat.lt_of_succ_lt_succ hfuel)
    rw [elements, bind_apply (moreElements_separated first texts hread.opens), if_pos rfl,
      bind_apply helement, bind_apply hrest]
    rfl

/-- An array is read as its elements are. -/
theorem Reads.list (h : List.Forall₂ (Reads element) texts as) :
    Reads (list element) (writeList texts) as := by
  refine ⟨⟨_, _, by decide, by decide, by decide⟩, fun {rest} _ => ?_⟩
  have htext : writeList texts ++ rest = '[' :: (commaSeparated texts ++ ']' :: rest) := by
    rw [writeList, List.cons_append, List.append_assoc, List.singleton_append]
  have hget (text : List Char) : (get : Reader (List Char)) text = .ok (text, text) := rfl
  have helements := elements_separated h true rest
    (length_lt_length_commaSeparated_append texts ']' rest)
  rw [← commaSeparated_eq] at helements
  rw [htext, Json.list, bind_apply (peekSome_cons (by decide))]
  change (advance >>= fun _ => get >>= fun text => elements element (text.length + 1) true >>=
    fun as => closeArray >>= fun _ => pure as) _ = _
  rw [bind_apply (advance_cons _ _), bind_apply (hget _), bind_apply helements]
  rfl

/-! ## Records -/

variable {known : List (Member σ)} {s s' s'' : σ}

/-- Whether the members that are present, one after the other, are read into a record. -/
inductive ReadsMembers (known : List (Member σ)) :
    List (String × Option (List Char)) → σ → σ → Prop
  | done (s : σ) : ReadsMembers known [] s s
  | absent {members : List (String × Option (List Char))} {s s' : σ} (name : String)
    (hrest : ReadsMembers known members s s') : ReadsMembers known ((name, none) :: members) s s'
  | present {members : List (String × Option (List Char))} {name : String} {value : List Char}
    {member : Member σ} {s s' s'' : σ} (hfind : known.find? (·.name == name) = some member)
    (hgiven : member.given s = false) (hread : Reads (member.read s) value s')
    (hrest : ReadsMembers known members s' s'') :
    ReadsMembers known ((name, some value) :: members) s s''

/-- The texts of the members that are present. -/
def memberTexts (members : List (String × Option (List Char))) : List (List Char) :=
  members.filterMap fun (name, value?) => value?.map fun value => writeString name ++ ':' :: value

theorem moreMembers_first (rest : List Char) :
    moreMembers true ('"' :: rest) = .ok (true, '"' :: rest) := rfl

theorem moreMembers_comma (rest : List Char) :
    moreMembers false (',' :: '"' :: rest) = .ok (true, '"' :: rest) := rfl

theorem moreMembers_separated (first : Bool) (name : String) (value : List Char)
    (parts : List (List Char)) (rest : List Char) :
    moreMembers first (separated first ((writeString name ++ ':' :: value) :: parts) ++ rest) =
      .ok (true, writeString name ++ ':' :: (value ++ (separated false parts ++ rest))) := by
  have htext : writeString name ++ ':' :: value ++ separated false parts ++ rest =
      writeString name ++ ':' :: (value ++ (separated false parts ++ rest)) := by
    simp only [List.append_assoc, List.cons_append]
  cases first with
  | true =>
    rw [separated, htext]
    exact moreMembers_first _
  | false =>
    rw [separated, List.cons_append, htext]
    exact moreMembers_comma _

/-- A member is read by its name, in front of what may follow its value. -/
theorem members_separated_cons {fuel : Nat} {first : Bool} {name : String} {value : List Char}
    {member : Member σ} (hfind : known.find? (·.name == name) = some member)
    (hgiven : member.given s = false) (hread : Reads (member.read s) value s')
    (parts : List (List Char)) (hrest : EndsValue rest) :
    members known (fuel + 1) first s
        (separated first ((writeString name ++ ':' :: value) :: parts) ++ rest) =
      members known fuel false s' (separated false parts ++ rest) := by
  have hvalue := hread.run (endsValue_separated parts hrest)
  rw [members, bind_apply (moreMembers_separated first name value parts rest), if_pos rfl,
    bind_apply (string_writeString name _)]
  simp only [hfind, Option.any_some, hgiven]
  rw [if_neg Bool.false_ne_true, bind_apply (peekSome_cons (by decide))]
  change (advance >>= fun _ => member.read s >>= members known fuel false) _ = _
  rw [bind_apply (advance_cons _ _), bind_apply hvalue]

/-- Members are read one after the other. -/
theorem members_separated {written : List (String × Option (List Char))}
    (h : ReadsMembers known written s s') (first : Bool) (rest : List Char) {fuel : Nat}
    (hfuel : (memberTexts written).length < fuel) :
    members known fuel first s (separated first (memberTexts written) ++ '\x7d' :: rest) =
      .ok (s', '\x7d' :: rest) := by
  induction h generalizing first fuel with
  | done s =>
    obtain ⟨fuel, rfl⟩ := Nat.exists_eq_add_one_of_ne_zero (Nat.ne_of_gt hfuel)
    cases first <;> rfl
  | absent name _ ih => exact ih first hfuel
  | present hfind hgiven hread _ ih =>
    obtain ⟨fuel, rfl⟩ := Nat.exists_eq_add_one_of_ne_zero (Nat.ne_zero_of_lt hfuel)
    exact (members_separated_cons hfind hgiven hread _ (.brace rest)).trans
      (ih false (Nat.lt_of_succ_lt_succ hfuel))

/-- A record is read from its members, if they make one. -/
theorem Reads.record {written : List (String × Option (List Char))} {empty : σ}
    {build : σ → Option α} (h : ReadsMembers known written empty s) (hbuild : build s = some a) :
    Reads (record known empty build) (writeObject written) a := by
  refine ⟨⟨_, _, by decide, by decide, by decide⟩, fun {rest} _ => ?_⟩
  have htext : writeObject written ++ rest =
      '\x7b' :: (commaSeparated (memberTexts written) ++ '\x7d' :: rest) := by
    rw [writeObject, List.cons_append, List.append_assoc, List.singleton_append]
    rfl
  have hget (text : List Char) : (get : Reader (List Char)) text = .ok (text, text) := rfl
  have hmembers := members_separated h true rest
    (length_lt_length_commaSeparated_append (memberTexts written) '\x7d' rest)
  rw [← commaSeparated_eq] at hmembers
  rw [htext, Json.record, bind_apply (peekSome_cons (by decide))]
  change (advance >>= fun _ => get >>= fun text =>
    members known (text.length + 1) true empty >>= _) _ = _
  rw [bind_apply (advance_cons _ _), bind_apply (hget _), bind_apply hmembers, hbuild]
  rfl

/-- A member of one value is read where none has been put. -/
theorem ReadsMembers.put {slot : σ → Option α} {value : Reader α} {put : σ → α → σ}
    {name : String} {mayEnd : Bool} {written : List (String × Option (List Char))}
    (hfind : known.find? (·.name == name) =
      some ⟨name, fun s => (slot s).isSome, fun s => put s <$> value, mayEnd⟩)
    (hslot : slot s = none) (hread : Reads value text a)
    (hrest : ReadsMembers known written (put s a) s') :
    ReadsMembers known ((name, some text) :: written) s s' :=
  .present hfind (congrArg Option.isSome hslot) (hread.map (put s)) hrest

end Json

end CairoTrace
