import CairoTrace.Json.DoubleRange
import CairoTrace.Numeral

/-!
# Readers of JSON values

Readers of the values that documents are made of. A record is an object whose members come in any
order, or an array of all its members in their declared order. Members that the record does not
know are skipped, a member that is given twice is refused when its second name is read, and a
member that is left out is refused at the end unless it may be absent.
-/

namespace CairoTrace.Json

/-- Takes a value of a kind that is not wanted: its first token has to be whole, and then the
shape of the document is at fault. -/
def mismatch {α : Type} : Reader α := do
  match ← peekSome with
  | 'n' => advance; word ['u', 'l', 'l']
  | 't' => advance; word ['r', 'u', 'e']
  | 'f' => advance; word ['a', 'l', 's', 'e']
  | '"' => advance; discard stringBody
  | '[' => pure ()
  | '\x7b' => pure ()
  | c => if c == '-' || isDigit c then discard (literal .truncated) else throw .malformed
  throw .mismatched

/-- A natural number below `bound`. Only plain digits count: a point, an exponent or a sign makes
a number of another kind, which has to lie in the range of numbers nevertheless. -/
def nat (bound : Nat) : Reader Nat := do
  let c ← peekSome
  if c == '-' || isDigit c then
    let l ← literal .truncated
    if l.overflows then throw .malformed
    let n := digitsValue l.whole
    if l.plain ∧ ¬ l.negative ∧ n < bound then pure n else throw .mismatched
  else mismatch

def chars : Reader (List Char) := do
  match ← peekSome with
  | '"' => advance; stringBody
  | _ => mismatch

def string : Reader String := String.ofList <$> chars

/-- A number below `2 ^ 256` written in a string. -/
def numeral : Reader Nat := do
  match Numeral.ofText? (← chars) with
  | some n => pure n
  | none => throw .mismatched

/-- A value or `null`. -/
def option {α : Type} (value : Reader α) : Reader (Option α) := do
  match ← peek with
  | some 'n' => do advance; word ['u', 'l', 'l']; return none
  | _ => some <$> value

/-! ## Arrays -/

/-- Whether another element follows in an array, of which none has been read if `first`. -/
def moreElements (first : Bool) : Reader Bool := do
  match ← peekSome with
  | ']' => pure false
  | c =>
    if first then pure true
    else if c == ',' then
      advance
      if (← peekSome) == ']' then throw .malformed else pure true
    else throw .malformed

/-- The end of an array of which every wanted element has been read. -/
def closeArray : Reader Unit := do
  match ← peekSome with
  | ']' => advance
  | _ => throw .malformed

/-- The elements of an array; `fuel` bounds their count. -/
def elements {α : Type} (element : Reader α) : (fuel : Nat) → (first : Bool) → Reader (List α)
  | 0, _ => throw .malformed
  | fuel + 1, first => do
    if ← moreElements first then
      let a ← element
      let rest ← elements element fuel false
      return a :: rest
    else return []

/-- An array. Every element takes a character of the text, so the length of the text bounds their
count. -/
def list {α : Type} (element : Reader α) : Reader (List α) := do
  match ← peekSome with
  | '[' =>
    advance
    let text ← get
    let as ← elements element (text.length + 1) true
    closeArray
    return as
  | _ => mismatch

def vector {α : Type} (n : Nat) (element : Reader α) : Reader (List α) := do
  match ← peekSome with
  | '[' =>
    advance
    let as ← (List.range n).mapM fun i => do
      if ← moreElements (i == 0) then element else throw .mismatched
    closeArray
    return as
  | _ => mismatch

/-! ## Values that are skipped -/

/-- A bracket that has been opened. -/
inductive Bracket
  | square
  | curly
deriving DecidableEq

/-- The name of a member that is skipped, with its colon. -/
def skipName : Reader Unit := do
  match ← peekSome with
  | '"' => advance; skipString
  | _ => throw .malformed
  match ← peekSome with
  | ':' => advance
  | _ => throw .malformed

/-- Closes the brackets that end here, and goes on to the next value inside the bracket that is
still open, if any. The last value is complete if `complete`, and otherwise the innermost bracket
has just been opened. -/
def skipClose : (opened : List Bracket) → (complete : Bool) → Reader (List Bracket)
  | [], _ => pure []
  | b :: outer, complete => do
    let c ← peekSome
    if (c == ']' && b == .square) || (c == '\x7d' && b == .curly) then
      advance
      skipClose outer true
    else
      if complete then
        if c == ',' then advance else throw .malformed
      if b == .curly then skipName
      return b :: outer

/-- Skips values until every bracket of `opened` is closed; `fuel` bounds the count of values. -/
def skipValues : (fuel : Nat) → (opened : List Bracket) → Reader Unit
  | 0, _ => throw .malformed
  | fuel + 1, opened => do
    let (opened, complete) ← match ← peekSome with
      | 'n' => do advance; word ['u', 'l', 'l']; pure (opened, true)
      | 't' => do advance; word ['r', 'u', 'e']; pure (opened, true)
      | 'f' => do advance; word ['a', 'l', 's', 'e']; pure (opened, true)
      | '"' => do advance; skipString; pure (opened, true)
      | '[' => do advance; pure (Bracket.square :: opened, false)
      | '\x7b' => do advance; pure (Bracket.curly :: opened, false)
      | c =>
        if c == '-' || isDigit c then do discard (literal .malformed); pure (opened, true)
        else throw .malformed
    match ← skipClose opened complete with
    | [] => pure ()
    | opened => skipValues fuel opened

def skip : Reader Unit := do
  let text ← get
  skipValues (text.length + 1) []

/-! ## Records -/

/-- A member of a record that is being read into `σ`. -/
structure Member (σ : Type) where
  name : String
  given : σ → Bool
  /-- Reads the value of the member into the record. -/
  read : σ → Reader σ
  /-- Whether the record may be given as an array that ends before the member. -/
  mayEnd : Bool := false

/-- Whether another member follows in an object, of which none has been read if `first`. -/
def moreMembers (first : Bool) : Reader Bool := do
  match ← peekSome with
  | '\x7d' => pure false
  | c =>
    if first then
      if c == '"' then pure true else throw .malformed
    else if c == ',' then
      advance
      if (← peekSome) == '"' then pure true else throw .malformed
    else throw .malformed

/-- Reads the members of an object into `s`; `fuel` bounds their count. -/
def members {σ : Type} (known : List (Member σ)) : (fuel : Nat) → (first : Bool) → σ → Reader σ
  | 0, _, _ => throw .malformed
  | fuel + 1, first, s => do
    if ← moreMembers first then
      let name ← string
      let member? := known.find? (·.name == name)
      if member?.any (·.given s) then throw .mismatched
      match ← peekSome with
      | ':' => advance
      | _ => throw .malformed
      match member? with
      | some member => members known fuel false (← member.read s)
      | none => do skip; members known fuel false s
    else return s

/-- Reads the members of a record that is given as an array. -/
def memberValues {σ : Type} : List (Member σ) → (first : Bool) → σ → Reader σ
  | [], _, s => pure s
  | member :: rest, first, s => do
    if ← moreElements first then memberValues rest false (← member.read s)
    else if member.mayEnd then memberValues rest first s
    else throw .mismatched

/-- A record: the members are read into `empty`, and `build` makes the record of them unless one
is missing. -/
def record {σ α : Type} (known : List (Member σ)) (empty : σ) (build : σ → Option α) :
    Reader α := do
  match ← peekSome with
  | '[' =>
    advance
    let s ← memberValues known true empty
    let some a := build s | throw .mismatched
    closeArray
    return a
  | '\x7b' =>
    advance
    let text ← get
    let s ← members known (text.length + 1) true empty
    let some a := build s | throw .mismatched
    match ← peekSome with
    | '\x7d' => advance
    | _ => throw .malformed
    return a
  | _ => mismatch

def Member.required {σ α : Type} (name : String) (slot : σ → Option α) (value : Reader α)
    (put : σ → α → σ) : Member σ :=
  ⟨name, fun s => (slot s).isSome, fun s => put s <$> value, false⟩

def Member.optional {σ α : Type} (name : String) (slot : σ → Option α) (value : Reader α)
    (put : σ → α → σ) : Member σ :=
  ⟨name, fun s => (slot s).isSome, fun s => put s <$> value, true⟩

/-- A record of numbers only, made of their values in the declared order. -/
def numbers {α : Type} (fields : List (String × Reader Nat)) (build : List Nat → Option α) :
    Reader α :=
  record
    (fields.map fun (name, value) =>
      .required name (List.lookup name) value fun given n => (name, n) :: given)
    [] fun given => do build (← fields.mapM fun (name, _) => given.lookup name)

/-- Reads a document, which is one value between blanks. -/
def parse {α : Type} (value : Reader α) (text : String) : Except Fault α := do
  let (a, rest) ← value text.toList
  if rest.dropWhile isBlank = [] then return a else throw .malformed

end CairoTrace.Json
