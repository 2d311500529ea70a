import CairoTrace.Machine.Operands

/-!
# Files of a run

A run leaves two files. One holds the registers before each step, as records of three numbers of
eight bytes, `ap`, `fp` and `pc`. The other holds the memory, as records of an address of eight
bytes and a value of as many bytes as a field element takes. All numbers have their lowest byte
first.
-/

namespace CairoTrace

/-- The number that bytes write, the lowest first. -/
def ofBytes : List UInt8 → Nat
  | [] => 0
  | b :: rest => b.toNat + 256 * ofBytes rest

namespace Registers

def recordLength : Nat := 24

def listOfBytes (bytes : List UInt8) : Except InputError (List Registers) :=
  let record := bytes.take recordLength
  if bytes = [] then .ok []
  else if record.length < recordLength then .error .shortRecord
  else do
    let here : Registers :=
      ⟨ofBytes (record.take 8), ofBytes ((record.drop 8).take 8), ofBytes (record.drop 16)⟩
    return here :: (← listOfBytes (bytes.drop recordLength))
termination_by bytes.length
decreasing_by
  have := List.length_pos_iff.2 ‹bytes ≠ []›
  simp only [List.length_drop, recordLength]
  omega

end Registers

namespace Memory

def entriesOfBytes (bytes : List UInt8) : Except InputError (List (Nat × Word)) :=
  let address := bytes.take 8
  let value := (bytes.drop 8).take Felt.byteLength
  if bytes = [] then .ok []
  else if address.length < 8 then .error .shortRecord
  else if value.length < Felt.byteLength then .error .shortValue
  else do
    let word ← residueOf starkPrime (ofBytes value)
    return (ofBytes address, word.val) :: (← entriesOfBytes (bytes.drop (8 + Felt.byteLength)))
termination_by bytes.length
decreasing_by
  have := List.length_pos_iff.2 ‹bytes ≠ []›
  simp only [List.length_drop]
  omega

def ofBytes (bytes : List UInt8) : Except InputError Memory :=
  return ofList (← entriesOfBytes bytes)

end Memory

end CairoTrace
