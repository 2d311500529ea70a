import CairoTrace.InputError
import CairoTrace.Machine.Storage
import Std.Data.HashMap

/-!
# Memory

A memory is a finite map from addresses to words. Its extent reaches just past the largest
address that holds a word.
-/

namespace CairoTrace

structure Memory where
  words : Std.HashMap Nat Word := {}
  /-- One more than the largest address that holds a word. -/
  extent : Nat := 0

namespace Memory

def empty : Memory := {}

def insert (m : Memory) (address : Nat) (word : Word) : Memory :=
  ⟨m.words.insert address word, max m.extent (address + 1)⟩

/-- The memory of a list of entries; of two at one address the later one counts. -/
def ofList (entries : List (Nat × Word)) : Memory :=
  entries.foldl (fun m entry => m.insert entry.1 entry.2) empty

def get? (m : Memory) (address : Nat) : Option Word := m.words[address]?

def get (m : Memory) (address : Nat) : Except InputError Word :=
  match m.get? address with
  | some word => .ok word
  | none => .error (.missingMemory address)

def size (m : Memory) : Nat := m.words.size

/-- The bytes of a cell: 32 of a word, and a mark whether there is one. -/
def cellBytes : Nat := 40

/-- Whether a table of cells up to the extent of a memory can be stored. -/
def fits (m : Memory) : Bool := m.extent ≤ maxCells cellBytes

@[simp] theorem get?_empty (a : Nat) : empty.get? a = none := by simp [empty, get?]

theorem get?_insert (m : Memory) (a b : Nat) (w : Word) :
    (m.insert a w).get? b = if a = b then some w else m.get? b := by
  simp [insert, get?, Std.HashMap.getElem?_insert]

theorem get_eq_ok_iff {m : Memory} {a : Nat} {w : Word} : m.get a = .ok w ↔ m.get? a = some w := by
  unfold get
  split <;> simp_all

end Memory

end CairoTrace
