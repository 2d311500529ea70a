/-!
# Storage

Cells are kept in tables, one after another. A table takes fewer than `2^63` bytes, so that the
distance between two bytes of it is a signed word of 64 bits.
-/

namespace CairoTrace

/-- The most cells of `bytes` bytes that a table can have. -/
def maxCells (bytes : Nat) : Nat := ((1 <<< 63) - 1) / bytes

end CairoTrace
