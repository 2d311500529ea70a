import CairoTrace.Builtin.Dilution
import CairoTrace.Run.PrivateInput

/-!
# Bitwise operations

Instances of the builtin that computes the conjunction, the exclusive disjunction and the
disjunction of two words. A trace holds the strands of both words, of their conjunction and of
their exclusive disjunction.
-/

namespace CairoTrace.Bitwise

/-- What a trace holds of an instance. -/
structure Witness where
  inst : BitwiseInstance
  conjunction : Word
  exclusive : Word
  disjunction : Word
  /-- The strands of both operands, of the conjunction and of the exclusive disjunction. -/
  partitions : List (List Word)

def Witness.ofInstance (inst : BitwiseInstance) (d : Dilution) : Except BuiltinError Witness := do
  checkBits inst.x d.totalBits
  checkBits inst.y d.totalBits
  let conjunction := inst.x &&& inst.y
  let exclusive := inst.x ^^^ inst.y
  return {
    inst, conjunction, exclusive
    disjunction := inst.x ||| inst.y
    partitions := [inst.x, inst.y, conjunction, exclusive].map d.partition }

end CairoTrace.Bitwise
