import CairoTrace.Builtin.Error

/-!
# Diluted numbers

A number is diluted by spreading its digits `spacing` places apart. A word is split into strands
that are diluted numbers: it is cut into chunks of `spacing · bits` digits, and strand `j` of a
chunk has the digits `j`, `j + spacing`, `j + 2·spacing`, … of the chunk at distances of `spacing`
from its lowest place. The word is the sum of its strands, each shifted to where it comes from.
-/

namespace CairoTrace

/-- Sets digit `i` of a word to `b`; there are 256 digits. -/
def setBit (w : Word) (i : Nat) (b : Bool) : Word :=
  if i < 256 then
    if b then w ||| (1 <<< i) else if w.testBit i then w - (1 <<< i) else w
  else w

/-- The lowest `bits` digits of a word, `spacing` places apart. -/
def dilute (w : Word) (spacing : Nat) : (bits : Nat) → Word
  | 0 => 0
  | bits + 1 => setBit (dilute w spacing bits) (bits * spacing) (w.testBit bits)

/-- How words are split into strands. -/
structure Dilution where
  spacing : Nat
  /-- The digits of a strand. -/
  bits : Nat
  /-- The digits of a word. -/
  totalBits : Nat
deriving DecidableEq

namespace Dilution

def chunkBits (d : Dilution) : Nat := d.spacing * d.bits

def chunks (d : Dilution) : Nat := (d.totalBits + d.chunkBits - 1) / d.chunkBits

def strands (d : Dilution) : Nat := d.chunks * d.spacing

/-- The lowest place of strand `k`. -/
def strandShift (d : Dilution) (k : Nat) : Nat := k / d.spacing * d.chunkBits + k % d.spacing

/-- The number of digits of strand `j` of the last chunk that are digits of the word. -/
def topStrandBits (d : Dilution) (j : Nat) : Nat :=
  let start := (d.chunks - 1) * d.chunkBits + j
  min d.bits ((d.totalBits - start + d.spacing - 1) / d.spacing)

def strand (d : Dilution) (w : Word) (k : Nat) : Word :=
  (List.range d.bits).foldl
    (fun s t =>
      let place := d.strandShift k + d.spacing * t
      if place < 256 then setBit s (d.spacing * t) (w.testBit place) else s)
    0

/-- The strands of a word, those of the lowest chunk first. -/
def partition (d : Dilution) (w : Word) : List Word := (List.range d.strands).map (d.strand w)

end Dilution

end CairoTrace
