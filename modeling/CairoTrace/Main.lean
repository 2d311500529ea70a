import CairoTrace.CommandLine

/-!
# The program

Runs the command line with the files of the machine and with random challenges.
-/

namespace CairoTrace

namespace CommandLine

/-- The number that bytes write, the highest first. -/
def bytesToNat (bytes : ByteArray) : Nat := bytes.foldl (fun n b => 256 * n + b.toNat) 0

/-- Random elements of the field. Each is drawn from twice as many bytes as an element has, so
that all are almost equally likely. -/
def randomChallenges (count : Nat) : IO (List Felt) :=
  (List.replicate count ()).mapM fun _ => return .ofNat (bytesToNat (← IO.getRandomBytes 64))

/-- The contents of a file that can be read. No file has a null character in its path. -/
def readFile? (path : String) : IO (Option ByteArray) :=
  if path.toList.contains '\x00' then return none
  else
    try return some (← IO.FS.readBinFile path)
    catch _ => return none

/-- The machine that the program runs on. -/
def machine : Host IO := { readFile := readFile?, challenges := randomChallenges }

end CommandLine

end CairoTrace

def main (arguments : List String) : IO UInt32 := do
  match ← CairoTrace.CommandLine.run CairoTrace.CommandLine.machine arguments with
  | .ok report =>
    IO.print report.text
    return report.exitCode.toUInt32
  | .error failure =>
    IO.eprintln failure.message
    return failure.exitCode.toUInt32
