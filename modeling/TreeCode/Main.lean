import TreeCode.Dump.Basic

/-!
The command line: dump a sample program for a machine.
-/

/-- Run with the command line arguments, print what comes out and exit with its code. -/
def main (args : List String) : IO UInt32 := do
  let output := TreeCode.Dump.run args
  IO.print output.stdout
  IO.eprint output.stderr
  return output.code.toUInt32
