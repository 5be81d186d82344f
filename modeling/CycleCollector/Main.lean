import CycleCollector.Demo.Run
/-!
# Command line

Runs the demonstration with the given arguments and prints its report. The exit code is 1 if the
demonstration refuses, and 2 if the arguments are not understood.
-/

open CycleCollector

def main (texts : List String) : IO UInt32 := do
  match Demo.Arguments.parse? texts with
  | none =>
    IO.eprintln "unknown, repeated or incomplete argument"
    return 2
  | some args =>
    match Demo.run args with
    | .error failure =>
      IO.eprintln failure.message
      return 1
    | .ok report =>
      report.lines.forM IO.println
      return 0
