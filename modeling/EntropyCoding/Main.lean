import EntropyCoding.CommandLine

/-!
# The program

Passes the command line on, and prints what comes back.
-/

open EntropyCoding

/-- Prints a family of static codes, extended to a larger alphabet. -/
def main (args : List String) : IO UInt32 := do
  let outcome := runCommandLine args
  IO.print outcome.output
  for event in outcome.events do
    IO.eprintln (event.level.name ++ " " ++ event.message)
  match outcome.failure? with
  | some failure => IO.eprintln failure
  | none => pure ()
  return UInt32.ofNat outcome.exit
