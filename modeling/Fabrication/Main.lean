import Fabrication.Demo

/-!
# Command line

`main NAME` runs the demonstration program `NAME` (`reaction_chain` or `profit_report`),
prints its lines and exits with its exit code.
-/

/-- Run the demonstration program named by the first argument. -/
def main (args : List String) : IO UInt32 := do
  match args.head? >>= Fabrication.Demo.byName? with
  | some program =>
    let t := (program.run {}).1
    for line in t.lines do
      IO.println line
    pure t.exit.toUInt32
  | none =>
    IO.eprintln "usage: main (reaction_chain | profit_report)"
    pure 2
