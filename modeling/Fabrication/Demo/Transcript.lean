import Fabrication.Api.Codec

/-!
# Transcripts of the demonstration programs

A demonstration program writes lines and ends with an exit code: zero when it ran through,
one when a step was refused, and 101 when a step broke down. Generated identifiers in its
text are written as their labels.
-/

namespace Fabrication

namespace Demo

/-- What a program wrote, and how it ended. -/
structure Transcript where
  lines : List String := []
  exit : Nat := 0
  deriving DecidableEq, Repr, Inhabited

def exitOf : Failure → Nat
  | .rejected _ => 1
  | .fault _ => 101

def alignRight (width : Nat) (s : String) : String := "".pushn ' ' (width - s.length) ++ s

def alignLeft (width : Nat) (s : String) : String := s.pushn ' ' (width - s.length)

abbrev Script := Api.Encode

/-- Continue with the value of an outcome, or stop with the lines so far. -/
def continueWith {α : Type} (lines : List String) (o : Outcome α)
    (k : α → Script Transcript) : Script Transcript :=
  match o with
  | .ok a => k a
  | .error e => pure { lines, exit := exitOf e }

end Demo

end Fabrication
