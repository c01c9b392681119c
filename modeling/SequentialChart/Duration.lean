import SequentialChart.Decimal.Read

/-!
# Durations

A duration counts seconds. It is written with a unit, `5s` or `250ms`, or where the context asks for
a duration anyway, as a bare number of seconds. Signs and exponents are no part of it.

## Main definitions

* `Duration.readLiteral` — a number with a unit.
* `Duration.read` — a number with or without a unit.
-/

namespace SequentialChart.Duration

open Text

def readLiteral (s : List Char) : Option Float :=
  let s := trim s
  match dropEnding? ['m', 's'] s with
  | some digits => (Decimal.readPlain digits).map fun d => d.toFloat / 1000
  | none =>
    match dropEnding? ['s'] s with
    | some digits => (Decimal.readPlain digits).map Decimal.toFloat
    | none => none

/-- The seconds that a number denotes, with a unit or without one. -/
def read (s : List Char) : Option Float :=
  match readLiteral s with
  | some seconds => some seconds
  | none => (Decimal.readPlain (trim s)).map Decimal.toFloat

end SequentialChart.Duration
