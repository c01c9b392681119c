import SequentialChart.Decimal.Binary

/-!
# Shortest decimals

Among the decimals that read back as a given binary number, the one with the fewest digits, and
among those the nearest to the number.

The decimals that read back form an interval around the number, whose ends belong to it if the
significand is even. On the grid of the decimals with `n` digits it is enough to look at the two
neighbours of the number; the first `n` for which one of them lies in the interval decides.

## Main definitions

* `Tie` — which neighbour wins if both are equally near.
* `Interval` — the interval, over a common denominator.
* `Decimal.shortest` — the choice.
-/

namespace SequentialChart

/-- The choice between two decimals that are equally near. -/
inductive Tie where
  | away
  | even
  deriving DecidableEq, Repr

/-- The reals that round to a binary number: those between `low` and `high`, as fractions with the
denominator `scale`, with the ends if `closed`. The number itself is `middle`. -/
structure Interval where
  low : Nat
  middle : Nat
  high : Nat
  scale : Nat
  closed : Bool

namespace Interval

/-- The interval of the number `significand × 2 ^ power`: half a gap to either side, in quarters of
the last bit. -/
def around (significand : Nat) (power : Int) (narrow : Bool) : Interval :=
  let up := Nat.pow 2 (power - 2).toNat
  { low := (4 * significand - (if narrow then 1 else 2)) * up
    middle := 4 * significand * up
    high := (4 * significand + 2) * up
    scale := Nat.pow 2 (2 - power).toNat
    closed := significand % 2 == 0 }

/-- The interval in units of `10 ^ exponent`. -/
def rescale (i : Interval) (exponent : Int) : Interval :=
  let up := Nat.pow 10 (-exponent).toNat
  { i with
    low := i.low * up
    middle := i.middle * up
    high := i.high * up
    scale := i.scale * Nat.pow 10 exponent.toNat }

def contains (i : Interval) (n : Nat) : Bool :=
  if i.closed then i.low ≤ n * i.scale && n * i.scale ≤ i.high
  else i.low < n * i.scale && n * i.scale < i.high

def nearest? (tie : Tie) (i : Interval) : Option Nat :=
  let below := i.middle / i.scale
  let above := below + 1
  match i.contains below, i.contains above with
  | false, false => none
  | true, false => some below
  | false, true => some above
  | true, true =>
    let rest := 2 * (i.middle - below * i.scale)
    if rest < i.scale then some below
    else if i.scale < rest then some above
    else match tie with
      | .away => some above
      | .even => some (if below % 2 = 0 then below else above)

/-- The exponent of ten of the leading digit of the middle. -/
def leading (i : Interval) : Int :=
  let guess : Int :=
    ((Nat.toDigits 10 i.middle).length : Int) - ((Nat.toDigits 10 i.scale).length : Int)
  let scaled := i.rescale guess
  if scaled.middle < scaled.scale then guess - 1 else guess

end Interval

namespace Decimal

/-- The coefficient and the exponent of the shortest decimal that denotes `significand × 2 ^ power`.
Seventeen digits are always enough for a double, and nine for a single. -/
def shortestDigits (tie : Tie) (significand : Nat) (power : Int) (narrow : Bool) : Nat × Int :=
  let interval := Interval.around significand power narrow
  let top := interval.leading
  let found := (List.range 17).findSome? fun (more : Nat) =>
    let exponent := top - (more : Int)
    ((interval.rescale exponent).nearest? tie).map fun c => strip 20 c exponent
  found.getD (0, 0)

/-- The shortest decimal that denotes a finite binary number; zero keeps its sign. -/
def shortest (tie : Tie) (negative : Bool) (significand : Nat) (power : Int) (narrow : Bool) :
    Decimal :=
  if significand = 0 then ⟨negative, 0, 0⟩
  else
    let (coefficient, exponent) := shortestDigits tie significand power narrow
    ⟨negative, coefficient, exponent⟩

end Decimal

end SequentialChart
