import SequentialChart.Decimal.Shortest

/-!
# The text of a number

A number is written with the digits of its shortest decimal, either positionally or as a coefficient
with an exponent. What varies between the outputs of the program is a record of decisions,
`NumberStyle`.

## Main definitions

* `NumberStyle` — the decisions.
* `NumberStyle.write` — the text of a binary number in a style.
* `NumberStyle.plain` — the style of messages and reports.
-/

namespace SequentialChart

structure NumberStyle where
  tie : Tie
  /-- The least and the greatest exponent of ten of a leading digit with which a number is written
  positionally; always, if absent. -/
  positional : Option (Int × Int)
  /-- The end of a whole number that is written positionally. -/
  wholeEnd : List Char
  infinity : List Char
  negativeInfinity : List Char
  nan : List Char

namespace NumberStyle

/-- The digits with the point set so that the last digit counts `10 ^ exponent`. -/
def writePositional (style : NumberStyle) (digits : List Char) (exponent : Int) : List Char :=
  if 0 ≤ exponent then digits ++ List.replicate exponent.toNat '0' ++ style.wholeEnd
  else
    let places := (-exponent).toNat
    let padded := List.replicate (places + 1 - digits.length) '0' ++ digits
    padded.take (padded.length - places) ++ '.' :: padded.drop (padded.length - places)

/-- One digit, a point and the other digits if there are any, and the signed exponent of ten of the
leading digit. -/
def writeScientific (digits : List Char) (leading : Int) : List Char :=
  let coefficient := match digits with
    | d :: rest@(_ :: _) => d :: '.' :: rest
    | _ => digits
  coefficient ++ 'e' :: (if leading < 0 then '-' else '+') :: Nat.toDigits 10 leading.natAbs

def writeDecimal (style : NumberStyle) (d : Decimal) : List Char :=
  let digits := Nat.toDigits 10 d.coefficient
  let leading := d.magnitude - 1
  let isPositional := match style.positional with
    | none => true
    | some (least, greatest) => decide (d.coefficient = 0 ∨ (least ≤ leading ∧ leading ≤ greatest))
  (if d.negative then ['-'] else []) ++
    if isPositional then style.writePositional digits d.exponent else writeScientific digits leading

def write (style : NumberStyle) : Binary → List Char
  | .finite negative significand power narrow =>
    style.writeDecimal (Decimal.shortest style.tie negative significand power narrow)
  | .infinite false => style.infinity
  | .infinite true => style.negativeInfinity
  | .nan => style.nan

/-- Messages and reports write every number positionally, whole ones without a point, and a tie goes
up. -/
def plain : NumberStyle where
  tie := .away
  positional := none
  wholeEnd := []
  infinity := "inf".toList
  negativeInfinity := "-inf".toList
  nan := "NaN".toList

end NumberStyle

def plainText (x : Float) : String := String.ofList (NumberStyle.plain.write (.ofFloat x))

end SequentialChart
