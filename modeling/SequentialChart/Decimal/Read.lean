import SequentialChart.Decimal.Basic
import SequentialChart.Text.Ascii

/-!
# Numerals

The two ways a number is written: plainly, as digits with an optional fraction, and in general, with
an optional sign, a fraction on either side of the point, an optional exponent, or one of the words
for the values that are not finite.

## Main definitions

* `Decimal.readPlain` — `12` and `12.5`.
* `Decimal.readUnsigned` — also `12.`, `.5` and `1.5e-3`.
* `Decimal.readFloat` — the double that a signed numeral denotes, `inf` and `nan` among them.
-/

namespace SequentialChart.Decimal

open Text

def digitsValue (s : List Char) : Nat := s.foldl (fun n c => 10 * n + (c.toNat - '0'.toNat)) 0

/-- At least one character, and digits only. -/
def isDigits (s : List Char) : Bool := !s.isEmpty && s.all Char.isDigit

def ofDigits (whole fraction : List Char) : Decimal :=
  ⟨false, digitsValue (whole ++ fraction), -(fraction.length : Int)⟩

def readPlain (s : List Char) : Option Decimal :=
  let whole := s.takeWhile (· ≠ '.')
  match s.dropWhile (· ≠ '.') with
  | [] => if isDigits whole then some (ofDigits whole []) else none
  | _ :: fraction =>
    if isDigits whole && isDigits fraction then some (ofDigits whole fraction) else none

def takeSign : List Char → Bool × List Char
  | '-' :: s => (true, s)
  | '+' :: s => (false, s)
  | s => (false, s)

/-- The exponent part: nothing at all, or `e`, an optional sign and digits. -/
def readExponent : List Char → Option Int
  | [] => some 0
  | c :: s =>
    let (negative, digits) := takeSign s
    if (c = 'e' ∨ c = 'E') ∧ isDigits digits then
      some (if negative then -(digitsValue digits : Int) else digitsValue digits)
    else none

/-- Digits with a point anywhere among or around them, then an exponent or none. -/
def readUnsigned (s : List Char) : Option Decimal :=
  let whole := s.takeWhile Char.isDigit
  let (fraction, rest) :=
    match s.dropWhile Char.isDigit with
    | '.' :: t => (t.takeWhile Char.isDigit, t.dropWhile Char.isDigit)
    | t => ([], t)
  if whole.isEmpty && fraction.isEmpty then none
  else (readExponent rest).map fun e =>
    let d := ofDigits whole fraction
    { d with exponent := d.exponent + e }

/-- The double a signed numeral denotes. `inf`, `infinity` and `nan` are numerals, in letters of
either case. -/
def readFloat (s : List Char) : Option Float :=
  let (negative, rest) := takeSign s
  if sameWord rest "inf".toList || sameWord rest "infinity".toList then
    some (Float.ofBits (if negative then 0xFFF0000000000000 else 0x7FF0000000000000))
  else if sameWord rest "nan".toList then
    some (Float.ofBits (if negative then 0xFFF8000000000000 else 0x7FF8000000000000))
  else (readUnsigned rest).map fun d => toFloat { d with negative }

end SequentialChart.Decimal
