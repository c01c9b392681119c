import SequentialChart.Data.Basic
import SequentialChart.Decimal.Read
import SequentialChart.Toml.DateTime
import SequentialChart.Toml.Quoted

/-!
# Values without quotes

Truth values, numbers and dates are written without quotes. Underscores may separate the digits of a
number, and a whole number may be written in hexadecimal, octal or binary digits.

## Main definitions

* `Toml.ungroup` — digits without the underscores between them.
* `Toml.readWhole?`, `Toml.readFloat?` — the number that a numeral denotes.
* `Toml.readWord?` — the value that a word denotes.
-/

namespace SequentialChart.Toml

/-- Digits without the underscores between them. Every underscore stands between two digits. -/
def ungroup (isDigit : Char → Bool) : List Char → Option (List Char)
  | [] => none
  | [c] => if isDigit c then some [c] else none
  | c :: '_' :: s => if isDigit c then (ungroup isDigit s).map (c :: ·) else none
  | c :: s => if isDigit c then (ungroup isDigit s).map (c :: ·) else none

/-- Decimal digits, of which the first is zero only if it is the only one. -/
def wholeDigits? (s : List Char) : Option (List Char) :=
  (ungroup Char.isDigit s).bind fun digits =>
    if digits.head? = some '0' ∧ 1 < digits.length then none else some digits

def groups : List Char → List (List Char)
  | [] => [[]]
  | c :: s =>
    if c = '_' then [] :: groups s
    else match groups s with
      | [] => [[c]]
      | g :: gs => (c :: g) :: gs

/-- Whether every underscore stands between two digits, be they hexadecimal. All other characters go
unseen. -/
def isGrouped (s : List Char) : Bool :=
  let isDigit (c : Option Char) : Bool := (c.bind hexDigit?).isSome
  let gs := groups s
  gs.length = 1 ||
    (gs.all fun g => isDigit g.head?) && gs.dropLast.all fun g => isDigit g.getLast?

def dropBase? : List Char → Option (Nat × List Char)
  | '0' :: 'x' :: s => some (16, s)
  | '0' :: 'o' :: s => some (8, s)
  | '0' :: 'b' :: s => some (2, s)
  | _ => none

def isDigitOf (base : Nat) (c : Char) : Bool := (hexDigit? c).any (· < base)

def readDigits? (base : Nat) (s : List Char) : Option Nat :=
  let digits := s.filter (· ≠ '_')
  if digits ≠ [] ∧ digits.all (isDigitOf base) then
    some (digits.foldl (fun n c => base * n + (hexDigit? c).getD 0) 0)
  else none

/-- The data that a whole number is; it has to fit into 128 bits, with a sign or without one. -/
def wholeData (negative : Bool) (n : Option Nat) : Data :=
  let bound := UInt64.size * UInt64.size
  match n with
  | some n =>
    if negative then if 2 * n ≤ bound then .integer (-n) else .noNumber
    else if n < bound then .integer n else .noNumber
  | none => .noNumber

/-- Whether a numeral is a whole number in decimal digits, by its looks: it begins with digits, of
which the first is zero only if it stands alone, and goes on, if it does, with an underscore. -/
def looksWhole (s : List Char) : Bool :=
  let digits := s.takeWhile Char.isDigit
  let rest := s.dropWhile Char.isDigit
  let isFractional (c : Char) : Bool := c = '.' || c = 'e' || c = 'E'
  digits ≠ [] && (digits.head? ≠ some '0' || s.length = 1) &&
    (rest = [] || (rest.head? = some '_' && !rest.any isFractional && isGrouped s))

/-- Whether a text may follow the announcement of a base, by its looks: it holds digits of the base
and underscores only. No digits at all will do. -/
def looksWholeIn (base : Nat) (s : List Char) : Bool :=
  s.all (fun c => c = '_' || isDigitOf base c) && isGrouped s

/-- What a numeral for a whole number denotes. A base goes with no sign, neither in front of it nor
behind it. -/
def readWhole? (s : List Char) : Option Data :=
  match dropBase? s with
  | some (base, t) =>
    if looksWholeIn base t then some (wholeData false (readDigits? base t)) else none
  | none =>
    let (negative, t) := Decimal.takeSign s
    if looksWhole t then some (wholeData negative (readDigits? 10 t)) else none

/-- The exponent, which may have a sign and zeros in front. -/
def readExponent? (s : List Char) : Option Int :=
  let (negative, digits) := Decimal.takeSign s
  (ungroup Char.isDigit digits).map fun ds =>
    if negative then -(Decimal.digitsValue ds : Int) else Decimal.digitsValue ds

def readDecimal? (s : List Char) : Option Decimal := do
  let (negative, s) := Decimal.takeSign s
  let isExponentMark (c : Char) : Bool := c = 'e' || c = 'E'
  let mantissa := s.takeWhile (!isExponentMark ·)
  let exponent := s.dropWhile (!isExponentMark ·)
  let whole ← wholeDigits? (mantissa.takeWhile (· ≠ '.'))
  let fraction ← match mantissa.dropWhile (· ≠ '.') with
    | [] => if exponent = [] then none else some []
    | _ :: digits => ungroup Char.isDigit digits
  let e ← match exponent with
    | [] => some 0
    | _ :: digits => readExponent? digits
  let d := Decimal.ofDigits whole fraction
  return { d with negative, exponent := d.exponent + e }

/-- What a numeral that is not for a whole number denotes: a decimal number, which must not be
beyond the greatest double, or one of the words `inf` and `nan`. -/
def readFloat? (s : List Char) : Option Data :=
  let word := (Decimal.takeSign s).2
  if word = "inf".toList ∨ word = "nan".toList then (Decimal.readFloat s).map .double
  else (readDecimal? s).map fun d => if d.toFloat.isFinite then .double d.toFloat else .noNumber

/-- The value that a word denotes. Nothing makes use of dates, so their parts do not matter. -/
def readWord? (s : List Char) : Option Data :=
  if s = "true".toList then some (.bool true)
  else if s = "false".toList then some (.bool false)
  else if isDateTime s then some (.record [("datetime", .text (String.ofList s))])
  else match readWhole? s with
    | some d => some d
    | none => readFloat? s

end SequentialChart.Toml
