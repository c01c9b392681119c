/-!
# Decimal numbers

A decimal number is a sign, a whole coefficient and a power of ten. It is what a numeral denotes and
what the printer of a binary number chooses, so reading and printing meet in this type.

## Main definitions

* `Decimal` — `± coefficient × 10 ^ exponent`.
* `Decimal.toFloat`, `Decimal.toFloat32` — the nearest binary number.
-/

namespace SequentialChart

/-- The number `± coefficient × 10 ^ exponent`. -/
structure Decimal where
  negative : Bool
  coefficient : Nat
  exponent : Int
  deriving DecidableEq, Repr

namespace Decimal

def ofNat (n : Nat) : Decimal := ⟨false, n, 0⟩

def ofInt (n : Int) : Decimal := ⟨decide (n < 0), n.natAbs, 0⟩

/-- The exponent of ten of the leading digit, one too high: a nonzero number lies in
`[10 ^ (magnitude - 1), 10 ^ magnitude)`. -/
def magnitude (d : Decimal) : Int := (Nat.toDigits 10 d.coefficient).length + d.exponent

/-- The same number with the coefficient freed of trailing zeros. -/
def strip : Nat → Nat → Int → Nat × Int
  | 0, c, e => (c, e)
  | fuel + 1, c, e => if c ≠ 0 ∧ c % 10 = 0 then strip fuel (c / 10) (e + 1) else (c, e)

/-- The nearest double. Numbers of magnitude beyond 400 either way are settled without computing the
power of ten: they are infinite or zero. -/
def toFloat (d : Decimal) : Float :=
  let size :=
    if d.coefficient = 0 ∨ d.magnitude < -400 then 0
    else if 400 < d.magnitude then Float.ofBits 0x7FF0000000000000
    else Float.ofScientific d.coefficient (decide (d.exponent < 0)) d.exponent.natAbs
  if d.negative then -size else size

def toFloat32 (d : Decimal) : Float32 :=
  let size :=
    if d.coefficient = 0 ∨ d.magnitude < -400 then 0
    else if 400 < d.magnitude then Float32.ofBits 0x7F800000
    else Float32.ofScientific d.coefficient (decide (d.exponent < 0)) d.exponent.natAbs
  if d.negative then -size else size

end Decimal

end SequentialChart
