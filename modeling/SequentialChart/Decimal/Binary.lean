import SequentialChart.Decimal.Basic

/-!
# Binary numbers

The value of a binary floating-point number, read off its bits: a sign, a whole significand and a
power of two, together with how close its lower neighbour lies.

## Main definitions

* `BinaryLayout` — the widths of the fields of a word; `double` and `single` are the two in use.
* `Binary` — what a word denotes.
* `Binary.ofBits` — decoding a word.
-/

namespace SequentialChart

/-- How a word of bits divides into fields: a sign bit, `exponentBits` bits and `fractionBits`
bits. -/
structure BinaryLayout where
  exponentBits : Nat
  fractionBits : Nat

namespace BinaryLayout

def double : BinaryLayout := ⟨11, 52⟩

def single : BinaryLayout := ⟨8, 23⟩

/-- The power of two of the last bit of the numbers nearest to zero. -/
def leastPower (l : BinaryLayout) : Int :=
  2 - (Nat.pow 2 (l.exponentBits - 1) : Nat) - (l.fractionBits : Int)

end BinaryLayout

inductive Binary where
  /-- The number `± significand × 2 ^ power`. It is `narrow` if the gap to the next number towards
  zero is half the gap to the next one away from zero. -/
  | finite (negative : Bool) (significand : Nat) (power : Int) (narrow : Bool)
  | infinite (negative : Bool)
  | nan
  deriving DecidableEq, Repr

namespace Binary

def ofBits (l : BinaryLayout) (word : Nat) : Binary :=
  let fraction := word % Nat.pow 2 l.fractionBits
  let exponent := word / Nat.pow 2 l.fractionBits % Nat.pow 2 l.exponentBits
  let negative := word / Nat.pow 2 (l.fractionBits + l.exponentBits) % 2 = 1
  if exponent = Nat.pow 2 l.exponentBits - 1 then
    if fraction = 0 then .infinite negative else .nan
  else if exponent = 0 then .finite negative fraction l.leastPower false
  else
    .finite negative (Nat.pow 2 l.fractionBits + fraction) (l.leastPower + (exponent - 1 : Nat))
      (decide (fraction = 0 ∧ 1 < exponent))

def ofFloat (x : Float) : Binary := ofBits .double x.toBits.toNat

def ofFloat32 (x : Float32) : Binary := ofBits .single x.toBits.toNat

end Binary

end SequentialChart
