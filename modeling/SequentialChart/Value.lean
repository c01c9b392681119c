import SequentialChart.Decimal.Write
import SequentialChart.Ordered.Map

/-!
# Values of variables

A variable of a chart holds a boolean or a number, and each can be read as the other.

## Main definitions

* `Value`, `Value.isTruthy`, `Value.toNumber`, `Value.text`.
* `Variables` — the values by name, in the order in which the names first came up.
* `Variables.read` — a name without a value reads as false.
-/

namespace SequentialChart

inductive Value where
  | bool (b : Bool)
  | number (x : Float)
  deriving BEq, Repr

namespace Value

/-- A number is true unless it equals zero. -/
def isTruthy : Value → Bool
  | bool b => b
  | number x => x != 0

/-- True counts as one and false as zero. -/
def toNumber : Value → Float
  | bool b => if b then 1 else 0
  | number x => x

def text : Value → String
  | bool b => if b then "true" else "false"
  | number x => plainText x

@[simp] theorem isTruthy_bool (b : Bool) : (bool b).isTruthy = b := rfl

@[simp] theorem toNumber_number (x : Float) : (number x).toNumber = x := rfl

end Value

abbrev Variables := OrderedMap String Value

namespace Variables

/-- The value of `name`; false, if it has none. -/
def read (values : Variables) (name : String) : Value :=
  (values.get? name).getD (.bool false)

/-- The same names with equal values, in any order. -/
def agrees (a b : Variables) : Bool :=
  a.entries.length == b.entries.length && a.entries.all fun (name, value) =>
    match b.get? name with
    | some other => value == other
    | none => false

theorem read_insert (values : Variables) (name other : String) (value : Value) :
    read (values.insert name value) other = if name = other then value else read values other := by
  unfold read
  rw [OrderedMap.get?_insert]
  split <;> rfl

end Variables

end SequentialChart
