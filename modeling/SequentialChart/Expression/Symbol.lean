import SequentialChart.Value

/-!
# The symbols of an expression

An expression joins operands by operators. An operator stands either before its one operand or
between its two operands, and binds the tighter the greater its precedence.

## Main definitions

* `Comparison`, `PrefixOp`, `BinaryOp`, `Operator`, `Operand`, `Symbol`.
* `Operator.precedence`, `Symbol.arity`.
-/

namespace SequentialChart

inductive Comparison where
  | greater
  | greaterEqual
  | less
  | lessEqual
  deriving DecidableEq, Repr

/-- Whether the comparison holds of the two numbers; it holds of none if one of them is no
number. -/
def Comparison.holds : Comparison → Float → Float → Bool
  | greater, x, y => decide (x > y)
  | greaterEqual, x, y => decide (x ≥ y)
  | less, x, y => decide (x < y)
  | lessEqual, x, y => decide (x ≤ y)

inductive PrefixOp where
  | not
  | risingEdge
  | fallingEdge
  deriving DecidableEq, Repr

inductive BinaryOp where
  | and
  | or
  | compare (c : Comparison)
  deriving DecidableEq, Repr

inductive Operator where
  | unary (op : PrefixOp)
  | binary (op : BinaryOp)
  deriving DecidableEq, Repr

inductive Operand where
  | literal (value : Value)
  | variable (name : String)
  deriving Repr

inductive Symbol where
  | operand (o : Operand)
  | operator (o : Operator)
  deriving Repr

/-- Conjunction binds tighter than disjunction, a comparison tighter than both. -/
def BinaryOp.precedence : BinaryOp → Nat
  | or => 1
  | and => 2
  | compare _ => 3

def Operator.precedence : Operator → Nat
  | unary _ => 4
  | binary op => op.precedence

def Operator.arity : Operator → Nat
  | unary _ => 1
  | binary _ => 2

def Symbol.arity : Symbol → Nat
  | operand _ => 0
  | operator o => o.arity

theorem BinaryOp.precedence_lt_unary (b : BinaryOp) (p : PrefixOp) :
    b.precedence < (Operator.unary p).precedence := by
  cases b <;> simp [BinaryOp.precedence, Operator.precedence]

end SequentialChart
