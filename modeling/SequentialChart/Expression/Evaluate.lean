import SequentialChart.Expression.Postfix

/-!
# Evaluating an expression

An expression has a value with respect to the variables of now and those of before. Only the edge
operators look at the latter: a rising edge is a variable that was false and is true, a falling edge
one that was true and is false. The edge of anything that is not just a variable is false.

## Main definitions

* `Result` — a value and, if it was read from a variable and nothing else, the name of that
  variable.
* `Symbol.step` — the effect of a symbol on the stack of results.
* `Postfix.evaluate` — the value of symbols in postfix order.
-/

namespace SequentialChart

/-- A value, with the name of the variable that it was read from unless it was computed. -/
structure Result where
  value : Value
  source : Option String := none

def Result.computed (b : Bool) : Result := ⟨.bool b, none⟩

structure Moment where
  current : Variables
  previous : Variables

namespace Moment

def operand (now : Moment) : Operand → Result
  | .literal value => ⟨value, none⟩
  | .variable name => ⟨now.current.read name, some name⟩

/-- Whether the variable `name`, which has the value `value` now, has just become true. -/
def rises (now : Moment) (name : String) (value : Value) : Bool :=
  !(now.previous.read name).isTruthy && value.isTruthy

def falls (now : Moment) (name : String) (value : Value) : Bool :=
  (now.previous.read name).isTruthy && !value.isTruthy

def unary (now : Moment) : PrefixOp → Result → Bool
  | .not, r => !r.value.isTruthy
  | .risingEdge, r => r.source.any fun name => now.rises name r.value
  | .fallingEdge, r => r.source.any fun name => now.falls name r.value

end Moment

def BinaryOp.apply : BinaryOp → Value → Value → Bool
  | .and, left, right => left.isTruthy && right.isTruthy
  | .or, left, right => left.isTruthy || right.isTruthy
  | .compare c, left, right => c.holds left.toNumber right.toNumber

/-- The stack of results after a symbol, the top first. -/
def Symbol.step (now : Moment) : Symbol → List Result → Except ExpressionError (List Result)
  | .operand o, stack => .ok (now.operand o :: stack)
  | .operator (.unary op), r :: stack => .ok (.computed (now.unary op r) :: stack)
  | .operator (.binary op), right :: left :: stack =>
    .ok (.computed (op.apply left.value right.value) :: stack)
  | .operator _, _ => .error .missingOperand

namespace Postfix

def run (now : Moment) : List Symbol → List Result → Except ExpressionError (List Result)
  | [], stack => .ok stack
  | s :: symbols, stack => (s.step now stack).bind (run now symbols)

def evaluate (now : Moment) (symbols : List Symbol) : Except ExpressionError Value := do
  match ← run now symbols [] with
  | [] => .error .missingOperand
  | [r] => return r.value
  | _ => .error .missingOperator

theorem run_append (now : Moment) (s t : List Symbol) (stack : List Result) :
    run now (s ++ t) stack = (run now s stack).bind (run now t) := by
  induction s generalizing stack with
  | nil => rfl
  | cons a s ih =>
    simp only [List.cons_append, run]
    cases a.step now stack with
    | error e => rfl
    | ok stack => exact ih stack

end Postfix

end SequentialChart
