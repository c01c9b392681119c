import SequentialChart.Expression.Evaluate

/-!
# Expressions

The language of transition conditions and of the conditions of actions: variables, literals, `NOT`,
`RE`, `FE`, comparisons, `AND` and `OR`. Where an expression decides something, a text that is none
counts as false.

## Main definitions

* `Expression` — a text together with its symbols in postfix order.
* `Expression.parse`, `Expression.value`, `Expression.holds`.
* `Expression.textHolds` — reading and evaluating in one go.
-/

namespace SequentialChart

structure Expression where
  text : String
  postfixed : List Symbol

namespace Expression

def parse (text : String) : Except ExpressionError Expression := do
  let tokens ← Token.read text.toList
  let postfixed ← Postfix.ofTokens tokens
  return { text, postfixed }

def value (e : Expression) (now : Moment) : Except ExpressionError Value :=
  Postfix.evaluate now e.postfixed

/-- Whether the expression has a value and the value is true. -/
def holds (e : Expression) (now : Moment) : Bool :=
  match e.value now with
  | .ok value => value.isTruthy
  | .error _ => false

def textHolds (text : String) (now : Moment) : Bool :=
  match parse text with
  | .ok e => e.holds now
  | .error _ => false

theorem textHolds_of_parse {text : String} {e : Expression} (h : parse text = .ok e)
    (now : Moment) :
    textHolds text now = e.holds now := by
  simp [textHolds, h]

end Expression

end SequentialChart
