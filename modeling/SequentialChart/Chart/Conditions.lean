import SequentialChart.Chart.Structure
import SequentialChart.Expression.Basic

/-!
# The conditions of a chart

A condition that is no expression does not stop anything: it just never holds. Since that is hardly
what was meant, it is warned of.

## Main definitions

* `ConditionFinding`, `ConditionFinding.diagnostic`.
* `Chart.conditionFindings` — the conditions that are no expressions, in document order.
-/

namespace SequentialChart

inductive ConditionFinding where
  | ofTransition (number : Nat) (place : Span) (reason : ExpressionError)
  | ofAction (name : String) (place : Span) (reason : ExpressionError)
  deriving DecidableEq

def ConditionFinding.diagnostic : ConditionFinding → Diagnostic
  | ofTransition number place reason =>
    { severity := .warning, code := some .e212
      message := "condition of transition T" ++ Nat.repr number ++ " cannot be evaluated: " ++
        reason.message
      labels := [{ span := place, message := "never clears" }]
      help := some "the transition can still be fired by an explicit trigger" }
  | ofAction name place reason =>
    { severity := .warning, code := some .e212
      message := "condition of action `" ++ name ++ "` cannot be evaluated: " ++ reason.message
      labels := [{ span := place, message := "never holds" }] }

@[simp] theorem ConditionFinding.isError_diagnostic (f : ConditionFinding) :
    f.diagnostic.isError = false := by
  cases f <;> rfl

def Expression.refusal? (text : String) : Option ExpressionError :=
  match Expression.parse text with
  | .ok _ => none
  | .error e => some e

def Located.conditionFinding? (a : Located Action) : Option ConditionFinding :=
  (a.value.guard?.bind Expression.refusal?).map (.ofAction a.value.name a.span)

/-- The findings about the conditions at an element, those within a divergence apart. -/
def Element.conditionFindings : Element → List ConditionFinding
  | .transition t => ((Expression.refusal? t.condition).map (.ofTransition t.number t.span)).toList
  | .step s => s.actions.filterMap (·.conditionFinding?)
  | _ => []

def Chart.conditionFindings (c : Chart) : List ConditionFinding :=
  c.walk.flatMap Element.conditionFindings

end SequentialChart
