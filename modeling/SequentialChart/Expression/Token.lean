import SequentialChart.Duration
import SequentialChart.Expression.Symbol

/-!
# The tokens of an expression

The text of an expression falls into words at its blanks; parentheses, comparisons, `*` and `+` are
words also where no blank stands next to them. A `.` is a conjunction only as a word of its own,
since it may occur within a name.

## Main definitions

* `ExpressionError`, `ExpressionError.message` — why an expression is refused.
* `Token` — a symbol or a parenthesis.
* `Token.spaceOut` — the blanks around operators that need none.
* `Token.ofWord`, `Token.read`.
-/

namespace SequentialChart

inductive ExpressionError where
  | empty
  | unbalancedParenthesis
  | missingOperand
  | missingOperator
  | invalidNumber (word : String)
  deriving DecidableEq, Repr

def ExpressionError.message : ExpressionError → String
  | empty => "expression is empty"
  | unbalancedParenthesis => "unbalanced parenthesis"
  | missingOperand => "operator is missing an operand"
  | missingOperator => "operands are not joined by an operator"
  | invalidNumber word => "invalid number `" ++ word ++ "`"

inductive Token where
  | symbol (s : Symbol)
  | opening
  | closing
  deriving Repr

namespace Token

open Text

/-- The text with a blank on either side of every operator that is a word wherever it stands. -/
def spaceOut : List Char → List Char
  | [] => []
  | '>' :: '=' :: s => ' ' :: '>' :: '=' :: ' ' :: spaceOut s
  | '<' :: '=' :: s => ' ' :: '<' :: '=' :: ' ' :: spaceOut s
  | c :: s =>
    if c ∈ ['(', ')', '*', '+', '>', '<'] then ' ' :: c :: ' ' :: spaceOut s
    else c :: spaceOut s

def fixed : List (List Char × Token) :=
  let unary op : Token := .symbol (.operator (.unary op))
  let binary op : Token := .symbol (.operator (.binary op))
  let bool b : Token := .symbol (.operand (.literal (.bool b)))
  [("NOT".toList, unary .not), ("RE".toList, unary .risingEdge), ("FE".toList, unary .fallingEdge),
   ("AND".toList, binary .and), (['.'], binary .and), (['*'], binary .and),
   ("OR".toList, binary .or), (['+'], binary .or),
   ("TRUE".toList, bool true), ("FALSE".toList, bool false),
   (['('], opening), ([')'], closing),
   (['>'], binary (.compare .greater)), (">=".toList, binary (.compare .greaterEqual)),
   (['<'], binary (.compare .less)), ("<=".toList, binary (.compare .lessEqual))]

/-- The finite number a word denotes: a time literal or a numeral. -/
def readNumber (word : List Char) : Option Float :=
  match Duration.readLiteral word with
  | some seconds => some seconds
  | none => (Decimal.readFloat word).filter Float.isFinite

/-- The token a word stands for. A word that begins with a digit has to be a number; every other
word without a fixed meaning is the name of a variable. -/
def ofWord (word : List Char) : Except ExpressionError Token :=
  match fixed.lookup (upper word) with
  | some token => .ok token
  | none =>
    if word.head?.any Char.isDigit then
      match readNumber word with
      | some x => .ok (.symbol (.operand (.literal (.number x))))
      | none => .error (.invalidNumber (String.ofList word))
    else .ok (.symbol (.operand (.variable (String.ofList word))))

def read (text : List Char) : Except ExpressionError (List Token) :=
  (words (spaceOut text)).mapM ofWord

end Token

end SequentialChart
