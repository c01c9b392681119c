import SequentialChart.Expression.Token

/-!
# Postfix order

The symbols of an expression are put into the order in which they are computed: an operator after
its operands. Operators wait on a stack, with the open parentheses among them, until what follows
cannot belong to their operands any more.

## Main definitions

* `Held` — what waits on the stack.
* `Postfix.reorder` — the symbols in postfix order, or nothing if the parentheses do not match.
* `Postfix.checkArity` — whether every symbol finds its operands and one value is left.
* `Postfix.ofTokens`.
-/

namespace SequentialChart

/-- An operator that waits for its last operand, or a parenthesis that is still open. -/
inductive Held where
  | operator (o : Operator)
  | opening
  deriving DecidableEq, Repr

namespace Postfix

/-- Takes the operators off the stack that bind at least as tightly as `precedence`, down to an open
parenthesis. -/
def release (precedence : Nat) : List Held → List Symbol × List Held
  | .operator o :: held =>
    if precedence ≤ o.precedence then
      let (released, rest) := release precedence held
      (.operator o :: released, rest)
    else ([], .operator o :: held)
  | held => ([], held)

/-- Takes one operator off the stack if it is a prefix operator; the group it stands before has just
ended. -/
def releasePrefix : List Held → List Symbol × List Held
  | .operator (.unary op) :: held => ([.operator (.unary op)], held)
  | held => ([], held)

/-- Takes the operators off the stack down to the innermost open parenthesis, that parenthesis, and
a prefix operator in front of it. -/
def closeGroup : List Held → Option (List Symbol × List Held)
  | [] => none
  | .opening :: held => some (releasePrefix held)
  | .operator o :: held =>
    (closeGroup held).map fun (released, rest) => (.operator o :: released, rest)

/-- Takes everything off the stack, on which no parenthesis may be open. -/
def flush : List Held → Option (List Symbol)
  | [] => some []
  | .opening :: _ => none
  | .operator o :: held => (flush held).map (.operator o :: ·)

/-- The symbols of the tokens in postfix order, with `held` on the stack at the start. -/
def reorder : List Held → List Token → Option (List Symbol)
  | held, [] => flush held
  | held, .symbol (.operand o) :: tokens => (reorder held tokens).map (.operand o :: ·)
  | held, .symbol (.operator (.unary op)) :: tokens =>
    reorder (.operator (.unary op) :: held) tokens
  | held, .symbol (.operator (.binary op)) :: tokens =>
    let (released, rest) := release op.precedence held
    (reorder (.operator (.binary op) :: rest) tokens).map (released ++ ·)
  | held, .opening :: tokens => reorder (.opening :: held) tokens
  | held, .closing :: tokens =>
    match closeGroup held with
    | none => none
    | some (released, rest) => (reorder rest tokens).map (released ++ ·)

/-- Runs through the symbols with `depth` values at hand; exactly one has to be left. -/
def checkArity : Nat → List Symbol → Except ExpressionError Unit
  | 0, [] => .error .empty
  | 1, [] => .ok ()
  | _, [] => .error .missingOperator
  | depth, s :: symbols =>
    if depth < s.arity then .error .missingOperand else checkArity (depth - s.arity + 1) symbols

def ofTokens (tokens : List Token) : Except ExpressionError (List Symbol) :=
  match reorder [] tokens with
  | none => .error .unbalancedParenthesis
  | some symbols => do
    checkArity 0 symbols
    return symbols

@[simp] theorem release_nil (precedence : Nat) : release precedence [] = ([], []) := rfl

@[simp] theorem release_opening (precedence : Nat) (held : List Held) :
    release precedence (.opening :: held) = ([], .opening :: held) := rfl

theorem release_append (precedence : Nat) (held : List Held) :
    ∃ ops : List Operator, (release precedence held).1 = ops.map Symbol.operator ∧
      held = ops.map Held.operator ++ (release precedence held).2 := by
  induction held with
  | nil => exact ⟨[], rfl, rfl⟩
  | cons h held ih =>
    cases h with
    | opening => exact ⟨[], rfl, rfl⟩
    | operator o =>
      obtain ⟨ops, h1, h2⟩ := ih
      by_cases hp : precedence ≤ o.precedence
      · refine ⟨o :: ops, ?_, ?_⟩
        · simp [release, hp, h1]
        · simpa [release, hp] using h2
      · exact ⟨[], by simp [release, hp], by simp [release, hp]⟩

/-- Tokens are accepted if their parentheses match and the values can be counted. -/
theorem ofTokens_eq_ok_iff {tokens : List Token} {symbols : List Symbol} :
    ofTokens tokens = .ok symbols ↔
      reorder [] tokens = some symbols ∧ checkArity 0 symbols = .ok () := by
  unfold ofTokens
  cases reorder [] tokens with
  | none => simp
  | some found =>
    simp only [bind, Except.bind, pure, Except.pure, Option.some.injEq]
    cases h : checkArity 0 found <;> grind

end Postfix

end SequentialChart
