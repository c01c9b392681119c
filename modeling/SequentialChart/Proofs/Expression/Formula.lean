import Mathlib
import SequentialChart.Expression.Basic

/-!
# Expressions as trees

The grammar of expressions, and what it means for one of its trees to be computed. Disjunction binds
weakest, then conjunction, then comparison, then the operators before their operand; operators
between operands associate to the left, and parentheses may stand around any expression.

## Main definitions

* `Formula` — an expression as it is written.
* `Formula.IsProper` — the tree respects precedence and associativity.
* `Formula.tokens`, `Formula.postorder`, `Formula.value`.

## Main statements

* `Formula.ofTokens_tokens` — putting the tokens of a proper tree into postfix order yields its
  post-order.
* `Formula.evaluate_postorder` — evaluating the post-order yields the value of the tree.
-/

namespace SequentialChart

/-- An expression as it is written, its redundant parentheses included. -/
inductive Formula where
  | operand (o : Operand)
  | unary (op : PrefixOp) (f : Formula)
  | binary (op : BinaryOp) (left right : Formula)
  | group (f : Formula)

namespace Formula

/-- How tightly the outermost part of the tree binds; nothing binds tighter than an operand or a
group. -/
def level : Formula → Nat
  | operand _ => 5
  | unary op _ => (Operator.unary op).precedence
  | binary op _ _ => op.precedence
  | group _ => 5

/-- The tree respects precedence, and operators between operands associate to the left. -/
def IsProper : Formula → Prop
  | operand _ => True
  | unary op f => (Operator.unary op).precedence ≤ f.level ∧ f.IsProper
  | binary op left right =>
    (op.precedence ≤ left.level ∧ left.IsProper) ∧ op.precedence < right.level ∧ right.IsProper
  | group f => f.IsProper

/-- The tokens of the tree from left to right. -/
def tokens : Formula → List Token
  | operand o => [.symbol (.operand o)]
  | unary op f => .symbol (.operator (.unary op)) :: f.tokens
  | binary op left right => left.tokens ++ .symbol (.operator (.binary op)) :: right.tokens
  | group f => .opening :: f.tokens ++ [.closing]

/-- The symbols of the tree, each operator after its operands. -/
def postorder : Formula → List Symbol
  | operand o => [.operand o]
  | unary op f => f.postorder ++ [.operator (.unary op)]
  | binary op left right => left.postorder ++ right.postorder ++ [.operator (.binary op)]
  | group f => f.postorder

/-! ### Meaning -/

/-- The variable that the tree consists of, parentheses apart. -/
def source? : Formula → Option String
  | operand (.variable name) => some name
  | group f => f.source?
  | _ => none

/-- The value of the tree. An edge is the edge of a variable, and that of anything else is false. -/
def value (now : Moment) : Formula → Value
  | operand (.literal v) => v
  | operand (.variable name) => now.current.read name
  | unary .not f => .bool (!(f.value now).isTruthy)
  | unary .risingEdge f =>
    match f.source? with
    | some name =>
      .bool (!(now.previous.read name).isTruthy && (now.current.read name).isTruthy)
    | none => .bool false
  | unary .fallingEdge f =>
    match f.source? with
    | some name =>
      .bool ((now.previous.read name).isTruthy && !(now.current.read name).isTruthy)
    | none => .bool false
  | binary .and left right => .bool ((left.value now).isTruthy && (right.value now).isTruthy)
  | binary .or left right => .bool ((left.value now).isTruthy || (right.value now).isTruthy)
  | binary (.compare c) left right =>
    .bool (c.holds (left.value now).toNumber (right.value now).toNumber)
  | group f => f.value now

/-- A tree that is a variable has the value of that variable. -/
theorem value_of_source? {f : Formula} {name : String} (h : f.source? = some name)
    (now : Moment) : f.value now = now.current.read name := by
  induction f with
  | operand o =>
    match o, h with
    | .variable _, rfl => rfl
  | unary op f => cases h
  | binary op left right => cases h
  | group f ih => exact ih h

end Formula

/-! ### The stack of operators -/

namespace Postfix

/-- What may follow an operand whose outermost part binds as tightly as `level`: the end, a closing
parenthesis, or an operator between operands that does not bind tighter. -/
inductive Follows (level : Nat) : List Token → Prop
  | nil : Follows level []
  | closing (rest : List Token) : Follows level (.closing :: rest)
  | binary {op : BinaryOp} (h : op.precedence ≤ level) (rest : List Token) :
    Follows level (.symbol (.operator (.binary op)) :: rest)

theorem Follows.mono {m n : Nat} (h : m ≤ n) {rest : List Token} (hr : Follows m rest) :
    Follows n rest := by
  cases hr with
  | nil => exact .nil
  | closing rest => exact .closing rest
  | binary hop rest => exact .binary (hop.trans h) rest

/-- No operator between operands that binds as tightly as `level` takes anything off the stack. -/
def Holds (level : Nat) (held : List Held) : Prop :=
  ∀ op : BinaryOp, level ≤ op.precedence → release op.precedence held = ([], held)

theorem Holds.mono {m n : Nat} (h : m ≤ n) {held : List Held} (hh : Holds m held) :
    Holds n held := fun op hop => hh op (h.trans hop)

theorem holds_opening (level : Nat) (held : List Held) : Holds level (.opening :: held) :=
  fun _ _ => rfl

theorem holds_of_precedence_lt {level : Nat} {o : Operator} (h : o.precedence < level)
    (held : List Held) : Holds level (.operator o :: held) := by
  intro op hop
  have : ¬ op.precedence ≤ o.precedence := by omega
  simp [release, this]

/-- No operator between operands binds as tightly as one before its operand. -/
theorem holds_of_unary_le {level : Nat} {op : PrefixOp} (h : (Operator.unary op).precedence ≤ level)
    (held : List Held) : Holds level held := fun b hb =>
  absurd (b.precedence_lt_unary op) (by omega)

/-- An operator on top of the stack is the next symbol, if what follows does not bind tighter. -/
theorem reorder_operator {o : Operator} {rest : List Token} (h : Follows o.precedence rest)
    (held : List Held) :
    reorder (.operator o :: held) rest = (reorder held rest).map (.operator o :: ·) := by
  cases h with
  | nil => simp [reorder, flush]
  | closing rest =>
    cases hc : closeGroup held with
    | none => simp [reorder, closeGroup, hc]
    | some r => simp [reorder, closeGroup, hc, Function.comp_def]
  | binary hop rest => simp [reorder, release, hop, Function.comp_def]

/-- Closing a group leaves the stack as it was before it. The prefix operator in front of the group
is the next symbol, whether it is taken off the stack with the group or later. -/
theorem reorder_opening_closing {level : Nat} {rest : List Token} (h : Follows level rest)
    (held : List Held) :
    reorder (.opening :: held) (.closing :: rest) = reorder held rest := by
  have hunary (op : PrefixOp) : Follows (Operator.unary op).precedence rest := by
    cases h with
    | nil => exact .nil
    | closing rest => exact .closing rest
    | @binary b _ rest => exact .binary (b.precedence_lt_unary op).le rest
  cases held with
  | nil => simp [reorder, closeGroup, releasePrefix]
  | cons x held =>
    cases x with
    | opening => simp [reorder, closeGroup, releasePrefix]
    | operator o =>
      cases o with
      | unary op => simp [reorder, closeGroup, releasePrefix, reorder_operator (hunary op)]
      | binary op => simp [reorder, closeGroup, releasePrefix]

end Postfix

namespace Formula

open Postfix

/-- The tokens of a proper tree put the post-order of the tree before the symbols of what follows,
and leave the stack as it was. -/
theorem reorder_tokens {f : Formula} (hf : f.IsProper) {held : List Held} {rest : List Token}
    (hh : Holds f.level held) (hr : Follows f.level rest) :
    reorder held (f.tokens ++ rest) = (reorder held rest).map (f.postorder ++ ·) := by
  induction f generalizing held rest with
  | operand o => rfl
  | unary op f ih =>
    obtain ⟨hle, hf⟩ := hf
    have hrest : Follows f.level rest := hr.mono hle
    calc reorder held ((unary op f).tokens ++ rest)
        = reorder (.operator (.unary op) :: held) (f.tokens ++ rest) := rfl
      _ = (reorder (.operator (.unary op) :: held) rest).map (f.postorder ++ ·) :=
          ih hf (holds_of_unary_le hle _) hrest
      _ = (reorder held rest).map ((unary op f).postorder ++ ·) := by
          rw [reorder_operator (o := .unary op) hr, Option.map_map]
          simp [postorder, Function.comp_def]
  | binary op left right ihl ihr =>
    obtain ⟨⟨hll, hl⟩, hlr, hrp⟩ := hf
    have hnext : Follows left.level (.symbol (.operator (.binary op)) :: (right.tokens ++ rest)) :=
      .binary hll _
    -- the operator itself takes nothing off the stack, and what is in its right operand binds
    -- tighter than it
    have hrelease : release op.precedence held = ([], held) := hh op le_rfl
    have hholds : Holds right.level (.operator (.binary op) :: held) :=
      holds_of_precedence_lt (o := .binary op) hlr held
    calc reorder held ((binary op left right).tokens ++ rest)
        = reorder held (left.tokens ++ (.symbol (.operator (.binary op)) :: (right.tokens ++ rest)))
          := by simp [tokens]
      _ = (reorder (.operator (.binary op) :: held) (right.tokens ++ rest)).map
            (left.postorder ++ ·) := by
          rw [ihl hl (hh.mono hll) hnext]
          simp [reorder, hrelease]
      _ = (reorder held rest).map ((binary op left right).postorder ++ ·) := by
          rw [ihr hrp hholds (hr.mono hlr.le), reorder_operator (o := .binary op) hr,
            Option.map_map, Option.map_map]
          simp [postorder, Function.comp_def]
  | group f ih =>
    calc reorder held ((group f).tokens ++ rest)
        = reorder (.opening :: held) (f.tokens ++ (.closing :: rest)) := by
          simp [tokens, reorder]
      _ = (reorder (.opening :: held) (.closing :: rest)).map (f.postorder ++ ·) :=
          ih hf (holds_opening _ _) (.closing _)
      _ = (reorder held rest).map ((group f).postorder ++ ·) := by
          rw [reorder_opening_closing hr]; rfl

/-- The post-order of a tree takes no values and leaves one. -/
theorem checkArity_postorder (f : Formula) (depth : Nat) (rest : List Symbol) :
    checkArity depth (f.postorder ++ rest) = checkArity (depth + 1) rest := by
  induction f generalizing depth rest with
  | operand o => cases depth <;> simp [postorder, checkArity, Symbol.arity]
  | unary op f ih =>
    rw [postorder, List.append_assoc, ih]
    simp [checkArity, Symbol.arity, Operator.arity]
  | binary op left right ihl ihr =>
    rw [postorder, List.append_assoc, List.append_assoc, ihl, ihr]
    simp [checkArity, Symbol.arity, Operator.arity]
  | group f ih => exact ih depth rest

/-- Putting the tokens of a proper tree into postfix order succeeds and yields the post-order. -/
theorem ofTokens_tokens {f : Formula} (hf : f.IsProper) :
    ofTokens f.tokens = .ok f.postorder := by
  have h : reorder [] f.tokens = some f.postorder := by
    have : reorder [] (f.tokens ++ []) = (reorder [] []).map (f.postorder ++ ·) :=
      reorder_tokens hf (fun _ _ => rfl) .nil
    simpa [reorder, flush] using this
  have harity : checkArity 0 f.postorder = .ok () := by
    have := checkArity_postorder f 0 []
    simpa [checkArity] using this
  simp [ofTokens, h, harity, bind, Except.bind, pure, Except.pure]

/-! ### Evaluation -/

/-- The value of the tree, with the variable that it was read from. -/
def result (now : Moment) (f : Formula) : Result := ⟨f.value now, f.source?⟩

theorem result_unary (now : Moment) (op : PrefixOp) (f : Formula) :
    (unary op f).result now = .computed (now.unary op (f.result now)) := by
  cases op with
  | not => rfl
  | risingEdge =>
    cases h : f.source? with
    | none => simp [result, value, source?, Result.computed, Moment.unary, h]
    | some name =>
      simp [result, value, source?, Result.computed, Moment.unary, Moment.rises, h,
        value_of_source? h]
  | fallingEdge =>
    cases h : f.source? with
    | none => simp [result, value, source?, Result.computed, Moment.unary, h]
    | some name =>
      simp [result, value, source?, Result.computed, Moment.unary, Moment.falls, h,
        value_of_source? h]

theorem result_binary (now : Moment) (op : BinaryOp) (left right : Formula) :
    (binary op left right).result now =
      .computed (op.apply (left.result now).value (right.result now).value) := by
  cases op <;> rfl

/-- The post-order of a tree puts its result on the stack. -/
theorem run_postorder (now : Moment) (f : Formula) (rest : List Symbol) (stack : List Result) :
    run now (f.postorder ++ rest) stack = run now rest (f.result now :: stack) := by
  induction f generalizing rest stack with
  | operand o => cases o <;> rfl
  | unary op f ih =>
    rw [postorder, List.append_assoc, ih, result_unary]
    rfl
  | binary op left right ihl ihr =>
    rw [postorder, List.append_assoc, List.append_assoc, ihl, ihr, result_binary]
    rfl
  | group f ih => exact ih rest stack

theorem evaluate_postorder (now : Moment) (f : Formula) :
    evaluate now f.postorder = .ok (f.value now) := by
  have h : run now f.postorder [] = .ok [f.result now] := by
    have := run_postorder now f [] []
    rwa [List.append_nil] at this
  simp [evaluate, h, result, bind, Except.bind, pure, Except.pure]

end Formula

end SequentialChart
