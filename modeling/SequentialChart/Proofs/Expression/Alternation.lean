import SequentialChart.Chart.Conditions
import SequentialChart.Proofs.Expression.Formula

/-!
# Which texts are infix expressions

Tokens are put into postfix order without regard to where an operator stands: only the parentheses
and the number of operands are checked. So `A B AND` and `() A` are accepted although the grammar
derives neither. What is missing is that operands and operators alternate, and nothing else.

## Main definitions

* `Token.IsInfix` — the tokens are those of a proper tree.
* `Token.alternates` — every token stands where a token of its kind may stand.
* `Token.balances` — the parentheses match.

## Main statements

* `Token.isInfix_iff_balances_and_alternates` — the grammar in terms of neighbouring tokens.
* `Expression.isInfix_iff_parse_and_alternates` — an accepted text is an infix expression exactly if
  its tokens alternate.
-/

namespace SequentialChart

namespace Token

/-- The tokens are derivable in the grammar of expressions. -/
def IsInfix (tokens : List Token) : Prop := ∃ f : Formula, f.IsProper ∧ f.tokens = tokens

/-- Every token stands where a token of its kind may stand. While an operand is `expected`, it may
begin; after an operand, only an operator between operands or a closing parenthesis may follow. -/
def alternates : (expected : Bool) → List Token → Bool
  | expected, [] => !expected
  | true, .symbol (.operand _) :: tokens => alternates false tokens
  | true, .symbol (.operator (.unary _)) :: tokens => alternates true tokens
  | true, .opening :: tokens => alternates true tokens
  | false, .symbol (.operator (.binary _)) :: tokens => alternates true tokens
  | false, .closing :: tokens => alternates false tokens
  | _, _ :: _ => false

/-- Within `depth` open parentheses, every parenthesis finds its partner. -/
def balances : (depth : Nat) → List Token → Bool
  | depth, [] => depth == 0
  | depth, .opening :: tokens => balances (depth + 1) tokens
  | 0, .closing :: _ => false
  | depth + 1, .closing :: tokens => balances depth tokens
  | depth, .symbol _ :: tokens => balances depth tokens

/-! ### Derivable tokens alternate and balance -/

theorem alternates_tokens (f : Formula) (rest : List Token) :
    alternates true (f.tokens ++ rest) = alternates false rest := by
  induction f generalizing rest with
  | operand o => rfl
  | unary op f ih => exact ih rest
  | binary op left right ihl ihr =>
    rw [Formula.tokens, List.append_assoc, ihl]
    exact ihr rest
  | group f ih =>
    rw [Formula.tokens, List.append_assoc, List.cons_append, alternates, ih]
    rfl

theorem balances_tokens (f : Formula) (depth : Nat) (rest : List Token) :
    balances depth (f.tokens ++ rest) = balances depth rest := by
  induction f generalizing depth rest with
  | operand o => cases depth <;> rfl
  | unary op f ih =>
    rw [Formula.tokens, List.cons_append, balances, ih]
  | binary op left right ihl ihr =>
    rw [Formula.tokens, List.append_assoc, ihl, List.cons_append, balances, ihr]
  | group f ih =>
    rw [Formula.tokens, List.append_assoc, List.cons_append, balances, ih]
    rfl

end Token

namespace Formula

/-- The tree with an operator and another operand behind its tokens. -/
def join : Formula → BinaryOp → Formula → Formula
  | binary op l r, next, right =>
    if op.precedence < next.precedence then binary op l (r.join next right)
    else binary next (binary op l r) right
  | f, next, right => binary next f right

theorem tokens_join (f : Formula) (op : BinaryOp) (right : Formula) :
    (f.join op right).tokens = f.tokens ++ .symbol (.operator (.binary op)) :: right.tokens := by
  induction f with
  | operand o => rfl
  | unary op' f ih => rfl
  | binary op' l r ihl ihr =>
    unfold join
    split
    · simp [tokens, ihr]
    · simp [tokens]
  | group f ih => rfl

/-- Joining does not make a tree bind weaker than the joined operator and the tree did. -/
theorem le_level_join {n : Nat} {op : BinaryOp} {right f : Formula} (hop : n ≤ op.precedence)
    (hf : n ≤ f.level) : n ≤ (f.join op right).level := by
  cases f with
  | binary op' l r =>
    unfold join
    split
    · exact hf
    · exact hop
  | operand o => exact hop
  | unary op' f => exact hop
  | group f => exact hop

theorem IsProper.join {op : BinaryOp} {right f : Formula} (hf : f.IsProper) (hr : right.IsProper)
    (hlevel : op.precedence < right.level) : (f.join op right).IsProper := by
  have hatom {g : Formula} (hg : g.IsProper) (hle : op.precedence ≤ g.level) :
      (binary op g right).IsProper := ⟨⟨hle, hg⟩, hlevel, hr⟩
  induction f with
  | operand o => exact hatom hf (by cases op <;> simp [level, BinaryOp.precedence])
  | unary op' f ih => exact hatom hf (op.precedence_lt_unary op').le
  | binary op' l r ihl ihr =>
    unfold Formula.join
    split
    · next hlt => exact ⟨hf.1, le_level_join hlt hf.2.1, ihr hf.2.2⟩
    · next hlt => exact hatom hf (not_lt.1 hlt)
  | group f ih => exact hatom hf (by cases op <;> simp [level, BinaryOp.precedence])

end Formula

namespace Token

open Formula

/-! ### Tokens that alternate and balance are derivable -/

/-- What may remain after an expression within `depth` open parentheses: nothing, or a closing
parenthesis, after which the tokens go on alternating and balancing. -/
inductive Closes : (depth : Nat) → List Token → Prop
  | nil : Closes 0 []
  | closing {depth : Nat} {rest : List Token} :
    alternates false rest → balances depth rest → Closes (depth + 1) (.closing :: rest)

mutual

/-- Where an operand is expected, the tokens begin with a tree that binds tighter than all operators
between operands. -/
theorem exists_operand (depth : Nat) (tokens : List Token) (ha : alternates true tokens)
    (hb : balances depth tokens) :
    ∃ f : Formula, ∃ rest, (f.IsProper ∧ 4 ≤ f.level) ∧ tokens = f.tokens ++ rest ∧
      alternates false rest ∧ balances depth rest := by
  match tokens, ha, hb with
  | .symbol (.operand o) :: rest, ha, hb =>
    exact ⟨.operand o, rest, ⟨trivial, by simp [level]⟩, rfl, ha, by simpa [balances] using hb⟩
  | .symbol (.operator (.unary op)) :: tokens, ha, hb =>
    obtain ⟨f, rest, ⟨hf, hlevel⟩, htokens, hrest⟩ :=
      exists_operand depth tokens ha (by simpa [balances] using hb)
    exact ⟨.unary op f, rest, ⟨⟨hlevel, hf⟩, le_rfl⟩, by rw [htokens]; rfl, hrest⟩
  | .opening :: tokens, ha, hb =>
    obtain ⟨f, rest, ⟨hf, -⟩, htokens, ha', hb'⟩ :=
      exists_operand (depth + 1) tokens ha (by simpa [balances] using hb)
    obtain ⟨g, rest', hg, hjoined, hcloses⟩ := exists_joined (depth + 1) hf rest ha' hb'
    cases hcloses with
    | closing hra hrb =>
      refine ⟨.group g, _, ⟨hg, by simp [level]⟩, ?_, hra, hrb⟩
      simp [htokens, hjoined, Formula.tokens]
termination_by tokens.length
decreasing_by
  all_goals simp_wf
  rw [htokens, List.length_append]
  omega

/-- Behind a tree, the tokens go on with operators and operands, which join the tree, up to the end
or to a closing parenthesis. -/
theorem exists_joined (depth : Nat) {f : Formula} (hf : f.IsProper) (tokens : List Token)
    (ha : alternates false tokens) (hb : balances depth tokens) :
    ∃ g : Formula, ∃ rest, g.IsProper ∧ f.tokens ++ tokens = g.tokens ++ rest ∧
      Closes depth rest := by
  match tokens, ha, hb with
  | [], ha, hb =>
    obtain rfl : depth = 0 := by simpa [balances] using hb
    exact ⟨f, [], hf, rfl, .nil⟩
  | .closing :: rest, ha, hb =>
    cases depth with
    | zero => cases hb
    | succ depth => exact ⟨f, _, hf, rfl, .closing ha hb⟩
  | .symbol (.operator (.binary op)) :: tokens, ha, hb =>
    obtain ⟨r, rest, ⟨hr, hlevel⟩, htokens, ha', hb'⟩ :=
      exists_operand depth tokens ha (by simpa [balances] using hb)
    have hlt : op.precedence < r.level := by
      have := op.precedence_lt_unary .not
      exact this.trans_le hlevel
    obtain ⟨g, rest', hg, hjoined, hcloses⟩ := exists_joined depth (hf.join hr hlt) rest ha' hb'
    refine ⟨g, rest', hg, ?_, hcloses⟩
    rw [← hjoined, tokens_join, htokens]
    simp
termination_by tokens.length
decreasing_by
  all_goals simp_wf
  rw [htokens, List.length_append]
  omega

end

/-- Tokens are derivable exactly if they alternate and balance. -/
theorem isInfix_iff_balances_and_alternates {tokens : List Token} :
    IsInfix tokens ↔ balances 0 tokens ∧ alternates true tokens := by
  constructor
  · rintro ⟨f, -, rfl⟩
    have hb := balances_tokens f 0 []
    have ha := alternates_tokens f []
    rw [List.append_nil] at hb ha
    exact ⟨hb, ha⟩
  · rintro ⟨hb, ha⟩
    obtain ⟨f, rest, ⟨hf, -⟩, rfl, ha', hb'⟩ := exists_operand 0 tokens ha hb
    obtain ⟨g, rest', hg, hjoined, hcloses⟩ := exists_joined 0 hf rest ha' hb'
    cases hcloses with
    | nil => exact ⟨g, hg, by rw [hjoined, List.append_nil]⟩

end Token

/-! ### What is checked -/

namespace Postfix

open Token

/-- The number of open parentheses on the stack. -/
def openings (held : List Held) : Nat := held.count .opening

theorem openings_release (precedence : Nat) (held : List Held) :
    openings (release precedence held).2 = openings held := by
  obtain ⟨ops, -, h⟩ := release_append precedence held
  have hops : openings (ops.map Held.operator) = 0 := by
    simp [openings, List.count_eq_zero]
  conv_rhs => rw [h]
  rw [openings, openings, List.count_append]
  simp only [openings] at hops
  omega

theorem openings_releasePrefix (held : List Held) :
    openings (releasePrefix held).2 = openings held := by
  unfold releasePrefix
  split <;> simp [openings]

/-- A group can be closed exactly if one is open. -/
theorem closeGroup_eq (held : List Held) :
    (closeGroup held = none ∧ openings held = 0) ∨
      ∃ released rest, closeGroup held = some (released, rest) ∧
        openings held = openings rest + 1 := by
  induction held with
  | nil => exact .inl ⟨rfl, rfl⟩
  | cons x held ih =>
    cases x with
    | opening =>
      refine .inr ⟨(releasePrefix held).1, (releasePrefix held).2, rfl, ?_⟩
      rw [openings_releasePrefix]
      simp [openings]
    | operator o =>
      have hcount : openings (.operator o :: held) = openings held := by simp [openings]
      rw [hcount]
      obtain ⟨hnone, hzero⟩ | ⟨released, rest, hsome, hsucc⟩ := ih
      · exact .inl ⟨by simp [closeGroup, hnone], hzero⟩
      · exact .inr ⟨.operator o :: released, rest, by simp [closeGroup, hsome], hsucc⟩

theorem flush_isSome (held : List Held) : (flush held).isSome = (openings held == 0) := by
  induction held with
  | nil => rfl
  | cons x held ih =>
    cases x with
    | opening => simp [flush, openings]
    | operator o => simpa [flush, openings] using ih

/-- Tokens have a postfix order exactly if their parentheses match. -/
theorem reorder_isSome (held : List Held) (tokens : List Token) :
    (reorder held tokens).isSome = balances (openings held) tokens := by
  induction tokens generalizing held with
  | nil => exact flush_isSome held
  | cons t tokens ih =>
    match t with
    | .symbol (.operand o) => simp [reorder, balances, ih]
    | .symbol (.operator (.unary op)) => simp [reorder, balances, ih, openings]
    | .symbol (.operator (.binary op)) =>
      have := openings_release op.precedence held
      simp_all [reorder, balances, openings]
    | .opening => simp [reorder, balances, ih, openings]
    | .closing =>
      obtain ⟨hnone, hzero⟩ | ⟨released, rest, hsome, hsucc⟩ := closeGroup_eq held
      · simp [reorder, hnone, hzero, balances]
      · simp [reorder, hsome, hsucc, balances, ih]

theorem balances_of_ofTokens {tokens : List Token} {symbols : List Symbol}
    (h : ofTokens tokens = .ok symbols) : balances 0 tokens := by
  have hsome := reorder_isSome [] tokens
  rw [(ofTokens_eq_ok_iff.1 h).1] at hsome
  exact hsome.symm

end Postfix

namespace Expression

/-- Whether a diagnostic tells that the condition at `place` is refused for the reason. -/
def Reports (d : Diagnostic) (place : Span) (reason : ExpressionError) : Prop :=
  d.severity = .warning ∧ d.code = some .e212 ∧ place ∈ d.labels.map (·.span) ∧
    ∃ subject, d.message = subject ++ reason.message

/-- What becomes of a text that is refused: it never holds, and as the condition of a transition or
of an action it is reported. -/
structure IsRefused (text : String) (reason : ExpressionError) : Prop where
  never : ∀ now, textHolds text now = false
  ofTransition : ∀ (c : Chart), ∀ t ∈ c.transitions, t.condition = text →
    ∃ f ∈ c.conditionFindings, Reports f.diagnostic t.span reason
  ofAction : ∀ (c : Chart), ∀ s ∈ c.steps, ∀ a ∈ s.actions, a.value.guard? = some text →
    ∃ f ∈ c.conditionFindings, Reports f.diagnostic a.span reason

theorem refusal?_eq_some_iff {text : String} {reason : ExpressionError} :
    refusal? text = some reason ↔ parse text = .error reason := by
  unfold refusal?
  cases parse text <;> simp

theorem isRefused_of_parse {text : String} {reason : ExpressionError}
    (h : parse text = .error reason) : IsRefused text reason where
  never now := by simp [textHolds, h]
  ofTransition c t ht htext := by
    obtain ⟨e, he, het⟩ := List.mem_filterMap.1 ht
    cases e with
    | transition t' =>
      obtain rfl : t' = t := by simpa [Element.transition?] using het
      have hrefused := refusal?_eq_some_iff.2 (htext ▸ h)
      refine ⟨.ofTransition t'.number t'.span reason,
        List.mem_flatMap.2 ⟨_, he, by simp [Element.conditionFindings, hrefused]⟩, rfl, rfl,
        by simp [ConditionFinding.diagnostic], _, rfl⟩
    | step s => cases het
    | jump j => cases het
    | divergence => cases het
  ofAction c s hs a ha htext := by
    obtain ⟨e, he, hes⟩ := List.mem_filterMap.1 hs
    cases e with
    | step s' =>
      obtain rfl : s' = s := by simpa [Element.step?] using hes
      have hrefused := refusal?_eq_some_iff.2 h
      have hfinding : a.conditionFinding? = some (.ofAction a.value.name a.span reason) := by
        simp [Located.conditionFinding?, htext, hrefused]
      refine ⟨.ofAction a.value.name a.span reason,
        List.mem_flatMap.2 ⟨_, he, List.mem_filterMap.2 ⟨a, ha, hfinding⟩⟩, rfl, rfl,
        by simp [ConditionFinding.diagnostic], _, rfl⟩
    | transition t => cases hes
    | jump j => cases hes
    | divergence => cases hes

theorem parse_eq_ok_iff {text : String} {tokens : List Token}
    (h : Token.read text.toList = .ok tokens) :
    (∃ e, parse text = .ok e) ↔ ∃ symbols, Postfix.ofTokens tokens = .ok symbols := by
  cases hs : Postfix.ofTokens tokens <;>
    simp [parse, h, hs, bind, Except.bind, pure, Except.pure]

/-- A text is an infix expression exactly if it is accepted and its tokens alternate. So a text that
is accepted without being one has an operator or a group in a wrong place, and a text that is
refused is none; it never holds and is reported. -/
theorem isInfix_iff_parse_and_alternates {text : String} {tokens : List Token}
    (h : Token.read text.toList = .ok tokens) :
    (Token.IsInfix tokens ↔ (∃ e, parse text = .ok e) ∧ Token.alternates true tokens) ∧
      ∀ reason, parse text = .error reason → ¬ Token.IsInfix tokens ∧ IsRefused text reason := by
  have hiff : Token.IsInfix tokens ↔ (∃ e, parse text = .ok e) ∧ Token.alternates true tokens := by
    rw [parse_eq_ok_iff h]
    constructor
    · intro hinfix
      obtain ⟨f, hf, rfl⟩ := id hinfix
      exact ⟨⟨_, Formula.ofTokens_tokens hf⟩,
        (Token.isInfix_iff_balances_and_alternates.1 hinfix).2⟩
    · rintro ⟨⟨symbols, hsymbols⟩, ha⟩
      exact Token.isInfix_iff_balances_and_alternates.2
        ⟨Postfix.balances_of_ofTokens hsymbols, ha⟩
  refine ⟨hiff, fun reason hreason => ⟨fun hinfix => ?_, isRefused_of_parse hreason⟩⟩
  obtain ⟨⟨e, he⟩, -⟩ := hiff.1 hinfix
  rw [hreason] at he
  cases he

theorem isInfix_iff_parse_and_alternates_not_group :
    ∃ tokens, Token.read "NOT (A) OR B".toList = .ok tokens ∧
      (Token.IsInfix tokens ↔
        (∃ e, parse "NOT (A) OR B" = .ok e) ∧ Token.alternates true tokens) ∧
      ∀ reason, parse "NOT (A) OR B" = .error reason →
        ¬ Token.IsInfix tokens ∧ IsRefused "NOT (A) OR B" reason :=
  ⟨_, rfl, isInfix_iff_parse_and_alternates rfl⟩

-- accepted without being infix: nothing stands between the parentheses
example : (parse "() A").toOption.isSome ∧
    (Token.read "() A".toList).map (Token.alternates true) = .ok false := by
  decide

/-- `A B AND` is accepted, though its operator stands behind both its operands. -/
theorem exists_parse_not_isInfix :
    ∃ tokens e, Token.read "A B AND".toList = .ok tokens ∧ parse "A B AND" = .ok e ∧
      ¬ Token.IsInfix tokens := by
  refine ⟨_, _, rfl, rfl, ?_⟩
  rw [Token.isInfix_iff_balances_and_alternates]
  decide

end Expression

end SequentialChart
