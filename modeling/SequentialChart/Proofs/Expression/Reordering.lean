import Mathlib
import SequentialChart.Proofs.Expression.Alternation
import SequentialChart.Proofs.Expression.Variables

/-!
# Tokens in postfix order

Putting tokens into postfix order fails exactly if their parentheses do not match. Otherwise nothing
but the parentheses is lost and only operators are moved. The check that follows counts values: what
passes it can be evaluated at every moment.

## Main definitions

* `Token.AreNested` — the parentheses of the tokens match.
* `Postfix.Rearranges` — the symbols are those of the tokens, the operands in their order.

## Main statements

* `Token.balances_iff_areNested` — counting open parentheses decides whether they match.
* `Postfix.perm_of_reorder` — the symbols in postfix order are those of the tokens.
* `Postfix.length_operands_of_checkArity`, `Postfix.exists_run_of_checkArity` — what the count of
  values says about the operators and about the stack of an evaluation.
* `Postfix.ofTokens_outcome` — when tokens are refused, and what is known if they are not.
-/

namespace SequentialChart

/-! ### Parentheses -/

namespace Token

/-- Every opening parenthesis has a closing one behind it, with nested tokens between them, and
there are no other parentheses. -/
inductive AreNested : List Token → Prop
  | nil : AreNested []
  | symbol (s : Symbol) {rest : List Token} : AreNested rest → AreNested (.symbol s :: rest)
  | group {inner rest : List Token} : AreNested inner → AreNested rest →
    AreNested (.opening :: inner ++ .closing :: rest)

theorem AreNested.balances_append {tokens : List Token} (h : AreNested tokens) (depth : Nat)
    (rest : List Token) : balances depth (tokens ++ rest) = balances depth rest := by
  induction h generalizing depth rest with
  | nil => rfl
  | symbol s _ ih =>
    rw [List.cons_append, balances]
    exact ih depth rest
  | group _ _ ihInner ihRest =>
    rw [List.append_assoc, List.cons_append, List.cons_append, balances, ihInner, balances]
    exact ihRest depth rest

/-- Tokens that balance within open parentheses are nested up to the parenthesis that closes the
innermost of them. -/
theorem exists_areNested_of_balances (depth : Nat) (tokens : List Token)
    (h : balances depth tokens) :
    (depth = 0 ∧ AreNested tokens) ∨ ∃ outer inner rest, depth = outer + 1 ∧ AreNested inner ∧
      tokens = inner ++ .closing :: rest ∧ balances outer rest := by
  match tokens with
  | [] => exact .inl ⟨by simpa [balances] using h, .nil⟩
  | .symbol s :: tokens =>
    rw [balances] at h
    obtain ⟨hdepth, htokens⟩ | ⟨outer, inner, rest, hdepth, hinner, rfl, hrest⟩ :=
      exists_areNested_of_balances depth tokens h
    · exact .inl ⟨hdepth, htokens.symbol s⟩
    · exact .inr ⟨outer, .symbol s :: inner, rest, hdepth, hinner.symbol s, rfl, hrest⟩
  | .closing :: tokens =>
    cases depth with
    | zero => cases h
    | succ outer => exact .inr ⟨outer, [], tokens, rfl, .nil, rfl, h⟩
  | .opening :: tokens =>
    rw [balances] at h
    -- what the new parenthesis encloses ends somewhere, and behind its end the old ones are open
    obtain ⟨hdepth, -⟩ | ⟨outer, inner, rest, hdepth, hinner, rfl, hrest⟩ :=
      exists_areNested_of_balances (depth + 1) tokens h
    · omega
    · obtain rfl : depth = outer := by omega
      obtain ⟨hdepth, hnested⟩ | ⟨outer, inner', rest', hdepth, hinner', rfl, hrest'⟩ :=
        exists_areNested_of_balances depth rest hrest
      · exact .inl ⟨hdepth, hinner.group hnested⟩
      · refine .inr ⟨outer, _, rest', hdepth, hinner.group hinner', ?_, hrest'⟩
        simp
termination_by tokens.length

theorem balances_iff_areNested {tokens : List Token} : balances 0 tokens ↔ AreNested tokens := by
  constructor
  · intro h
    obtain ⟨-, hnested⟩ | ⟨outer, inner, rest, hdepth, -⟩ :=
      exists_areNested_of_balances 0 tokens h
    · exact hnested
    · omega
  · intro h
    have hall := h.balances_append 0 []
    rwa [List.append_nil] at hall

end Token

/-! ### Symbols -/

/-- The symbol, if the token is no parenthesis. -/
def Token.symbol? : Token → Option Symbol
  | .symbol s => some s
  | .opening => none
  | .closing => none

/-- The symbol that waits, if it is no parenthesis. -/
def Held.symbol? : Held → Option Symbol
  | .operator o => some (.operator o)
  | .opening => none

/-- Whether the symbol is an operator between two operands. -/
def Symbol.isBinary : Symbol → Bool
  | .operator (.binary _) => true
  | _ => false

namespace Postfix

/-- The symbols are those of the tokens, with the operands in their order. -/
structure Rearranges (tokens : List Token) (symbols : List Symbol) : Prop where
  perm : symbols.Perm (tokens.filterMap Token.symbol?)
  operands : symbols.filterMap Symbol.operand? = tokens.filterMap Token.operand?

theorem symbols_release (precedence : Nat) (held : List Held) :
    (release precedence held).1 ++ (release precedence held).2.filterMap Held.symbol? =
      held.filterMap Held.symbol? := by
  fun_induction release precedence held <;> grind [Held.symbol?]

theorem symbols_releasePrefix (held : List Held) :
    (releasePrefix held).1 ++ (releasePrefix held).2.filterMap Held.symbol? =
      held.filterMap Held.symbol? := by
  fun_cases releasePrefix held <;> grind [Held.symbol?]

theorem symbols_closeGroup {held rest : List Held} {released : List Symbol}
    (h : closeGroup held = some (released, rest)) :
    released ++ rest.filterMap Held.symbol? = held.filterMap Held.symbol? := by
  induction held generalizing released with
  | nil => cases h
  | cons x held ih =>
    cases x with
    | opening =>
      have hprefix := symbols_releasePrefix held
      rw [Option.some.inj h] at hprefix
      exact hprefix
    | operator o =>
      obtain ⟨⟨released', rest'⟩, hclose, heq⟩ := Option.map_eq_some_iff.1 h
      obtain ⟨rfl, rfl⟩ := Prod.mk.inj heq
      exact congrArg (.operator o :: ·) (ih hclose)

theorem symbols_flush {held : List Held} {symbols : List Symbol} (h : flush held = some symbols) :
    symbols = held.filterMap Held.symbol? := by
  induction held generalizing symbols with
  | nil => exact (Option.some.inj h).symm
  | cons x held ih =>
    cases x with
    | opening => cases h
    | operator o =>
      obtain ⟨symbols', hflush, rfl⟩ := Option.map_eq_some_iff.1 h
      exact congrArg (.operator o :: ·) (ih hflush)

/-- The symbols come from the stack and from the tokens, and none is lost or doubled. -/
theorem perm_of_reorder {held : List Held} {tokens : List Token} {symbols : List Symbol}
    (h : reorder held tokens = some symbols) :
    symbols.Perm (held.filterMap Held.symbol? ++ tokens.filterMap Token.symbol?) := by
  induction tokens generalizing held symbols with
  | nil =>
    rw [symbols_flush h, List.filterMap_nil, List.append_nil]
  | cons t tokens ih =>
    match t with
    | .symbol (.operand o) =>
      obtain ⟨symbols', hrest, rfl⟩ := Option.map_eq_some_iff.1 h
      exact ((ih hrest).cons _).trans List.perm_middle.symm
    | .symbol (.operator (.unary op)) =>
      exact (ih h).trans List.perm_middle.symm
    | .symbol (.operator (.binary op)) =>
      obtain ⟨symbols', hrest, rfl⟩ := Option.map_eq_some_iff.1 h
      rw [← symbols_release op.precedence held, List.append_assoc]
      exact ((ih hrest).trans List.perm_middle.symm).append_left _
    | .opening =>
      have hrest := ih h
      exact hrest
    | .closing =>
      cases hclose : closeGroup held with
      | none => simp [reorder, hclose] at h
      | some r =>
        obtain ⟨released, rest⟩ := r
        simp only [reorder, hclose] at h
        obtain ⟨symbols', hrest, rfl⟩ := Option.map_eq_some_iff.1 h
        rw [← symbols_closeGroup hclose, List.append_assoc]
        exact (ih hrest).append_left _

/-! ### Counting values -/

/-- Whatever fails once there is a symbol, it is an operand or an operator that is missing. -/
theorem checkArity_eq_empty_iff {depth : Nat} {symbols : List Symbol} :
    checkArity depth symbols = .error .empty ↔ depth = 0 ∧ symbols = [] := by
  fun_induction checkArity depth symbols <;> grind

theorem checkArity_ne_unbalanced (depth : Nat) (symbols : List Symbol) :
    checkArity depth symbols ≠ .error .unbalancedParenthesis := by
  fun_induction checkArity depth symbols <;> grind

/-- An operator between two operands takes one value more than it leaves, an operand leaves one
more than it takes. -/
theorem length_operands_of_checkArity {depth : Nat} {symbols : List Symbol}
    (h : checkArity depth symbols = .ok ()) :
    depth + (symbols.filterMap Symbol.operand?).length = symbols.countP Symbol.isBinary + 1 := by
  induction symbols generalizing depth with
  | nil =>
    rcases depth with _ | _ | depth
    · cases h
    · rfl
    · cases h
  | cons s symbols ih =>
    rw [checkArity] at h
    split at h
    · cases h
    · have hrest := ih h
      rcases s with o | op | op <;>
        grind [Symbol.operand?, Symbol.isBinary, Symbol.arity, Operator.arity]

/-- A symbol that finds as many values as it takes leaves one in their place. -/
theorem exists_step_of_arity_le (now : Moment) {s : Symbol} {stack : List Result}
    (h : s.arity ≤ stack.length) :
    ∃ stack', s.step now stack = .ok stack' ∧ stack'.length = stack.length - s.arity + 1 := by
  match s, stack with
  | .operand o, stack => exact ⟨_, rfl, rfl⟩
  | .operator (.unary op), r :: stack => exact ⟨_, rfl, rfl⟩
  | .operator (.binary op), right :: left :: stack => exact ⟨_, rfl, rfl⟩

/-- Symbols that pass the check leave one value on a stack of the depth that was checked. -/
theorem exists_run_of_checkArity (now : Moment) {symbols : List Symbol} {stack : List Result}
    (h : checkArity stack.length symbols = .ok ()) : ∃ r, run now symbols stack = .ok [r] := by
  induction symbols generalizing stack with
  | nil =>
    match stack with
    | [] => cases h
    | [r] => exact ⟨r, rfl⟩
    | _ :: _ :: _ => cases h
  | cons s symbols ih =>
    rw [checkArity] at h
    split at h
    · cases h
    · next hdepth =>
      obtain ⟨stack', hstep, hlength⟩ := exists_step_of_arity_le now (Nat.le_of_not_lt hdepth)
      obtain ⟨r, hr⟩ := ih (hlength.symm ▸ h)
      exact ⟨r, by rw [run, hstep]; exact hr⟩

/-! ### Tokens -/

theorem ofTokens_of_reorder {tokens : List Token} {symbols : List Symbol} {reason : ExpressionError}
    (h : reorder [] tokens = some symbols) :
    ofTokens tokens = .error reason ↔ checkArity 0 symbols = .error reason := by
  unfold ofTokens
  rw [h]
  cases harity : checkArity 0 symbols <;> simp [harity, bind, Except.bind, pure, Except.pure]

theorem exists_reorder_iff {tokens : List Token} :
    (∃ symbols, reorder [] tokens = some symbols) ↔ Token.AreNested tokens := by
  rw [← Option.isSome_iff_exists, reorder_isSome, ← Token.balances_iff_areNested]
  rfl

theorem rearranges_of_reorder {tokens : List Token} {symbols : List Symbol}
    (h : reorder [] tokens = some symbols) : Rearranges tokens symbols :=
  ⟨perm_of_reorder h, operands_of_reorder h⟩

theorem exists_value_of_ofTokens {tokens : List Token} {symbols : List Symbol}
    (h : ofTokens tokens = .ok symbols) (now : Moment) :
    ∃ r, run now symbols [] = .ok [r] ∧ evaluate now symbols = .ok r.value := by
  have harity : checkArity ([] : List Result).length symbols = .ok () := (ofTokens_eq_ok_iff.1 h).2
  obtain ⟨r, hr⟩ := exists_run_of_checkArity now harity
  exact ⟨r, hr, by rw [evaluate, hr]; rfl⟩

/-- Tokens are refused for their parentheses exactly if these do not match. If they match, the
tokens are rearranged; they are refused as empty exactly if nothing but parentheses is there; and if
they are accepted, there is one operand more than operators between operands, and the symbols leave
one value at every moment. In particular, an expression that was read always has a value. -/
theorem ofTokens_outcome (tokens : List Token) :
    (ofTokens tokens = .error .unbalancedParenthesis ↔ ¬ Token.AreNested tokens) ∧
      (Token.AreNested tokens → ∃ symbols, reorder [] tokens = some symbols ∧
        Rearranges tokens symbols ∧
        (ofTokens tokens = .error .empty ↔ tokens.filterMap Token.symbol? = []) ∧
        ∀ accepted, ofTokens tokens = .ok accepted → accepted = symbols ∧
          (symbols.filterMap Symbol.operand?).length = symbols.countP Symbol.isBinary + 1 ∧
          ∀ now, ∃ r, run now symbols [] = .ok [r] ∧ evaluate now symbols = .ok r.value) ∧
      ∀ text e, Expression.parse text = .ok e → ∀ now, ∃ v, e.value now = .ok v := by
  refine ⟨?_, fun hnested => ?_, fun text e he now => ?_⟩
  · rw [← exists_reorder_iff]
    constructor
    · rintro h ⟨symbols, hsymbols⟩
      exact checkArity_ne_unbalanced 0 symbols ((ofTokens_of_reorder hsymbols).1 h)
    · intro h
      have hnone : reorder [] tokens = none := by
        cases hr : reorder [] tokens with
        | none => rfl
        | some symbols => exact absurd ⟨symbols, hr⟩ h
      rw [ofTokens, hnone]
  · obtain ⟨symbols, hsymbols⟩ := exists_reorder_iff.2 hnested
    have hrearranges := rearranges_of_reorder hsymbols
    refine ⟨symbols, hsymbols, hrearranges, ?_, fun accepted haccepted => ?_⟩
    · rw [ofTokens_of_reorder hsymbols, checkArity_eq_empty_iff]
      have hempty : symbols = [] ↔ tokens.filterMap Token.symbol? = [] := by
        rw [← List.length_eq_zero_iff, hrearranges.perm.length_eq, List.length_eq_zero_iff]
      rw [hempty]
      exact and_iff_right rfl
    · obtain ⟨hreorder, harity⟩ := ofTokens_eq_ok_iff.1 haccepted
      obtain rfl : symbols = accepted := Option.some.inj (hsymbols.symm.trans hreorder)
      have hcount := length_operands_of_checkArity harity
      exact ⟨rfl, by omega, exists_value_of_ofTokens haccepted⟩
  · obtain ⟨tokens, -, hsymbols⟩ := Expression.exists_tokens_of_parse he
    obtain ⟨r, -, hr⟩ := exists_value_of_ofTokens hsymbols now
    exact ⟨r.value, hr⟩

end Postfix

end SequentialChart
