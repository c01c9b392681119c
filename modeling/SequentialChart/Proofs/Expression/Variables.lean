import Mathlib
import SequentialChart.Proofs.Expression.Rendering

/-!
# The variables of an expression

A text may be just the name of a variable, or ask for an edge of one. Whatever it asks for, the
variables that it does not mention have no part in its value.

## Main definitions

* `Expression.IsVariable` — the text is the name of a variable.
* `Expression.ShowsEdges` — when the edges of a variable hold.
* `Expression.Mentions` — a variable occurs in the text.
* `Variables.AgreeOff`, `Moment.AgreeOff` — all variables but one have the same values.

## Main statements

* `Expression.showsEdges` — an edge compares the value of a variable with the one before.
* `Postfix.operands_of_reorder` — putting symbols into postfix order keeps the operands in theirs.
* `Expression.textHolds_congr` — a variable that is not mentioned does not matter.
-/

namespace SequentialChart

/-! ### Edges -/

namespace Token

/-- A word that needs a blank behind it is read apart from what follows the blank. -/
theorem read_append_blank {t : Token} {w : List Char} (hw : Spells t w) (htight : isTight w = false)
    (text : List Char) : read (w ++ ' ' :: text) = (read text).map (t :: ·) := by
  have hblank : Text.isBlank ' ' := by decide
  have hplain : ∀ c ∈ w, tightChars.contains c = false := by
    intro c hc
    have := hw.isPlain_of_not_isTight htight c hc
    simp only [isPlain, Bool.and_eq_true, Bool.not_eq_true'] at this
    exact this.2
  have hword : Text.words w = [w] := Text.words_of_not_blank hw.ne_nil hw.isBlank_eq_false
  rw [read, spaceOut_append hplain, spaceOut_cons (by decide), Text.words_append_blank hblank,
    hword, List.singleton_append, List.mapM_cons, ofWord_of_spells hw, read]
  cases (Text.words (spaceOut text)).mapM ofWord <;> rfl

end Token

namespace Expression

/-- The text is the name of a variable and nothing else. -/
def IsVariable (name : String) : Prop :=
  Token.read name.toList = .ok [.symbol (.operand (.variable name))]

theorem isVariable_of_isName {name : String} (h : Token.IsName name.toList) : IsVariable name := by
  have hspells : Token.Spells (.symbol (.operand (.variable name))) name.toList := by
    simpa using Token.Spells.name h
  have hwritten : Token.Written true [.symbol (.operand (.variable name))]
      ([] ++ (name.toList ++ [])) :=
    .cons nofun hspells (.inr (.inl rfl)) (.nil nofun)
  simpa [IsVariable] using Token.read_of_written hwritten

/-- The word for an edge in front of a variable asks for this edge. -/
theorem parse_edge {name word text : String} {op : PrefixOp} (hname : IsVariable name)
    (hword : (Token.symbol (.operator (.unary op))).letters? = some word)
    (htight : Token.isTight word.toList = false)
    (htext : text.toList = word.toList ++ ' ' :: name.toList) :
    parse text = .ok ⟨text, [.operand (.variable name), .operator (.unary op)]⟩ := by
  have hupper : Text.upper word.toList = word.toList := by
    unfold Token.letters? at hword
    split at hword <;> cases hword <;> rfl
  have hread : Token.read text.toList =
      .ok [.symbol (.operator (.unary op)), .symbol (.operand (.variable name))] := by
    rw [htext, Token.read_append_blank (.letters hword hupper) htight, hname]
    rfl
  rw [parse, hread]
  rfl

/-- The edges of a variable that was true exactly if `before`, and now is exactly if `after`, hold
as they should. -/
def ShowsEdges (holds : String → Prop) (name : String) (before after : Prop) : Prop :=
  (holds ("RE " ++ name) ↔ after ∧ ¬ before) ∧ (holds ("FE " ++ name) ↔ before ∧ ¬ after)

theorem showsEdges {name : String} (hname : IsVariable name) {now : Moment} {before after : Prop}
    (hbefore : (now.previous.read name).isTruthy ↔ before)
    (hafter : (now.current.read name).isTruthy ↔ after) :
    ShowsEdges (textHolds · now) name before after := by
  have hparseRising : parse ("RE " ++ name) =
      .ok ⟨_, [.operand (.variable name), .operator (.unary .risingEdge)]⟩ :=
    parse_edge hname rfl (by decide) (by simp)
  have hparseFalling : parse ("FE " ++ name) =
      .ok ⟨_, [.operand (.variable name), .operator (.unary .fallingEdge)]⟩ :=
    parse_edge hname rfl (by decide) (by simp)
  have hrising := textHolds_of_parse hparseRising now
  have hfalling := textHolds_of_parse hparseFalling now
  constructor
  · show textHolds ("RE " ++ name) now ↔ after ∧ ¬ before
    rw [hrising, ← hbefore, ← hafter]
    simp [holds, value, Postfix.evaluate, Postfix.run, Symbol.step, Moment.operand, Moment.unary,
      Moment.rises, Result.computed, bind, Except.bind, pure, Except.pure, and_comm]
  · show textHolds ("FE " ++ name) now ↔ before ∧ ¬ after
    rw [hfalling, ← hbefore, ← hafter]
    simp [holds, value, Postfix.evaluate, Postfix.run, Symbol.step, Moment.operand, Moment.unary,
      Moment.falls, Result.computed, bind, Except.bind, pure, Except.pure]

end Expression

/-! ### Operands -/

/-- The operand, if the symbol is one. -/
def Symbol.operand? : Symbol → Option Operand
  | .operand o => some o
  | .operator _ => none

/-- The operand, if the token is one. -/
def Token.operand? : Token → Option Operand
  | .symbol s => s.operand?
  | .opening => none
  | .closing => none

namespace Postfix

theorem operands_map_operator (ops : List Operator) :
    (ops.map Symbol.operator).filterMap Symbol.operand? = [] := by
  simp [List.filterMap_map, Function.comp_def, Symbol.operand?]

theorem operands_release (precedence : Nat) (held : List Held) :
    (release precedence held).1.filterMap Symbol.operand? = [] := by
  obtain ⟨ops, hops, -⟩ := release_append precedence held
  rw [hops, operands_map_operator]

theorem operands_releasePrefix (held : List Held) :
    (releasePrefix held).1.filterMap Symbol.operand? = [] := by
  unfold releasePrefix
  split <;> rfl

theorem operands_closeGroup {held rest : List Held} {released : List Symbol}
    (h : closeGroup held = some (released, rest)) : released.filterMap Symbol.operand? = [] := by
  induction held generalizing released rest with
  | nil => cases h
  | cons x held ih =>
    cases x with
    | opening =>
      have hprefix := operands_releasePrefix held
      rwa [Option.some.inj h] at hprefix
    | operator o =>
      obtain ⟨⟨released', rest'⟩, hclose, heq⟩ := Option.map_eq_some_iff.1 h
      obtain ⟨rfl, rfl⟩ := Prod.mk.inj heq
      rw [List.filterMap_cons_none rfl]
      exact ih hclose

theorem operands_flush {held : List Held} {symbols : List Symbol} (h : flush held = some symbols) :
    symbols.filterMap Symbol.operand? = [] := by
  induction held generalizing symbols with
  | nil =>
    cases h
    rfl
  | cons x held ih =>
    cases x with
    | opening => cases h
    | operator o =>
      obtain ⟨symbols', hflush, rfl⟩ := Option.map_eq_some_iff.1 h
      rw [List.filterMap_cons_none rfl]
      exact ih hflush

/-- The operands stay in their order when their operators are moved behind them. -/
theorem operands_of_reorder {held : List Held} {tokens : List Token} {symbols : List Symbol}
    (h : reorder held tokens = some symbols) :
    symbols.filterMap Symbol.operand? = tokens.filterMap Token.operand? := by
  induction tokens generalizing held symbols with
  | nil => exact operands_flush h
  | cons t tokens ih =>
    match t with
    | .symbol (.operand o) =>
      obtain ⟨symbols', hrest, rfl⟩ := Option.map_eq_some_iff.1 h
      exact congrArg (o :: ·) (ih hrest)
    | .symbol (.operator (.unary op)) => exact ih h
    | .symbol (.operator (.binary op)) =>
      obtain ⟨symbols', hrest, rfl⟩ := Option.map_eq_some_iff.1 h
      rw [List.filterMap_append, operands_release]
      exact ih hrest
    | .opening => exact ih h
    | .closing =>
      cases hclose : closeGroup held with
      | none => simp [reorder, hclose] at h
      | some r =>
        obtain ⟨released, rest⟩ := r
        simp only [reorder, hclose] at h
        obtain ⟨symbols', hrest, rfl⟩ := Option.map_eq_some_iff.1 h
        rw [List.filterMap_append, operands_closeGroup hclose]
        exact ih hrest

theorem operands_of_ofTokens {tokens : List Token} {symbols : List Symbol}
    (h : ofTokens tokens = .ok symbols) :
    symbols.filterMap Symbol.operand? = tokens.filterMap Token.operand? :=
  operands_of_reorder (ofTokens_eq_ok_iff.1 h).1

end Postfix

/-! ### Variables that are not mentioned -/

/-- The variables have the same values, except perhaps for the one with the name. -/
def Variables.AgreeOff (name : String) (a b : Variables) : Prop :=
  ∀ other, other ≠ name → a.get? other = b.get? other

/-- The two moments are the same, except perhaps for the variable with the name. -/
structure Moment.AgreeOff (name : String) (now now' : Moment) : Prop where
  current : Variables.AgreeOff name now.current now'.current
  previous : Variables.AgreeOff name now.previous now'.previous

theorem Variables.AgreeOff.read_eq {name other : String} {a b : Variables} (h : AgreeOff name a b)
    (hne : other ≠ name) : a.read other = b.read other := by
  rw [read, read, h other hne]

section AgreeOff

variable {name : String} {now now' : Moment}

/-- A prefix operator looks at no variable but the one that its operand was read from. -/
theorem Moment.AgreeOff.unary_eq (h : now.AgreeOff name now') (op : PrefixOp) {r : Result}
    (hr : r.source ≠ some name) : now.unary op r = now'.unary op r := by
  obtain ⟨value, source⟩ := r
  cases source with
  | none => cases op <;> rfl
  | some other =>
    have hne : other ≠ name := fun heq => hr (congrArg some heq)
    cases op <;> simp [unary, rises, falls, h.previous.read_eq hne]

/-- A symbol other than the variable does the same at both moments, and puts no result on the stack
that was read from the variable. -/
theorem Symbol.step_congr (h : now.AgreeOff name now') {s : Symbol}
    (hs : s ≠ .operand (.variable name)) {stack : List Result}
    (hstack : ∀ r ∈ stack, r.source ≠ some name) :
    s.step now stack = s.step now' stack ∧
      ∀ stack', s.step now stack = .ok stack' → ∀ r ∈ stack', r.source ≠ some name := by
  match s, stack with
  | .operand (.literal v), stack =>
    refine ⟨rfl, fun stack' hstep => ?_⟩
    cases hstep
    exact List.forall_mem_cons.2 ⟨nofun, hstack⟩
  | .operand (.variable other), stack =>
    have hne : other ≠ name := by
      rintro rfl
      exact hs rfl
    refine ⟨?_, fun stack' hstep => ?_⟩
    · simp [step, Moment.operand, h.current.read_eq hne]
    · cases hstep
      exact List.forall_mem_cons.2 ⟨fun heq => hne (Option.some.inj heq), hstack⟩
  | .operator (.unary op), r :: stack =>
    obtain ⟨hr, hrest⟩ := List.forall_mem_cons.1 hstack
    refine ⟨?_, fun stack' hstep => ?_⟩
    · simp [step, h.unary_eq op hr]
    · cases hstep
      exact List.forall_mem_cons.2 ⟨nofun, hrest⟩
  | .operator (.binary op), right :: left :: stack =>
    obtain ⟨-, hrest⟩ := List.forall_mem_cons.1 hstack
    refine ⟨rfl, fun stack' hstep => ?_⟩
    cases hstep
    exact List.forall_mem_cons.2 ⟨nofun, (List.forall_mem_cons.1 hrest).2⟩
  | .operator (.unary op), [] => exact ⟨rfl, nofun⟩
  | .operator (.binary op), [] => exact ⟨rfl, nofun⟩
  | .operator (.binary op), [r] => exact ⟨rfl, nofun⟩

theorem Postfix.run_congr (h : now.AgreeOff name now') {symbols : List Symbol}
    (hsymbols : .operand (.variable name) ∉ symbols) {stack : List Result}
    (hstack : ∀ r ∈ stack, r.source ≠ some name) :
    run now symbols stack = run now' symbols stack := by
  induction symbols generalizing stack with
  | nil => rfl
  | cons s symbols ih =>
    rw [List.mem_cons, not_or] at hsymbols
    obtain ⟨hstep, hnext⟩ := Symbol.step_congr h (Ne.symm hsymbols.1) hstack
    rw [run, run, ← hstep]
    cases hs : s.step now stack with
    | error e => rfl
    | ok stack' => exact ih hsymbols.2 (hnext stack' hs)

namespace Expression

/-- The variable occurs in the text. -/
def Mentions (text name : String) : Prop :=
  ∃ tokens, Token.read text.toList = .ok tokens ∧ .symbol (.operand (.variable name)) ∈ tokens

/-- The name of a variable mentions that variable only. -/
theorem IsVariable.mentions_iff {text : String} (h : IsVariable text) :
    Mentions text name ↔ text = name := by
  constructor
  · rintro ⟨tokens, hread, hmem⟩
    obtain rfl : _ = tokens := Except.ok.inj (h.symm.trans hread)
    simpa [eq_comm] using hmem
  · rintro rfl
    exact ⟨_, h, List.mem_singleton_self _⟩

/-- An expression has the symbols of the tokens of its text. -/
theorem exists_tokens_of_parse {text : String} {e : Expression} (h : parse text = .ok e) :
    ∃ tokens, Token.read text.toList = .ok tokens ∧ Postfix.ofTokens tokens = .ok e.postfixed := by
  cases hread : Token.read text.toList with
  | error reason => simp [parse, hread, bind, Except.bind] at h
  | ok tokens =>
    cases hpostfix : Postfix.ofTokens tokens with
    | error reason => simp [parse, hread, hpostfix, bind, Except.bind] at h
    | ok symbols =>
      obtain rfl : ⟨text, symbols⟩ = e := by
        simpa [parse, hread, hpostfix, bind, Except.bind, pure, Except.pure] using h
      exact ⟨tokens, rfl, hpostfix⟩

theorem mentions_of_parse {text : String} {e : Expression} (h : parse text = .ok e)
    (hmem : .operand (.variable name) ∈ e.postfixed) : Mentions text name := by
  obtain ⟨tokens, hread, hpostfix⟩ := exists_tokens_of_parse h
  have hoperand : Operand.variable name ∈ e.postfixed.filterMap Symbol.operand? :=
    List.mem_filterMap.2 ⟨_, hmem, rfl⟩
  rw [Postfix.operands_of_ofTokens hpostfix, List.mem_filterMap] at hoperand
  obtain ⟨t, ht, htoken⟩ := hoperand
  cases t with
  | opening | closing => cases htoken
  | symbol s =>
    cases s with
    | operator op => cases htoken
    | operand o =>
      cases htoken
      exact ⟨tokens, hread, ht⟩

/-- What a text does not mention has no part in whether it holds. -/
theorem textHolds_congr {text : String} (h : now.AgreeOff name now')
    (htext : ¬ Mentions text name) : textHolds text now = textHolds text now' := by
  cases hparse : parse text with
  | error reason => simp [textHolds, hparse]
  | ok e =>
    have hvalue : e.value now = e.value now' := by
      have hempty : ∀ r ∈ ([] : List Result), r.source ≠ some name := by simp
      have hrun := Postfix.run_congr h (fun hmem => htext (mentions_of_parse hparse hmem)) hempty
      rw [value, value, Postfix.evaluate, Postfix.evaluate, hrun]
    rw [textHolds_of_parse hparse, textHolds_of_parse hparse, holds, holds, hvalue]

end Expression

end AgreeOff

end SequentialChart
