import Mathlib
import SequentialChart.Proofs.Directive.Given
import SequentialChart.Proofs.Expression.Alternation
import SequentialChart.Proofs.Expression.Numerals

/-!
# Numbers of transitions

The condition of a transition may have a number in front of it, and it may begin with a variable
that looks like one. What follows tells the two apart: behind a number the condition begins, and
behind a variable stands an operator or nothing.

## Main definitions

* `Token.beginsOperand` — the tokens with which an expression can begin.

## Main statements

* `Token.Written.startsWithOperand`, `Token.Written.not_startsWithOperand` — how an expression
  begins, and how it goes on behind an operand.
* `Arguments.number?_repr_append` — a number that is written is read.
* `Directive.splitNumber_of_written` — no part of an expression is taken for a number.
* `Directive.gives_transition_of_renders` — transitions with and without a number.
-/

namespace SequentialChart

open Text

/-! ### How an operand may begin -/

theorem startsWithOperand_blanks_append {blanks : List Char} (h : ∀ c ∈ blanks, isBlank c)
    (s : List Char) : startsWithOperand (blanks ++ s) = startsWithOperand s := by
  rw [startsWithOperand, trimStart_blanks_append h, ← startsWithOperand]

/-- The signs with which no operand begins. -/
def joints : List Char := ['.', '*', '+', '<', '>', '=', ')']

/-- Whether a word goes on with the character, if words end at blanks and opening parentheses. -/
def goesOn (c : Char) : Bool := !isBlank c && c ≠ '('

theorem startsWithOperand_cons {c : Char} (hc : isBlank c = false) (s : List Char) :
    startsWithOperand (c :: s) ↔ c ∉ joints ∧
      ¬ sameWord ((c :: s).takeWhile goesOn) "and".toList ∧
        ¬ sameWord ((c :: s).takeWhile goesOn) "or".toList := by
  have htrim : trimStart (c :: s) = c :: s := trimStart_eq_self (by rintro d ⟨⟩; exact hc)
  unfold startsWithOperand
  rw [htrim]
  by_cases hjoint : c ∈ joints
  · simp [show c ∈ ['.', '*', '+', '<', '>', '=', ')'] from hjoint, hjoint]
  · simp [show c ∉ ['.', '*', '+', '<', '>', '=', ')'] from hjoint, hjoint,
      show goesOn = fun c => !isBlank c && c ≠ '(' from rfl]

theorem goesOn_of_isPlain {c : Char} (h : Token.isPlain c) : goesOn c := by
  have hne : c ≠ '(' := by
    rintro rfl
    revert h
    decide
  simp only [Token.isPlain, Bool.and_eq_true] at h
  simp [goesOn, hne, h.1]

namespace Token

/-- Whether an expression can begin with the token. -/
def beginsOperand : Token → Bool
  | symbol (.operand _) | symbol (.operator (.unary _)) | opening => true
  | symbol (.operator (.binary _)) | closing => false

theorem exists_of_alternates {tokens : List Token} (h : alternates true tokens) :
    ∃ t rest, tokens = t :: rest ∧ t.beginsOperand := by
  match tokens with
  | .symbol (.operand _) :: _ => exact ⟨_, _, rfl, rfl⟩
  | .symbol (.operator (.unary _)) :: _ => exact ⟨_, _, rfl, rfl⟩
  | .opening :: _ => exact ⟨_, _, rfl, rfl⟩

variable {t : Token} {w text : List Char} {tokens : List Token} {afterTight : Bool}

/-- An operand that begins with a sign begins with a parenthesis. -/
theorem eq_opening_of_mem_signs {k : String} (ht : t.beginsOperand) (hk : k ∈ t.signs) :
    k = "(" := by
  match t with
  | symbol (.operand _) => cases hk
  | symbol (.operator (.unary _)) => cases hk
  | opening => exact List.mem_singleton.1 hk

/-- A word with which an operand begins is a parenthesis, or it has no sign in it. -/
theorem Spells.eq_opening_or_isPlain (h : Spells t w) (ht : t.beginsOperand) :
    w = ['('] ∨ ∀ c ∈ w, isPlain c := by
  cases h with
  | letters hk hu =>
    exact .inr fun c hc => (isPlain_of_isWordChar (isWordChar_of_upper_eq hk hu hc)).1
  | sign hk => exact .inl (congrArg String.toList (eq_opening_of_mem_signs ht hk))
  | name h => exact .inr fun c hc => (isPlain_of_isNameChar (h.chars c hc)).1
  | numeral h => exact .inr h.chars

/-- No word with which an operand begins has a point in front. -/
theorem Spells.head?_ne_point (h : Spells t w) (ht : t.beginsOperand) : w.head? ≠ some '.' := by
  cases h with
  | letters hk hu =>
    intro he
    exact absurd (isAlpha_of_upper_eq hk hu (List.mem_of_head? he)) (by decide)
  | sign hk =>
    rw [eq_opening_of_mem_signs ht hk]
    decide
  | name h =>
    obtain ⟨c, s, rfl, hc⟩ := h.start
    rintro ⟨⟩
    revert hc
    decide
  | numeral h =>
    obtain ⟨c, s, rfl, hc⟩ := h.start
    rintro ⟨⟩
    revert hc
    decide

/-- No operand begins with a sign that stands between operands. -/
theorem Spells.not_mem_joints (h : Spells t w) (ht : t.beginsOperand) :
    ∀ c ∈ w.head?, c ∉ joints := by
  intro c hc hjoint
  have hplain : ∀ d ∈ joints, isPlain d → d = '.' ∨ d = '=' := forall_mem_of_all (by decide)
  obtain rfl | hw := h.eq_opening_or_isPlain ht
  · obtain rfl : '(' = c := Option.some.inj hc
    exact absurd hjoint (by decide)
  · obtain rfl | rfl := hplain c hjoint (hw c (List.mem_of_mem_head? hc))
    · exact h.head?_ne_point ht hc
    · exact h.head?_ne hc

/-- A word means one token only, so that no operand begins with the word of an operator that stands
between operands. -/
theorem Spells.upper_ne {op : BinaryOp} {k : String} (h : Spells t w) (ht : t.beginsOperand)
    (hk : (symbol (.operator (.binary op))).letters? = some k) : upper w ≠ k.toList := by
  intro hu
  have hread := ofWord_of_spells (.letters hk hu)
  rw [ofWord_of_spells h] at hread
  cases hread
  cases ht

theorem isTight_eq_false (hne : w ≠ []) (hw : ∀ c ∈ w, isPlain c) : isTight w = false := by
  obtain ⟨c, s, rfl⟩ := List.exists_cons_of_ne_nil hne
  have hc := hw c List.mem_cons_self
  simp only [isPlain, Bool.and_eq_true, Bool.not_eq_true'] at hc
  exact hc.2

/-- Behind a word that is not tight, a text goes on with a blank or with a tight word. -/
theorem Written.head?_of_not_tight (h : Written false tokens text) {c : Char}
    (hc : c ∈ text.head?) :
    isBlank c ∨ ∃ t rest w, tokens = t :: rest ∧ Spells t w ∧ isTight w ∧ c ∈ w.head? := by
  generalize hb : false = afterTight at h
  cases h with
  | nil hgap => exact .inl (hgap c (List.mem_of_mem_head? hc))
  | @cons _ gap w text t tokens hgap hw hsep _ =>
    cases gap with
    | cons b gap =>
      obtain rfl : b = c := Option.some.inj hc
      exact .inl (hgap _ List.mem_cons_self)
    | nil =>
      rw [List.nil_append, List.head?_append_of_ne_nil _ hw.ne_nil] at hc
      exact .inr ⟨t, tokens, w, rfl, hw, by simpa [← hb] using hsep, hc⟩

/-- So a word that is not tight ends where it stands in a text. -/
theorem Written.isPlain_head? (h : Written false tokens text) :
    ∀ c ∈ text.head?, isPlain c = false := by
  intro c hc
  obtain hblank | ⟨t, rest, w, -, -, htight, hc⟩ := h.head?_of_not_tight hc
  · rw [isPlain, hblank]
    rfl
  · rw [isTight, Option.mem_def.1 hc, Option.any_some] at htight
    rw [isPlain, htight, Bool.not_true, Bool.and_false]

/-- An expression goes on with a blank or a parenthesis behind a word, if the word is not tight. -/
theorem Written.goesOn_head? (h : Written false (t :: tokens) text) (ht : t.beginsOperand) :
    ∀ c ∈ text.head?, goesOn c = false := by
  intro c hc
  obtain hblank | ⟨t, rest, w, htokens, hw, htight, hc⟩ := h.head?_of_not_tight hc
  · rw [goesOn, hblank]
    rfl
  · obtain ⟨rfl, rfl⟩ := List.cons.inj htokens
    obtain rfl | hplain := hw.eq_opening_or_isPlain ht
    · obtain rfl : '(' = c := Option.some.inj hc
      decide
    · rw [isTight_eq_false hw.ne_nil hplain] at htight
      cases htight

/-- There is only one way to divide an expression behind its first word, if the word is not
tight. -/
theorem Written.word_unique {front rest : List Char} (h : Written false tokens text)
    (hw : Spells t w) (htight : isTight w = false) (hfront : ∀ c ∈ front, isPlain c)
    (hrest : ∀ c ∈ rest.head?, isPlain c = false) (heq : w ++ text = front ++ rest) :
    w = front ∧ text = rest := by
  have hleft := takeWhile_append_of_head? (hw.isPlain_of_not_isTight htight) h.isPlain_head?
  have hright := takeWhile_append_of_head? hfront hrest
  rw [heq] at hleft
  exact ⟨hleft.1.symm.trans hright.1, hleft.2.symm.trans hright.2⟩

/-- The first word of an expression, up to a blank or an opening parenthesis, is none of the words
for operators that stand between operands. It may reach further than the word of the first token,
but then it has a sign in it. -/
theorem Written.upper_takeWhile_ne {op : BinaryOp} {k : String} (hw : Spells t w)
    (h : Written (isTight w) tokens text) (ht : t.beginsOperand)
    (hk : (symbol (.operator (.binary op))).letters? = some k) :
    upper ((w ++ text).takeWhile goesOn) ≠ k.toList := by
  obtain rfl | hplain := hw.eq_opening_or_isPlain ht
  · exact fun hu => letters?_ne_nil hk hu.symm
  rw [List.takeWhile_append_of_pos fun c hc => goesOn_of_isPlain (hplain c hc)]
  rw [isTight_eq_false hw.ne_nil hplain] at h
  cases hrest : text.takeWhile goesOn with
  | nil =>
    rw [List.append_nil]
    exact hw.upper_ne ht hk
  | cons c rest =>
    intro hu
    have halpha : c.isAlpha := isAlpha_of_upper_eq hk hu (by simp)
    have hhead : c ∈ text.head? := by
      rw [← List.takeWhile_append_dropWhile (p := goesOn) (l := text), hrest]
      rfl
    have hplain := (isPlain_of_isWordChar (isWordChar_of_isAlpha halpha)).1
    rw [h.isPlain_head? c hhead] at hplain
    cases hplain

/-- An expression looks as if it begins. -/
theorem Written.startsWithOperand (h : Written afterTight tokens text)
    (ha : alternates true tokens) : startsWithOperand text := by
  cases h with
  | nil => cases ha
  | @cons _ gap w text t tokens hgap hw hsep hrest =>
    obtain ⟨t', tokens', htokens, ht⟩ := exists_of_alternates ha
    obtain ⟨rfl, rfl⟩ := List.cons.inj htokens
    rw [startsWithOperand_blanks_append hgap]
    have hne (op : BinaryOp) {k : String}
        (hk : (symbol (.operator (.binary op))).letters? = some k) :=
      hrest.upper_takeWhile_ne hw ht hk
    obtain ⟨c, s, rfl⟩ := List.exists_cons_of_ne_nil hw.ne_nil
    rw [List.cons_append, startsWithOperand_cons (hw.isBlank_eq_false c List.mem_cons_self),
      sameWord_iff_upper, sameWord_iff_upper, ← List.cons_append]
    exact ⟨hw.not_mem_joints ht c rfl, hne .and rfl, hne .or rfl⟩

/-- A word for an operator that stands between operands does not look as if an expression began. -/
theorem Spells.not_startsWithOperand_append {op : BinaryOp}
    (hw : Spells (symbol (.operator (.binary op))) w) (h : Written (isTight w) tokens text)
    (ha : alternates true tokens) : ¬ SequentialChart.startsWithOperand (w ++ text) := by
  obtain ⟨c, s, hcs⟩ := List.exists_cons_of_ne_nil hw.ne_nil
  have hc : isBlank c = false := hw.isBlank_eq_false c (hcs ▸ List.mem_cons_self)
  have hstarts := startsWithOperand_cons hc (s ++ text)
  rw [← List.cons_append, ← hcs, sameWord_iff_upper, sameWord_iff_upper] at hstarts
  rw [hstarts]
  rintro ⟨hjoint, hand, hor⟩
  cases hw with
  | letters hk hu =>
    -- behind letters, the first word ends
    obtain ⟨t, tokens, rfl, ht⟩ := exists_of_alternates ha
    have hplain : ∀ c ∈ w, isPlain c := fun c hc =>
      (isPlain_of_isWordChar (isWordChar_of_upper_eq hk hu hc)).1
    rw [isTight_eq_false (hcs ▸ List.cons_ne_nil c s) hplain] at h
    have hfirst := (takeWhile_append_of_head? (fun c hc => goesOn_of_isPlain (hplain c hc))
      (h.goesOn_head? ht)).1
    rw [hfirst, hu] at hand hor
    match op with
    | .and => cases hk; exact hand rfl
    | .or => cases hk; exact hor rfl
    | .compare _ => cases hk
  | sign hk =>
    have hsigns : ∀ k ∈ (symbol (.operator (.binary op))).signs,
        k.toList.head?.all (· ∈ joints) := by
      cases op with
      | and => decide
      | or => decide
      | compare c => cases c <;> decide
    have := hsigns _ hk
    rw [hcs] at this
    exact hjoint (by simpa using this)

/-- What follows an operand does not look as if an expression began. -/
theorem Written.not_startsWithOperand (h : Written false tokens text)
    (ha : alternates false tokens) (hb : balances 0 tokens) :
    ¬ SequentialChart.startsWithOperand text := by
  generalize hbefore : false = afterTight at h
  cases h with
  | nil hgap =>
    have := startsWithOperand_blanks_append hgap []
    rw [List.append_nil] at this
    rw [this]
    decide
  | @cons _ gap w text t tokens hgap hw hsep hrest =>
    rw [startsWithOperand_blanks_append hgap]
    match t with
    | .symbol (.operator (.binary op)) => exact hw.not_startsWithOperand_append hrest ha
    | .closing => cases hb

end Token

/-! ### Numbers -/

/-- A number is written without leading zeros. -/
theorem head?_toDigits_ne {n : Nat} (hn : n ≠ 0) : (Nat.toDigits 10 n).head? ≠ some '0' := by
  induction n using Nat.strongRecOn with
  | ind n ih =>
    rw [Nat.toDigits_eq_if (by decide)]
    split
    · next hlt =>
      have hdigits : ∀ m : Fin 10, m.val ≠ 0 → [m.val.digitChar].head? ≠ some '0' := by decide
      exact hdigits ⟨n, hlt⟩ hn
    · rw [List.head?_append_of_ne_nil _ Nat.toDigits_ne_nil]
      exact ih (n / 10) (by omega) (by omega)

namespace Arguments

variable {s rest : List Char} {n : Nat}

/-- A number that is written, with something behind it that is no digit, is read. -/
theorem number?_repr_append (hn : n < UInt32.size) (hrest : ∀ c ∈ rest.head?, c.isDigit = false) :
    number? (n.repr.toList ++ rest) = some (n, rest) := by
  rw [Nat.toList_repr]
  by_cases hzero : n = 0
  · rw [hzero, Nat.toDigits_zero]
    rfl
  · obtain ⟨htake, hdrop⟩ := takeWhile_append_of_head?
      (fun c hc => Nat.isDigit_of_mem_toDigits (b := 10) (n := n) (by decide) le_rfl hc) hrest
    have hvalue : Decimal.digitsValue (Nat.toDigits 10 n) = n := Nat.ofDigitChars_ten_toDigits
    unfold number?
    split
    · next rest' hs =>
      refine absurd ?_ (head?_toDigits_ne hzero)
      rw [← List.head?_append_of_ne_nil _ Nat.toDigits_ne_nil, hs]
      rfl
    · simp only [htake, hdrop, hvalue]
      exact if_pos ⟨Nat.toDigits_ne_nil, hn⟩

/-- What is read as a number are digits. -/
theorem exists_of_number? (h : number? s = some (n, rest)) :
    ∃ digits, (∀ c ∈ digits, c.isDigit) ∧ s = digits ++ rest := by
  unfold number? at h
  split at h
  · cases h
    exact ⟨['0'], List.forall_mem_singleton.2 rfl, rfl⟩
  · obtain ⟨-, h⟩ := Option.ite_none_right_eq_some.1 h
    cases h
    exact ⟨_, fun c hc => List.mem_takeWhile_imp hc, List.takeWhile_append_dropWhile.symm⟩

/-- What is skipped are blanks. -/
theorem exists_of_skipSome? (h : skipSome? s = some rest) :
    ∃ blanks, blanks ≠ [] ∧ (∀ c ∈ blanks, isBlank c) ∧ s = blanks ++ rest := by
  have hskip (b : Char) (hb : isBlank b) (s : List Char) :
      ∃ blanks, blanks ≠ [] ∧ (∀ c ∈ blanks, isBlank c) ∧ b :: s = blanks ++ skip s := by
    refine ⟨b :: s.takeWhile fun c => c = ' ' ∨ c = '\t', List.cons_ne_nil _ _, ?_, ?_⟩
    · refine List.forall_mem_cons.2 ⟨hb, fun c hc => ?_⟩
      have hblank := List.mem_takeWhile_imp hc
      exact Line.isBlank_of_space_or_tab (of_decide_eq_true hblank)
    · exact congrArg (b :: ·) List.takeWhile_append_dropWhile.symm
  unfold skipSome? at h
  split at h
  · cases h
    exact hskip ' ' (by decide) _
  · cases h
    exact hskip '\t' (by decide) _
  · cases h

end Arguments

namespace Directive

open Token

variable {tokens : List Token} {text : List Char} {n : Nat}

/-- A number with a blank behind it is split off, if then an expression begins. -/
theorem splitNumber_repr_append (hn : n < UInt32.size)
    (hblank : ∀ c ∈ text.head?, isBlank c = false) (hstarts : startsWithOperand text) :
    splitNumber ('T' :: (n.repr.toList ++ ' ' :: text)) = (some n, text) := by
  have hnumber : Arguments.number? (n.repr.toList ++ ' ' :: text) = some (n, ' ' :: text) :=
    Arguments.number?_repr_append hn (by rintro c ⟨⟩; decide)
  have hskip : Arguments.skipSome? (' ' :: text) = some text :=
    congrArg some (Arguments.skip_eq_self hblank)
  simp only [splitNumber, Option.bind_eq_bind, Option.bind_some, hnumber, hskip, hstarts, if_true]

/-- Nothing is split off a text, if behind all that might be its number no expression begins. -/
theorem splitNumber_eq_self
    (h : ∀ c digits blanks rest, c = 'T' ∨ c = 't' → (∀ d ∈ digits, d.isDigit) → blanks ≠ [] →
      (∀ b ∈ blanks, isBlank b) → text = c :: digits ++ (blanks ++ rest) →
        ¬ startsWithOperand rest) :
    splitNumber text = (none, text) := by
  have hnone {c : Char} {s : List Char} (hc : c = 'T' ∨ c = 't') (htext : text = c :: s) :
      ((Arguments.number? s).bind fun r => (Arguments.skipSome? r.2).bind fun rest =>
        if startsWithOperand rest then some (r.1, rest) else none) = none := by
    refine Option.eq_none_iff_forall_ne_some.2 fun a ha => ?_
    obtain ⟨r, hnumber, ha⟩ := Option.bind_eq_some_iff.1 ha
    obtain ⟨rest, hskip, ha⟩ := Option.bind_eq_some_iff.1 ha
    obtain ⟨hstarts, -⟩ := Option.ite_none_right_eq_some.1 ha
    obtain ⟨digits, hdigits, hs⟩ := Arguments.exists_of_number? hnumber
    obtain ⟨blanks, hne, hblanks, hs'⟩ := Arguments.exists_of_skipSome? hskip
    refine h c digits blanks rest hc hdigits hne hblanks ?_ hstarts
    rw [htext, hs, hs']
    rfl
  unfold splitNumber
  split
  · simp only [Option.bind_eq_bind, Option.bind_some]
    rw [hnone (.inl rfl) rfl]
  · simp only [Option.bind_eq_bind, Option.bind_some]
    rw [hnone (.inr rfl) rfl]
  · rfl

/-- A word that begins an expression with the letter `T` is an operand. -/
theorem exists_operand_of_spells {t : Token} {c : Char} {s : List Char} (h : Spells t (c :: s))
    (hc : c = 'T' ∨ c = 't') (ht : t.beginsOperand) : ∃ o, t = symbol (.operand o) := by
  generalize hw : c :: s = w at h
  cases h with
  | letters hk hu =>
    match t with
    | symbol (.operand o) => exact ⟨o, rfl⟩
    | symbol (.operator (.unary op)) =>
      have hT : c.toUpper = 'T' := by rcases hc with rfl | rfl <;> rfl
      rw [← hw, upper, List.map_cons, hT] at hu
      cases op <;> cases hk <;> cases hu
    | opening => cases hk
  | sign hk =>
    rw [eq_opening_of_mem_signs ht hk] at hw
    obtain rfl : c = '(' := (List.cons.inj hw).1
    exact absurd hc (by decide)
  | name h => exact ⟨_, rfl⟩
  | numeral h => exact ⟨_, rfl⟩

/-- No part of an expression is taken for a number. -/
theorem splitNumber_of_written (h : Written true tokens text) (ha : alternates true tokens)
    (hb : balances 0 tokens) : splitNumber text = (none, text) := by
  refine splitNumber_eq_self fun c digits blanks rest hc hdigits hne hblanks htext => ?_
  have hletter : isBlank c = false ∧ tightChars.contains c = false := by
    rcases hc with rfl | rfl <;> decide
  cases h with
  | nil hgap =>
    have := hgap c (htext ▸ List.mem_cons_self)
    rw [hletter.1] at this
    cases this
  | @cons _ gap w text' t tokens hgap hw hsep hrest =>
    cases gap with
    | cons b gap =>
      obtain rfl : b = c := (List.cons.inj htext).1
      have := hgap b List.mem_cons_self
      rw [hletter.1] at this
      cases this
    | nil =>
      obtain ⟨d, s, rfl⟩ := List.exists_cons_of_ne_nil hw.ne_nil
      obtain rfl : d = c := (List.cons.inj htext).1
      have htight : isTight (d :: s) = false := hletter.2
      have hplain : ∀ e ∈ d :: digits, isPlain e := by
        refine List.forall_mem_cons.2 ⟨?_, fun e he => ?_⟩
        · rw [isPlain, hletter.1, hletter.2]
          rfl
        · refine (isPlain_of_isWordChar ?_).1
          simp [isWordChar, Char.isAlphanum, hdigits e he]
      have hblank : ∀ e ∈ (blanks ++ rest).head?, isPlain e = false := by
        intro e he
        rw [List.head?_append_of_ne_nil _ hne] at he
        rw [isPlain, hblanks e (List.mem_of_mem_head? he)]
        rfl
      rw [htight] at hrest
      -- the first word ends where the digits do, since a blank stands there
      obtain ⟨-, rfl⟩ := hrest.word_unique hw htight hplain hblank htext
      obtain ⟨t, tokens, htokens, ht⟩ := exists_of_alternates ha
      obtain ⟨rfl, rfl⟩ := List.cons.inj htokens
      obtain ⟨o, rfl⟩ := exists_operand_of_spells hw hc ht
      rw [← startsWithOperand_blanks_append hblanks]
      exact hrest.not_startsWithOperand ha hb

/-! ### Lines -/

theorem textArgument_of_written {afterTight : Bool} (h : Written afterTight tokens text)
    (hne : text ≠ []) (htrim : trim text = text) :
    textArgument text = some (String.ofList text) := by
  have hquote : unquote text = text := by
    unfold unquote
    split
    · exact absurd rfl (h.ne_quote '"' List.mem_cons_self).1
    · rfl
  rw [textArgument, hquote, htrim]
  cases text with
  | nil => exact absurd rfl hne
  | cons c s => rfl

theorem readTransition_of_written {c : LineContext} {afterTight : Bool} {number : Option Nat}
    (h : Written afterTight tokens text) (hne : text ≠ []) (htrim : trim text = text)
    (hsplit : splitNumber c.arguments = (number, text)) :
    readTransition c = .ok (.transition number (String.ofList text)) := by
  rw [readTransition, hsplit]
  simp only [textArgument_of_written h hne htrim]

end Directive

namespace Formula

open Token

variable {f : Formula} {text : String}

theorem Renders.startsWithOperand (h : f.Renders text) : startsWithOperand text.toList := by
  have ha := alternates_tokens f []
  rw [List.append_nil] at ha
  exact Written.startsWithOperand h ha

theorem Renders.ne_nil (h : f.Renders text) : text.toList ≠ [] := by
  intro hnil
  have := h.startsWithOperand
  rw [hnil] at this
  cases this

theorem Renders.splitNumber_eq_self (h : f.Renders text) :
    splitNumber text.toList = (none, text.toList) := by
  have ha := alternates_tokens f []
  have hb := balances_tokens f 0 []
  rw [List.append_nil] at ha hb
  exact Directive.splitNumber_of_written h ha hb

end Formula

namespace Directive

open Token

variable {f : Formula} {text : String}

/-- The line of a transition whose condition is an expression, with what stands in front of the
condition. -/
theorem gives_transition (h : f.Renders text) (hfeed : '\n' ∉ text.toList)
    (htrim : trim text.toList = text.toList) (front : List Char) {number : Option Nat}
    (hfront : ∀ c ∈ front, c ≠ '\n' ∧ c ≠ '"' ∧ c ≠ '/')
    (hhead : ∀ c ∈ (front ++ text.toList).head?, isBlank c = false)
    (hsplit : splitNumber (front ++ text.toList) = (number, text.toList)) :
    Line.Gives ("Transition".toList ++ ' ' :: (front ++ text.toList))
      (.transition number text) := by
  have hchars : ∀ c ∈ front ++ text.toList, c ≠ '\n' ∧ c ≠ '"' ∧ c ≠ '/' :=
    List.forall_mem_append.2
      ⟨hfront, fun c hc => ⟨fun heq => hfeed (heq ▸ hc), Token.Written.ne_quote h c hc⟩⟩
  have hlast : ∀ c ∈ (front ++ text.toList).getLast?, isBlank c = false := by
    rw [List.getLast?_append_of_ne_nil _ h.ne_nil, ← htrim]
    exact fun c => isBlank_of_mem_getLast?_trimEnd
  refine Line.gives_of_ofKeyword (by decide) (List.all_eq_true.1 (by decide))
    (fun hmem => (hchars _ hmem).1 rfl) (List.append_ne_nil_of_right_ne_nil _ h.ne_nil)
    (Line.isClosed_of_forall fun c hc => (hchars c hc).2) (trim_eq_self hhead hlast) fun l => ?_
  have hread := readTransition_of_written
    (c := ⟨String.ofList "Transition".toList, l, front ++ text.toList⟩) h h.ne_nil htrim hsplit
  rw [String.ofList_toList (s := text)] at hread
  exact congrArg (Except.map some) hread

/-- Whatever variable an expression begins with, its text is the whole condition of a transition
without a number; and with any number in front of it, it is the condition of a transition with that
number. -/
theorem gives_transition_of_renders {f : Formula} {text : String} (h : f.Renders text)
    (hfeed : '\n' ∉ text.toList) (htrim : trim text.toList = text.toList) (n : UInt32) :
    Line.Gives ("Transition T" ++ n.toNat.repr ++ " " ++ text).toList
        (.transition (some n.toNat) text) ∧
      Line.Gives ("Transition " ++ text).toList (.transition none text) := by
  have hhead : ∀ c ∈ text.toList.head?, isBlank c = false := by
    rw [← htrim]
    exact fun c => isBlank_of_mem_head?_trim
  constructor
  · have hdigits : ∀ c ∈ n.toNat.repr.toList, c ≠ '\n' ∧ c ≠ '"' ∧ c ≠ '/' := by
      intro c hc
      rw [Nat.toList_repr] at hc
      have hdigit : c.isDigit := Nat.isDigit_of_mem_toDigits (by decide) le_rfl hc
      refine ⟨?_, ?_, ?_⟩ <;> rintro rfl <;> exact absurd hdigit (by decide)
    have hfront : ∀ c ∈ 'T' :: (n.toNat.repr.toList ++ [' ']), c ≠ '\n' ∧ c ≠ '"' ∧ c ≠ '/' := by
      refine List.forall_mem_cons.2 ⟨by decide, List.forall_mem_append.2 ⟨hdigits, ?_⟩⟩
      exact List.forall_mem_singleton.2 (by decide)
    have hsplit := splitNumber_repr_append n.toNat_lt_size hhead
      (Formula.Renders.startsWithOperand h)
    rw [List.append_cons, ← List.cons_append] at hsplit
    have hgives := gives_transition h hfeed htrim _ hfront (by rintro c ⟨⟩; decide) hsplit
    simpa using hgives
  · have hgives := gives_transition h hfeed htrim [] nofun hhead
      (Formula.Renders.splitNumber_eq_self h)
    rwa [String.toList_append]

/-- The tree of `T3 or(B)`, which begins with a variable that looks like a number. -/
def numberLike : Formula :=
  .binary .or (.operand (.variable "T3")) (.group (.operand (.variable "B")))

theorem renders_numberLike : numberLike.Renders "T3 or(B)" := by
  have hblank : ∀ c ∈ [' '], isBlank c := List.forall_mem_singleton.2 rfl
  show Written true _ ([] ++ (['T', '3'] ++ ([' '] ++ (['o', 'r'] ++ ([] ++ (['('] ++ ([] ++
    (['B'] ++ ([] ++ ([')'] ++ []))))))))))
  refine .cons nofun (Formula.spells_name _ ⟨_, _, rfl, by decide⟩ rfl (by decide)) (by decide) ?_
  refine .cons hblank (.letters rfl rfl) (by decide) ?_
  refine .cons nofun (.sign (k := "(") (by decide)) (by decide) ?_
  refine .cons nofun (Formula.spells_name _ ⟨_, _, rfl, by decide⟩ rfl (by decide)) (by decide) ?_
  refine .cons nofun (.sign (k := ")") (by decide)) (by decide) ?_
  exact .nil nofun

theorem gives_transition_numberLike :
    Line.Gives "Transition T12 T3 or(B)".toList (.transition (some 12) "T3 or(B)") ∧
      Line.Gives "Transition T3 or(B)".toList (.transition none "T3 or(B)") :=
  gives_transition_of_renders renders_numberLike (by decide) (by decide) 12

end Directive

end SequentialChart
