import SequentialChart.Directive.Basic
import SequentialChart.Decimal.Read
import SequentialChart.Text.Ascii

/-!
# Arguments

What stands after the keyword of a directive is read from left to right. A reader yields a value and
the text behind it, or says where it stopped and what it would have needed there.

Optional parts that turn out to be malformed are given up as a whole: the reader goes on in front of
them, and it is there that the line is found to be wrong.

## Main definitions

* `Stop`, `Arguments.finish` — where and why reading stopped; nothing but blanks may be left over.
* `Arguments.number?`, `Arguments.quoted?`, `Arguments.word?` — the parts of arguments.
* `Arguments.step`, `Arguments.jump`, `Arguments.junction`, `Arguments.action` — the arguments of
  each directive.
-/

namespace SequentialChart

/-- Where reading stopped, given as the text from there on, and what was expected there, if it was
something definite. -/
structure Stop where
  rest : List Char
  expected : Option String

def Stop.remark (s : Stop) : String :=
  match s.expected with
  | some what => "expected " ++ what
  | none => "unexpected input"

structure Attribute where
  key : Option (List Char)
  value : List Char
  deriving DecidableEq

namespace Arguments

open Text

def skip (s : List Char) : List Char := s.dropWhile fun c => c = ' ' ∨ c = '\t'

def skipSome? (s : List Char) : Option (List Char) :=
  match s with
  | ' ' :: rest | '\t' :: rest => some (skip rest)
  | _ => none

/-- The number, at most `2 ^ 32 - 1`, that the text begins with. A number has no leading zeros, so
that after the digit `0` it ends. -/
def number? (s : List Char) : Option (Nat × List Char) :=
  match s with
  | '0' :: rest => some (0, rest)
  | _ =>
    let digits := s.takeWhile Char.isDigit
    let n := Decimal.digitsValue digits
    if digits ≠ [] ∧ n < UInt32.size then some (n, s.dropWhile Char.isDigit) else none

def quoted? : List Char → Option (List Char × List Char)
  | '"' :: s =>
    match s.dropWhile (· ≠ '"') with
    | '"' :: rest => some (s.takeWhile (· ≠ '"'), rest)
    | _ => none
  | _ => none

def word? (s : List Char) : Option (List Char × List Char) :=
  match s.takeWhile isWordChar with
  | [] => none
  | word => some (word, s.dropWhile isWordChar)

/-- Whether the text begins with the word, whatever the case of its letters, and what follows. -/
def keyword? (word : String) (s : List Char) : Option (List Char) :=
  let n := word.length
  if sameWord (s.take n) word.toList then some (s.drop n) else none

/-- The value if nothing but blanks is left over. -/
def finish {α : Type} (a : α) (s : List Char) : Except Stop α :=
  match skip s with
  | [] => .ok a
  | rest => .error ⟨rest, none⟩

/-! ### Steps and jumps -/

def kind? (s : List Char) : Option (StepKind × List Char) := do
  let '(' :: s := s | none
  let s := skip s
  let .ok kind := StepKind.read (s.takeWhile Char.isAlpha) | none
  let ')' :: rest := skip (s.dropWhile Char.isAlpha) | none
  return (kind, rest)

/-- A number, a kind in parentheses and a label in quotes, the last two optional. -/
def step (s : List Char) : Except Stop (Nat × StepKind × Option String) := do
  let some (number, rest) := number? s | .error ⟨s, some "step number"⟩
  let rest := skip rest
  let (kind, rest) := (kind? rest).getD (.normal, rest)
  let rest := skip rest
  match quoted? rest with
  | some (label, rest) => finish (number, kind, some (String.ofList label)) rest
  | none => finish (number, kind, none) rest

/-- The text after what may stand before the number of a step: the word `step`, or `X`. -/
def afterStepWord (s : List Char) : List Char :=
  match (keyword? "step" s).bind skipSome? with
  | some rest => rest
  | none =>
    match s with
    | 'X' :: rest | 'x' :: rest => rest
    | _ => s

def jump (s : List Char) : Except Stop Nat := do
  let s := afterStepWord s
  let some (number, rest) := number? s | .error ⟨s, some "target step number"⟩
  finish number rest

def junction (s : List Char) : Except Stop Junction :=
  match keyword? "and" s with
  | some rest => finish .and rest
  | none =>
    match keyword? "or" s with
    | some rest => finish .or rest
    | none => .error ⟨s, some "AND or OR"⟩

/-! ### Actions -/

def key? (s : List Char) : Option (List Char × List Char) := do
  let (key, rest) ← word? s
  let '=' :: rest := skip rest | none
  return (key, skip rest)

/-- A value: between quotes, or up to the next comma, closing parenthesis or quote, without the
blanks at its end. -/
def value? (s : List Char) : Option (List Char × List Char) :=
  match quoted? s with
  | some r => some r
  | none =>
    let isEnd c := c = ',' ∨ c = ')' ∨ c = '"'
    match s.takeWhile fun c => ¬isEnd c with
    | [] => none
    | value => some (trimEnd value, s.dropWhile fun c => ¬isEnd c)

def attribute? (s : List Char) : Option (Attribute × List Char) :=
  let (key, rest) := match key? s with
    | some (key, rest) => (some key, rest)
    | none => (none, s)
  (value? rest).map fun (value, rest) => (⟨key, value⟩, skip rest)

/-- The attributes up to the closing parenthesis, at most `fuel` of them. -/
def attributes? : Nat → List Char → Option (List Attribute × List Char)
  | 0, _ => none
  | fuel + 1, s => do
    let (a, rest) ← attribute? s
    match rest with
    | ')' :: rest => return ([a], rest)
    | ',' :: rest =>
      let (more, rest) ← attributes? fuel (skip rest)
      return (a :: more, rest)
    | _ => none

/-- Attributes in parentheses, with commas between them. Every attribute takes at least one
character, so there are fewer of them than characters. -/
def attributeList? (s : List Char) : Option (List Attribute × List Char) := do
  let '(' :: s := s | none
  match skip s with
  | ')' :: rest => return ([], rest)
  | s => attributes? s.length s

def action (s : List Char) : Except Stop (List Char × List Attribute) := do
  let some (name, rest) := quoted? s <|> word? s | .error ⟨s, some "action name"⟩
  let rest := skip rest
  match attributeList? rest with
  | some (attributes, rest) => finish (name, attributes) rest
  | none => finish (name, []) rest

end Arguments

end SequentialChart
