import SequentialChart.Directive.Arguments
import SequentialChart.Duration
import SequentialChart.Source.Line

/-!
# Reading directives

A line begins with a keyword, which ends at the first character that is not a letter and has to be
followed by a blank or by nothing. A line that does not begin with a known keyword is no directive.

## Main definitions

* `Directive.splitNumber` — the number that may stand before a condition.
* `Action.ofAttributes` — the action an attribute list denotes.
* `Directive.ofLine` — the directive on a line.
-/

namespace SequentialChart

open Text

structure LineContext where
  keyword : String
  line : Line
  /-- What follows the keyword, without blanks around it. -/
  arguments : List Char

namespace LineContext

def argumentsStart (c : LineContext) : Nat := c.line.start + (width c.line.text - width c.arguments)

def argumentsSpan (c : LineContext) : Span := .ofBounds c.argumentsStart c.line.span.stop

/-- The value that was read, or the finding about the place where reading stopped. -/
def expect {α : Type} (c : LineContext) (usage : Usage) : Except Stop α → Except DirectiveFault α
  | .ok a => .ok a
  | .error stop =>
    let start := c.argumentsStart + (width c.arguments - width stop.rest)
    .error (.malformed c.keyword (.ofBounds start c.line.span.stop) stop.remark usage)

def alone (c : LineContext) (d : Directive) : Except DirectiveFault Directive :=
  if c.arguments.isEmpty then .ok d else .error (.unexpectedArgument c.keyword c.argumentsSpan)

end LineContext

/-- The arguments as a text that may stand between quotes; nothing, if it is blank. -/
def textArgument (s : List Char) : Option String :=
  match trim (unquote s) with
  | [] => none
  | text => some (String.ofList text)

/-! ### Transitions -/

/-- Whether a condition can begin like this: not with an operator that stands between operands. The
test keeps a variable such as `T3` at the beginning of a condition from being taken for the number
of the transition. -/
def startsWithOperand (s : List Char) : Bool :=
  let s := trimStart s
  match s with
  | [] => false
  | c :: _ =>
    if c ∈ ['.', '*', '+', '<', '>', '=', ')'] then false
    else
      let first := s.takeWhile fun c => !isBlank c && c ≠ '('
      !sameWord first "and".toList && !sameWord first "or".toList

/-- The number before a condition, if there is one, and the condition. The number follows the letter
`T` and is followed by a blank or a tab. -/
def splitNumber (s : List Char) : Option Nat × List Char :=
  let numbered : Option (Nat × List Char) := do
    let rest ← match s with
      | 'T' :: rest | 't' :: rest => some rest
      | _ => none
    let (n, rest) ← Arguments.number? rest
    let rest ← Arguments.skipSome? rest
    if startsWithOperand rest then some (n, rest) else none
  match numbered with
  | some (n, rest) => (some n, rest)
  | none => (none, s)

def readTransition (c : LineContext) : Except DirectiveFault Directive :=
  let (number, condition) := splitNumber c.arguments
  match textArgument condition with
  | some condition => .ok (.transition number condition)
  | none => .error (.missingCondition c.line.span)

/-! ### Actions -/

inductive Slot where
  | qualifier
  | duration
  | condition
  deriving DecidableEq

def Slot.ofKey? (key : List Char) : Option Slot :=
  match String.ofList (lower key) with
  | "type" | "qualifier" => some .qualifier
  | "duration" | "time" => some .duration
  | "condition" => some .condition
  | _ => none

structure ActionDraft where
  qualifier : Option Qualifier := none
  duration : Option Float := none
  condition : Option String := none

namespace ActionDraft

/-- What the attribute without a key in place `index` says. The second is the duration; but if the
qualifier takes none and the value reads as none, it is the condition. -/
def positional? (draft : ActionDraft) (index : Nat) (value : List Char) : Option Slot :=
  match index with
  | 0 => some .qualifier
  | 1 =>
    if draft.qualifier.any (fun q => !q.isTimed) && (Duration.read value).isNone then
      some .condition
    else some .duration
  | 2 => some .condition
  | _ => none

def slot (draft : ActionDraft) (c : LineContext) (index : Nat) (a : Attribute) :
    Except DirectiveFault Slot :=
  match a.key with
  | some key =>
    match Slot.ofKey? key with
    | some slot => .ok slot
    | none => .error (.unknownAttribute (String.ofList key) c.argumentsSpan)
  | none =>
    match draft.positional? index a.value with
    | some slot => .ok slot
    | none => .error (.tooManyAttributes c.argumentsSpan)

/-- The draft with a value filled in. A later value replaces an earlier one. -/
def fill (draft : ActionDraft) (c : LineContext) (value : List Char) :
    Slot → Except DirectiveFault ActionDraft
  | .qualifier =>
    match Qualifier.read? value with
    | some q => .ok { draft with qualifier := some q }
    | none => .error (.unknownQualifier (String.ofList value) c.argumentsSpan)
  | .duration =>
    match Duration.read value with
    | some seconds => .ok { draft with duration := some seconds }
    | none => .error (.invalidDuration (String.ofList value) c.argumentsSpan)
  | .condition => .ok { draft with condition := some (String.ofList (trim value)) }

def fillAll (c : LineContext) :
    Nat → List Attribute → ActionDraft → Except DirectiveFault ActionDraft
  | _, [], draft => .ok draft
  | index, a :: rest, draft => do
    let slot ← draft.slot c index a
    let draft ← draft.fill c a.value slot
    fillAll c (index + 1) rest draft

end ActionDraft

def Action.ofAttributes (c : LineContext) (name : List Char) (attributes : List Attribute) :
    Except DirectiveFault Action := do
  let name := trim name
  if name.isEmpty then
    throw (.malformed c.keyword c.line.span "action name is empty" .actionName)
  let name := String.ofList name
  let draft ← ActionDraft.fillAll c 0 attributes {}
  let qualifier := draft.qualifier.getD .nonStored
  if qualifier.isTimed && draft.duration.isNone then
    throw (.missingDuration name qualifier c.line.span)
  return { name, qualifier, condition := draft.condition, duration := draft.duration }

/-! ### Lines -/

namespace Directive

/-- The directive with a known keyword, in lower case; nothing, if the keyword is not known. -/
def ofKeyword (keyword : String) (c : LineContext) : Except DirectiveFault (Option Directive) :=
  match keyword with
  | "sfc" => .ok (some (.title (textArgument c.arguments)))
  | "step" =>
    (c.expect .step (Arguments.step c.arguments)).map fun (number, kind, label) =>
      some (.step number kind label)
  | "transition" => (readTransition c).map some
  | "action" => do
    let (name, attributes) ← c.expect .action (Arguments.action c.arguments)
    return some (.action (← Action.ofAttributes c name attributes))
  | "linkedfile" =>
    match textArgument c.arguments with
    | some file => .ok (some (.linkedFile file))
    | none => .error (.malformed c.keyword c.line.span "missing file name" .linkedFile)
  | "jump" => (c.expect .jump (Arguments.jump c.arguments)).map (some ∘ .jump)
  | "divergence" =>
    (c.expect .divergence (Arguments.junction c.arguments)).map (some ∘ .divergence)
  | "branch" => (c.alone .branch).map some
  | "endbranch" => (c.alone .endBranch).map some
  | "enddivergence" | "converge" => (c.alone .endDivergence).map some
  | _ => .ok none

/-- The directive on a line; nothing, if the line does not begin with a known keyword. -/
def ofLine (line : Line) : Except DirectiveFault (Option Directive) :=
  let keyword := line.text.takeWhile Char.isAlpha
  let rest := line.text.dropWhile Char.isAlpha
  if keyword.isEmpty || rest.head?.any (fun c => !isBlank c) then .ok none
  else
    ofKeyword (String.ofList (lower keyword))
      { keyword := String.ofList keyword, line, arguments := trim rest }

end Directive

end SequentialChart
